import Mathlib
import Transducer.Automaton.EpsilonRemoval
import Transducer.Proofs.Graph.Component
import Transducer.Proofs.Path.Accepting

/-!
# The graph of the epsilon arcs

What the parts of `EpsilonGraph` are, without any law of the weights: the states of a component
(`mem_states`), the arcs between components (`mem_crossings`), and the sums of weights that are passed on
between them (`distances_eq`): the sum of a component is made up of what the components above it pass on.

An `EpsilonWay` is a way of epsilon arcs. Ways lead to components that are not higher, and back to the same
one only if they stay in it.
-/

namespace Transducer

open Transducer.Graph

variable {W : Type}

namespace Automaton

/-- A way of epsilon arcs. -/
def EpsilonWay (a : Automaton W) (s : Nat) (places : List Nat) (arcs : List (Arc W)) (t : Nat) : Prop :=
  a.Way s places arcs t ∧ ∀ arc ∈ arcs, arc.isEpsilon = true

theorem EpsilonWay.nil {a : Automaton W} (s : Nat) : a.EpsilonWay s [] [] s := by
  refine ⟨.nil s, ?_⟩
  intro arc harc
  cases harc

theorem EpsilonWay.single {a : Automaton W} {s i : Nat} {arc : Arc W} (h : (a.arcsAt s)[i]? = some arc)
    (he : arc.isEpsilon = true) : a.EpsilonWay s [i] [arc] arc.target := by
  refine ⟨.single h, ?_⟩
  intro x hx
  rwa [List.mem_singleton.1 hx]

theorem EpsilonWay.append {a : Automaton W} {s t u : Nat} {places others : List Nat}
    {arcs arcs' : List (Arc W)} (h : a.EpsilonWay s places arcs t) (h' : a.EpsilonWay t others arcs' u) :
    a.EpsilonWay s (places ++ others) (arcs ++ arcs') u := by
  refine ⟨h.1.append h'.1, ?_⟩
  intro arc harc
  rcases List.mem_append.1 harc with harc | harc
  · exact h.2 arc harc
  · exact h'.2 arc harc

end Automaton

namespace EpsilonGraph

open Automaton

variable {a : Automaton W} {s t c root : Nat} {arc : Arc W}

/-! ### Components -/

theorem mem_arcs : arc ∈ arcs a s ↔ arc ∈ a.arcsAt s ∧ arc.isEpsilon = true := by
  rw [arcs, List.mem_filter, Array.mem_toList_iff]

/-- The targets of the epsilon arcs of a state. -/
def targets (a : Automaton W) (s : Nat) : List Nat := (arcs a s).map (·.target)

theorem component_lt (hs : s < a.size) : (of a).component s < (of a).components.count := numberOf_lt hs

theorem edge_targets [Weight W] (wf : a.WellFormed) (h : arc ∈ arcs a s) :
    Edge (targets a) a.size s arc.target :=
  ⟨List.mem_map.2 ⟨arc, h, rfl⟩, wf.target_lt (mem_arcs.1 h).1⟩

/-- An epsilon arc leads to a component that is not higher. -/
theorem component_le [Weight W] (wf : a.WellFormed) (h : arc ∈ arcs a s) :
    (of a).component arc.target ≤ (of a).component s :=
  numberOf_le_of_edge (edge_targets wf h) (lt_size_of_mem (mem_arcs.1 h).1)

/-- What the graph of the epsilon arcs reaches is what some epsilon way leads to. -/
theorem reaches_iff (ht : t < a.size) :
    Reaches (targets a) a.size s t ↔ ∃ places arcs, a.EpsilonWay s places arcs t := by
  constructor
  · intro h
    induction h using Relation.ReflTransGen.head_induction_on with
    | refl => exact ⟨[], [], .nil t⟩
    | head e _ ih =>
      obtain ⟨places, arcs, hway⟩ := ih
      obtain ⟨arc, harc, rfl⟩ := List.mem_map.1 e.1
      obtain ⟨hmem, he⟩ := mem_arcs.1 harc
      obtain ⟨i, hi⟩ := Array.getElem?_of_mem hmem
      exact ⟨_, _, (EpsilonWay.single hi he).append hway⟩
  · rintro ⟨places, arcs, hway, heps⟩
    induction hway with
    | nil s => exact .refl
    | cons hi hway ih =>
      have harc := mem_arcs.2 ⟨Array.mem_of_getElem? hi, heps _ List.mem_cons_self⟩
      refine .head ⟨List.mem_map.2 ⟨_, harc, rfl⟩, hway.lt_size_of_last ht⟩ (ih ht ?_)
      intro arc harc
      exact heps arc (List.mem_cons_of_mem _ harc)

/-- An epsilon arc stays in its component if epsilon arcs lead back from its target. -/
theorem stays_iff (htarget : ∀ {s : Nat} {arc : Arc W}, arc ∈ a.arcsAt s → arc.target < a.size) {arc : Arc W}
    (h : arc ∈ arcs a s) :
    (of a).component s = (of a).component arc.target ↔ ∃ places arcs, a.EpsilonWay arc.target places arcs s := by
  have hmem := (mem_arcs.1 h).1
  have hs := lt_size_of_mem hmem
  rw [← reaches_iff hs]
  constructor
  · intro heq
    exact ((numberOf_eq_iff hs (htarget hmem)).1 heq).2
  · intro hback
    have hforth : Reaches (targets a) a.size s arc.target := .single ⟨List.mem_map.2 ⟨arc, h, rfl⟩, htarget hmem⟩
    exact (numberOf_eq_iff hs (htarget hmem)).2 ⟨hforth, hback⟩

/-! ### Members -/

/-- Sorting vertices into lists by a number. -/
theorem getD_foldr_modify (f : Nat → Nat) (vertices : List Nat) (count c : Nat) :
    (vertices.foldr (fun v lists => lists.modify (f v) (v :: ·)) (Array.replicate count [])).size = count ∧
      (vertices.foldr (fun v lists => lists.modify (f v) (v :: ·)) (Array.replicate count [])).getD c [] =
        if c < count then vertices.filter (f · == c) else [] := by
  induction vertices with
  | nil =>
    refine ⟨Array.size_replicate, ?_⟩
    rw [List.foldr_nil, Array.getD_eq_getD_getElem?, Array.getElem?_replicate]
    split <;> rfl
  | cons v vertices ih =>
    obtain ⟨hsize, hget⟩ := ih
    rw [List.foldr_cons]
    refine ⟨by rw [Array.size_modify, hsize], ?_⟩
    rw [Array.getD_eq_getD_getElem?] at hget ⊢
    rw [Array.getElem?_modify]
    by_cases hc : c < count
    · have hlt := hsize.symm ▸ hc
      rw [if_pos hc] at hget ⊢
      by_cases hv : f v = c
      · rw [if_pos hv, List.filter_cons_of_pos (by simpa using hv), ← hget, Array.getElem?_eq_getElem hlt]
        rfl
      · rw [if_neg hv, List.filter_cons_of_neg (by simpa using hv), hget]
    · rw [if_neg hc] at hget ⊢
      have hnone := Array.getElem?_eq_none (hsize.symm ▸ Nat.le_of_not_lt hc :
        (vertices.foldr (fun v lists => lists.modify (f v) (v :: ·)) (Array.replicate count [])).size ≤ c)
      rw [hnone]
      split <;> rfl

/-- The states of a component, in ascending order. -/
theorem states_eq (hc : c < (of a).components.count) :
    (of a).states c = (List.range a.size).filter ((of a).component · == c) := by
  have h := (getD_foldr_modify (of a).component (List.range a.size) (of a).components.count c).2
  rwa [if_pos hc] at h

theorem mem_states (hc : c < (of a).components.count) :
    s ∈ (of a).states c ↔ s < a.size ∧ (of a).component s = c := by
  rw [states_eq hc, List.mem_filter, List.mem_range, beq_iff_eq]

theorem mem_crossings {g : EpsilonGraph W} {x : Nat × W} :
    x ∈ g.crossings c ↔ ∃ s ∈ g.states c, ∃ arc ∈ arcs g.automaton s, g.component arc.target ≠ c ∧
      x = (g.component arc.target, arc.weight) := by
  simp only [crossings, List.mem_flatMap, List.mem_filterMap]
  refine exists_congr fun s => and_congr_right fun _ => exists_congr fun arc => and_congr_right fun _ => ?_
  by_cases h : g.component arc.target = c
  · simp [h]
  · simp [h, eq_comm]

variable [Weight W]

/-- Arcs between components lead to lower ones. -/
theorem lt_of_mem_crossings (wf : a.WellFormed) (hc : c < (of a).components.count) {x : Nat × W}
    (hx : x ∈ (of a).crossings c) : x.1 < c := by
  obtain ⟨s, hs, arc, harc, hne, rfl⟩ := mem_crossings.1 hx
  obtain ⟨-, rfl⟩ := (mem_states hc).1 hs
  exact lt_of_le_of_ne (component_le wf harc) hne

/-! ### Distances -/

/-- What a component passes on to another, if the sums are as given. -/
def passed (g : EpsilonGraph W) (distances : Array (Option W)) (source c : Nat) : List W :=
  match distances.getD source none with
  | none => []
  | some weight => (g.crossings source).filterMap fun x => if x.1 = c then some (weight * x.2) else none

/-- The sums after a component has passed on its own. -/
def pass (g : EpsilonGraph W) (distances : Array (Option W)) (source : Nat) : Array (Option W) :=
  match distances.getD source none with
  | none => distances
  | some weight =>
    (g.crossings source).foldl
      (fun distances x => distances.modify x.1 fun old => plus old (weight * x.2)) distances

theorem getD_foldl_modify_plus (weight : W) (crossings : List (Nat × W)) (distances : Array (Option W))
    (c : Nat) :
    (crossings.foldl (fun distances x => distances.modify x.1 fun old => plus old (weight * x.2))
        distances).size = distances.size ∧
      (c < distances.size →
        (crossings.foldl (fun distances x => distances.modify x.1 fun old => plus old (weight * x.2))
          distances).getD c none =
          (crossings.filterMap fun x => if x.1 = c then some (weight * x.2) else none).foldl plus
            (distances.getD c none)) := by
  induction crossings generalizing distances with
  | nil => exact ⟨rfl, fun _ => rfl⟩
  | cons x crossings ih =>
    obtain ⟨hsize, hget⟩ := ih (distances.modify x.1 fun old => plus old (weight * x.2))
    rw [Array.size_modify] at hsize hget
    refine ⟨hsize, ?_⟩
    intro hc
    rw [List.foldl_cons, hget hc]
    have hmodify : (distances.modify x.1 fun old => plus old (weight * x.2)).getD c none =
        if x.1 = c then plus (distances.getD c none) (weight * x.2) else distances.getD c none := by
      simp only [Array.getD_eq_getD_getElem?, Array.getElem?_modify, Array.getElem?_eq_getElem hc]
      split <;> rfl
    rw [hmodify]
    by_cases h : x.1 = c
    · simp [h]
    · simp [h]

theorem getD_pass (g : EpsilonGraph W) (distances : Array (Option W)) (source c : Nat) :
    (g.pass distances source).size = distances.size ∧
      (c < distances.size →
        (g.pass distances source).getD c none =
          (g.passed distances source c).foldl plus (distances.getD c none)) := by
  unfold pass passed
  cases distances.getD source none with
  | none => exact ⟨rfl, fun _ => rfl⟩
  | some weight => exact getD_foldl_modify_plus weight (g.crossings source) distances c

theorem passed_eq_nil {g : EpsilonGraph W} (distances : Array (Option W)) {source c : Nat}
    (hlower : ∀ x ∈ g.crossings source, x.1 < source) (hc : source ≤ c) :
    g.passed distances source c = [] := by
  unfold passed
  split
  · rfl
  · refine List.filterMap_eq_nil_iff.2 ?_
    intro x hx
    have := hlower x hx
    rw [if_neg (by omega)]

theorem passed_congr (g : EpsilonGraph W) {distances distances' : Array (Option W)} {source : Nat}
    (h : distances.getD source none = distances'.getD source none) (c : Nat) :
    g.passed distances source c = g.passed distances' source c := by
  unfold passed
  rw [h]

/-- Passing on from one component after the other, from above: a component that has passed on its sum does
not change any more, and the others get what is passed on to them. -/
theorem getD_foldl_pass {g : EpsilonGraph W} {bound : Nat}
    (hlower : ∀ source < bound, ∀ x ∈ g.crossings source, x.1 < source) (distances : Array (Option W)) :
    ((List.range bound).reverse.foldl g.pass distances).size = distances.size ∧
      (∀ c < distances.size, bound ≤ c →
        ((List.range bound).reverse.foldl g.pass distances).getD c none = distances.getD c none) ∧
      ∀ c < distances.size, ((List.range bound).reverse.foldl g.pass distances).getD c none =
        ((List.range bound).reverse.flatMap fun source =>
          g.passed ((List.range bound).reverse.foldl g.pass distances) source c).foldl plus
            (distances.getD c none) := by
  induction bound generalizing distances with
  | zero => exact ⟨rfl, fun _ _ _ => rfl, fun _ _ => rfl⟩
  | succ n ih =>
    have hbelow := hlower n n.lt_succ_self
    obtain ⟨hsize, hkeep, heq⟩ :=
      ih (fun source hs => hlower source (Nat.lt_succ_of_lt hs)) (g.pass distances n)
    have hpass := fun c => (getD_pass g distances n c).2
    rw [(getD_pass g distances n 0).1] at hsize hkeep heq
    have hrange : (List.range (n + 1)).reverse = n :: (List.range n).reverse := by
      rw [List.range_succ, List.reverse_append]
      rfl
    rw [hrange, List.foldl_cons]
    have hkeep' : ∀ c < distances.size, n ≤ c →
        ((List.range n).reverse.foldl g.pass (g.pass distances n)).getD c none = distances.getD c none := by
      intro c hc hn
      rw [hkeep c hc hn, hpass c hc, passed_eq_nil distances hbelow hn]
      rfl
    refine ⟨hsize, fun c hc hn => hkeep' c hc (by omega), ?_⟩
    intro c hc
    rw [List.flatMap_cons, List.foldl_append, heq c hc, hpass c hc]
    -- what is passed on is the sum at the end
    by_cases hn : n < distances.size
    · rw [passed_congr g (hkeep' n hn le_rfl) c]
    · have hnone : ∀ D : Array (Option W), D.size = distances.size → D.getD n none = none := by
        intro D hD
        rw [Array.getD_eq_getD_getElem?, Array.getElem?_eq_none (by omega)]
        rfl
      rw [passed_congr g ((hnone _ rfl).trans (hnone _ hsize).symm) c]

/-- At first only one component has a sum. -/
theorem getD_initial {count : Nat} (hroot : root < count) (hc : c < count) :
    ((Array.replicate count (none : Option W)).setIfInBounds root (some 1)).getD c none =
      if c = root then some 1 else none := by
  rw [Array.getD_eq_getD_getElem?, Array.getElem?_setIfInBounds, Array.size_replicate, if_pos hroot,
    Array.getElem?_replicate, if_pos hc]
  by_cases h : c = root
  · simp [h]
  · simp [h, Ne.symm h]

/-- The sum of a component is that of what the components above it pass on; the first component has the
weight of the way that stays there. -/
theorem distances_eq (wf : a.WellFormed) (hroot : root < (of a).components.count)
    (hc : c < (of a).components.count) :
    ((of a).distances root).getD c none =
      ((List.range (root + 1)).reverse.flatMap fun source =>
        (of a).passed ((of a).distances root) source c).foldl plus (if c = root then some 1 else none) := by
  have hlower : ∀ source < root + 1, ∀ x ∈ (of a).crossings source, x.1 < source := by
    intro source hs x hx
    exact lt_of_mem_crossings wf (by omega) hx
  have hsize : ((Array.replicate (of a).components.count (none : Option W)).setIfInBounds root
      (some 1)).size = (of a).components.count := by simp
  have h := (getD_foldl_pass hlower ((Array.replicate (of a).components.count none).setIfInBounds root
    (some 1))).2.2 c (hsize.symm ▸ hc)
  rw [getD_initial hroot hc] at h
  exact h

/-! ### Closures -/

/-- The closure of a component has the states of all components that have a sum, with that sum. -/
theorem mem_closure (hroot : root < (of a).components.count) {weight : W} :
    (s, weight) ∈ (of a).closure root ↔ s < a.size ∧ (of a).component s ≤ root ∧
      ((of a).distances root).getD ((of a).component s) none = some weight := by
  simp only [closure, List.mem_flatMap, List.mem_reverse, List.mem_range]
  constructor
  · rintro ⟨c, hc, hmem⟩
    split at hmem
    · cases hmem
    · next d hd =>
      obtain ⟨t, ht, heq⟩ := List.mem_map.1 hmem
      obtain ⟨rfl, rfl⟩ := Prod.mk.inj heq
      obtain ⟨hlt, rfl⟩ := (mem_states (by omega)).1 ht
      exact ⟨hlt, by omega, hd⟩
  · rintro ⟨hlt, hle, hd⟩
    refine ⟨(of a).component s, by omega, ?_⟩
    rw [hd]
    exact List.mem_map.2 ⟨s, (mem_states (by omega)).2 ⟨hlt, rfl⟩, rfl⟩

/-- The arcs of a replacement are the other arcs of the closure, with the weights of the ways there. -/
theorem mem_arcs_replacement {g : EpsilonGraph W} :
    arc ∈ (g.replacement root).arcs ↔ ∃ s weight, (s, weight) ∈ g.closure root ∧
      ∃ old ∈ g.automaton.arcsAt s, old.isEpsilon = false ∧ isZero (weight * old.weight) = false ∧
        arc = { old with weight := weight * old.weight } := by
  simp only [replacement, List.mem_toArray, List.mem_flatMap, List.mem_filterMap, Prod.exists,
    Array.mem_toList_iff]
  refine exists_congr fun s => exists_congr fun weight => and_congr_right fun _ =>
    exists_congr fun old => and_congr_right fun _ => ?_
  by_cases he : old.isEpsilon = true
  · simp [he]
  · by_cases hz : isZero (weight * old.weight) = true
    · simp [hz]
    · simp [he, hz, eq_comm]

/-- The final weights that the closure of a component leads to. -/
def finals (g : EpsilonGraph W) (root : Nat) : List W :=
  (g.closure root).filterMap fun x => (g.automaton.final? x.1).map (x.2 * ·)

/-- A fold over a closure that adds a weight wherever there is one is the sum of these weights. -/
theorem foldl_eq_foldl_plus {f : Option W → Nat × W → Option W} {weight? : Nat × W → Option W}
    (hnone : ∀ sum x, weight? x = none → f sum x = sum)
    (hsome : ∀ sum x weight, weight? x = some weight → f sum x = plus sum weight) (closure : List (Nat × W))
    (sum : Option W) : closure.foldl f sum = (closure.filterMap weight?).foldl plus sum := by
  induction closure generalizing sum with
  | nil => rfl
  | cons x closure ih =>
    rw [List.foldl_cons, ih]
    cases h : weight? x with
    | none => rw [hnone sum x h, List.filterMap_cons_none h]
    | some weight => rw [hsome sum x weight h, List.filterMap_cons_some h, List.foldl_cons]

theorem final_replacement (g : EpsilonGraph W) (root : Nat) :
    (g.replacement root).final = (g.finals root).foldl plus none := by
  refine foldl_eq_foldl_plus (fun sum x h => ?_) (fun sum x weight h => ?_) (g.closure root) none
  · rw [Option.map_eq_none_iff] at h
    simp only [h]
  · obtain ⟨final, hf, rfl⟩ := Option.map_eq_some_iff.1 h
    simp only [hf]

end EpsilonGraph

end Transducer
