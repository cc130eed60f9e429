import Mathlib
import Transducer.Proofs.Automaton.EpsilonSweep
import Transducer.Proofs.Automaton.Trim
import Transducer.Proofs.Automaton.WeightedCycle
import Transducer.Proofs.Path.Sum

/-!
# Epsilon removal keeps the sum of every label sequence

If epsilon arcs form no cycles, epsilon removal does not change what the weights of the paths that carry some label
pairs add up to, for all weights that form a semiring: `exists_pathSum_removeEpsilons`. Sums need not be idempotent, so
every epsilon way has to be counted once.

Without cycles each component has one state, and all epsilon arcs lead to lower components. Let `h` be what the states
lead to altogether and `g` what they lead to without an epsilon arc at first. When the components pass on their sums one
after the other, what is still to come keeps its value: a component that has passed on its sum `d` is counted as `d * g`
from then on, and as `d * h` before (`sum_foldl_pass`). In the end the closure of a state is what the state leads to
(`sum_closure`), and this is how the state is replaced (`sums_bypass`).
-/

namespace Transducer

open Automaton EpsilonGraph Transducer.Graph
open scoped LawfulSemiring

variable {W : Type}

/-- Epsilon arcs form no cycles. -/
def Automaton.EpsilonAcyclic (a : Automaton W) : Prop :=
  ∀ {s : Nat} {places : List Nat} {arcs : List (Arc W)}, a.EpsilonWay s places arcs s → arcs = []

namespace EpsilonGraph

variable {a : Automaton W} {s t root : Nat} {arc : Arc W}

/-! ### Components without cycles -/

/-- No epsilon arc stays in its component. -/
theorem epsilonAcyclic_iff (htarget : ∀ {s : Nat} {arc : Arc W}, arc ∈ a.arcsAt s → arc.target < a.size) :
    a.EpsilonAcyclic ↔ ∀ s < a.size, ∀ arc ∈ arcs a s, (of a).component s ≠ (of a).component arc.target := by
  constructor
  · intro acyclic s _ arc harc hstays
    obtain ⟨hmem, he⟩ := mem_arcs.1 harc
    obtain ⟨places, back, hback⟩ := (stays_iff htarget harc).1 hstays
    obtain ⟨i, hi⟩ := Array.getElem?_of_mem hmem
    cases acyclic ((EpsilonWay.single hi he).append hback)
  · intro h s places way hway
    obtain ⟨hway, heps⟩ := hway
    cases hway with
    | nil => rfl
    | @cons _ i _ arc places rest hi hrest =>
      have hmem := Array.mem_of_getElem? hi
      have harc := mem_arcs.2 ⟨hmem, heps arc List.mem_cons_self⟩
      have hback : a.EpsilonWay arc.target places rest s := ⟨hrest, fun x hx => heps x (List.mem_cons_of_mem _ hx)⟩
      exact absurd ((stays_iff htarget harc).2 ⟨_, _, hback⟩) (h s (lt_size_of_mem hmem) arc harc)

/-- A state is alone in its component. -/
theorem states_component (acyclic : a.EpsilonAcyclic) (hs : s < a.size) : (of a).states ((of a).component s) = [s] := by
  have hc := component_lt (a := a) hs
  have hmem : ∀ t, t ∈ (of a).states ((of a).component s) ↔ t ∈ [s] := by
    intro t
    rw [mem_states hc, List.mem_singleton]
    constructor
    · rintro ⟨ht, hcomp⟩
      obtain ⟨hts, hst⟩ := (numberOf_eq_iff ht hs).1 hcomp
      obtain ⟨places, way, hway⟩ := (reaches_iff hs).1 hts
      obtain ⟨others, back, hback⟩ := (reaches_iff ht).1 hst
      obtain ⟨rfl, -⟩ := List.append_eq_nil_iff.1 (acyclic (hway.append hback))
      cases hway.1
      rfl
    · rintro rfl
      exact ⟨hs, rfl⟩
  have hnodup : ((of a).states ((of a).component s)).Nodup := by
    rw [states_eq hc]
    exact List.nodup_range.filter _
  exact List.perm_singleton.1 ((List.perm_ext_iff_of_nodup hnodup (List.nodup_singleton s)).2 hmem)

variable [Weight W]

/-- Epsilon arcs lead to lower components. -/
theorem component_lt_of_mem (wf : a.WellFormed) (acyclic : a.EpsilonAcyclic) (harc : arc ∈ arcs a s) :
    (of a).component arc.target < (of a).component s := by
  have hne := (epsilonAcyclic_iff wf.target_lt).1 acyclic s (lt_size_of_mem (mem_arcs.1 harc).1) arc harc
  exact lt_of_le_of_ne (component_le wf harc) hne.symm

/-- All epsilon arcs of a state leave its component. -/
theorem crossings_component (wf : a.WellFormed) (acyclic : a.EpsilonAcyclic) (hs : s < a.size) :
    (of a).crossings ((of a).component s) = (arcs a s).map fun arc => ((of a).component arc.target, arc.weight) := by
  have hcross : ∀ arc ∈ arcs a s, (if (of a).component arc.target = (of a).component s then none
      else some ((of a).component arc.target, arc.weight)) = some ((of a).component arc.target, arc.weight) := by
    intro arc harc
    exact if_neg (component_lt_of_mem wf acyclic harc).ne
  rw [crossings, states_component acyclic hs, List.flatMap_singleton]
  exact (List.filterMap_congr hcross).trans (congrFun List.filterMap_eq_map _)

end EpsilonGraph

/-! ### Sums that are passed on -/

namespace EpsilonGraph

variable [Weight W] [LawfulSemiring W] {a : Automaton W} {g : EpsilonGraph W} {s root : Nat}

/-- A sum that may be missing; it is zero then. -/
def orZero (w : Option W) : W := w.getD 0

theorem orZero_plus (old : Option W) (w : W) : orZero (plus old w) = orZero old + w := by
  cases old with
  | none => exact (zero_add w).symm
  | some old => rfl

theorem orZero_foldl_plus (old : Option W) (weights : List W) :
    orZero (weights.foldl plus old) = orZero old + weights.sum := by
  induction weights generalizing old with
  | nil => exact (add_zero _).symm
  | cons w weights ih => rw [List.foldl_cons, ih, orZero_plus, List.sum_cons, add_assoc]

/-- What a component passes on, counted with what its receivers lead to. -/
theorem sum_passed {source : Nat} (hlower : ∀ x ∈ g.crossings source, x.1 < source) (distances : Array (Option W))
    (h : Nat → W) :
    ∑ c ∈ Finset.range source, (g.passed distances source c).sum * h c =
      orZero (distances.getD source none) * ((g.crossings source).map fun x => x.2 * h x.1).sum := by
  unfold passed
  cases distances.getD source none with
  | none => simp [orZero]
  | some d =>
    dsimp only [orZero, Option.getD_some]
    generalize g.crossings source = crossings at hlower ⊢
    induction crossings with
    | nil => simp
    | cons x crossings ih =>
      obtain ⟨hx, hlower⟩ := List.forall_mem_cons.1 hlower
      have hsplit : ∀ c, ((x :: crossings).filterMap fun x => if x.1 = c then some (d * x.2) else none).sum =
          (if x.1 = c then d * x.2 else 0) +
            (crossings.filterMap fun x => if x.1 = c then some (d * x.2) else none).sum := by
        intro c
        by_cases hc : x.1 = c
        · simp [hc]
        · simp [hc]
      have hfirst : ∑ c ∈ Finset.range source, (if x.1 = c then d * x.2 else 0) * h c = d * (x.2 * h x.1) := by
        simp only [ite_mul, zero_mul]
        rw [Finset.sum_ite_eq, if_pos (Finset.mem_range.2 hx), mul_assoc]
      simp only [hsplit, add_mul]
      rw [Finset.sum_add_distrib, hfirst, ih hlower, List.map_cons, List.sum_cons, mul_add]

/-- Once all components below a bound have passed on their sums, each of them has to be counted only with what it leads
to without a crossing. -/
theorem sum_foldl_pass {h own : Nat → W} {bound : Nat}
    (hlower : ∀ source < bound, ∀ x ∈ g.crossings source, x.1 < source)
    (heq : ∀ c < bound, h c = own c + ((g.crossings c).map fun x => x.2 * h x.1).sum)
    (distances : Array (Option W)) (hsize : bound ≤ distances.size) :
    ∑ c ∈ Finset.range bound, orZero (((List.range bound).reverse.foldl g.pass distances).getD c none) * own c =
      ∑ c ∈ Finset.range bound, orZero (distances.getD c none) * h c := by
  induction bound generalizing distances with
  | zero => rfl
  | succ n ih =>
    have hrange : (List.range (n + 1)).reverse = n :: (List.range n).reverse := by
      rw [List.range_succ, List.reverse_append]
      rfl
    have hbelow := hlower n n.lt_succ_self
    have hlower := fun source hs => hlower source (Nat.lt_succ_of_lt hs)
    have hsize' : (g.pass distances n).size = distances.size := (getD_pass g distances n 0).1
    -- the component at the bound has its sum already
    have hkeep : ((List.range n).reverse.foldl g.pass (g.pass distances n)).getD n none = distances.getD n none := by
      rw [(getD_foldl_pass hlower (g.pass distances n)).2.1 n (by omega) le_rfl, (getD_pass g distances n n).2 (by omega),
        passed_eq_nil distances hbelow le_rfl]
      rfl
    have hpass : ∀ c ∈ Finset.range n, orZero ((g.pass distances n).getD c none) * h c =
        orZero (distances.getD c none) * h c + (g.passed distances n c).sum * h c := by
      intro c hc
      have hc := Finset.mem_range.1 hc
      rw [(getD_pass g distances n c).2 (by omega), orZero_foldl_plus, add_mul]
    rw [hrange, List.foldl_cons, Finset.sum_range_succ, hkeep,
      ih hlower (fun c hc => heq c (Nat.lt_succ_of_lt hc)) (g.pass distances n) (by omega), Finset.sum_congr rfl hpass,
      Finset.sum_add_distrib, sum_passed hbelow, Finset.sum_range_succ, heq n n.lt_succ_self, mul_add, add_assoc]
    congr 1
    exact add_comm _ _

/-- What the states of a component lead to. -/
def overStates (graph : EpsilonGraph W) (f : Nat → W) (c : Nat) : W := ((graph.states c).map f).sum

theorem overStates_component (acyclic : a.EpsilonAcyclic) (hs : s < a.size) (f : Nat → W) :
    (of a).overStates f ((of a).component s) = f s := by
  rw [overStates, states_component acyclic hs]
  exact List.sum_singleton

/-- The closure of a component has the states of each component with its sum. -/
theorem sum_closure_eq (graph : EpsilonGraph W) (own : Nat → W) (root : Nat) :
    ((graph.closure root).map fun x => x.2 * own x.1).sum =
      ∑ c ∈ Finset.range (root + 1), orZero ((graph.distances root).getD c none) * graph.overStates own c := by
  rw [closure, List.map_flatMap, List.flatMap, List.sum_flatten, List.map_map, List.map_reverse, List.sum_reverse]
  refine congrArg List.sum (List.map_congr_left fun c _ => ?_)
  dsimp only [Function.comp_apply]
  cases (graph.distances root).getD c none with
  | none => exact (zero_mul _).symm
  | some d =>
    rw [orZero, Option.getD_some, overStates, ← List.sum_map_mul_left]
    simp only [List.map_map]
    rfl

/-- The closure of a state, counted with what its states lead to without an epsilon arc at first, is all that the state
leads to. -/
theorem sum_closure (wf : a.WellFormed) (acyclic : a.EpsilonAcyclic) {h own : Nat → W}
    (heq : ∀ s < a.size, h s = own s + ((arcs a s).map fun arc => arc.weight * h arc.target).sum) (hs : s < a.size) :
    (((of a).closure ((of a).component s)).map fun x => x.2 * own x.1).sum = h s := by
  have hroot := component_lt (a := a) hs
  have hcount : ∀ c < (of a).component s + 1, (of a).overStates h c =
      (of a).overStates own c + (((of a).crossings c).map fun x => x.2 * (of a).overStates h x.1).sum := by
    intro c hc
    obtain ⟨t, ht, rfl⟩ := exists_numberOf_eq (hc.trans_le hroot)
    change (of a).overStates h ((of a).component t) = (of a).overStates own ((of a).component t) +
      (((of a).crossings ((of a).component t)).map fun x => x.2 * (of a).overStates h x.1).sum
    rw [overStates_component acyclic ht, overStates_component acyclic ht, crossings_component wf acyclic ht, heq t ht,
      List.map_map]
    congr 2
    refine List.map_congr_left fun arc harc => ?_
    exact congrArg (arc.weight * ·) (overStates_component acyclic (wf.target_lt (mem_arcs.1 harc).1) h).symm
  have hlower : ∀ source < (of a).component s + 1, ∀ x ∈ (of a).crossings source, x.1 < source :=
    fun source hsource x => lt_of_mem_crossings wf (hsource.trans_le hroot)
  have hpass := sum_foldl_pass hlower hcount
    ((Array.replicate (of a).components.count none).setIfInBounds ((of a).component s) (some 1)) (by simpa using hroot)
  refine (sum_closure_eq _ own _).trans (hpass.trans ?_)
  have hone : ∀ c ∈ Finset.range ((of a).component s + 1),
      orZero (((Array.replicate (of a).components.count (none : Option W)).setIfInBounds ((of a).component s)
        (some 1)).getD c none) * (of a).overStates h c =
      if c = (of a).component s then (of a).overStates h c else 0 := by
    intro c hc
    rw [getD_initial hroot ((Finset.mem_range.1 hc).trans_le hroot)]
    split
    · exact one_mul _
    · exact zero_mul _
  rw [Finset.sum_congr rfl hone, Finset.sum_ite_eq' , if_pos (Finset.self_mem_range_succ _),
    overStates_component acyclic hs]

/-! ### Replacements -/

/-- The other arcs of a state. -/
def others (a : Automaton W) (s : Nat) : List (Arc W) := (a.arcsAt s).toList.filter fun arc => !arc.isEpsilon

theorem sum_arcsAt (a : Automaton W) (s : Nat) (f : Arc W → W) :
    ((a.arcsAt s).toList.map f).sum = ((others a s).map f).sum + ((arcs a s).map f).sum := by
  have hperm := (List.filter_append_perm (fun arc : Arc W => arc.isEpsilon) (a.arcsAt s).toList).map f
  rw [List.map_append] at hperm
  rw [← hperm.sum_eq, List.sum_append, add_comm]
  rfl

/-- The arcs of a replacement, counted with what comes after them. What does not count is left out, and would add
nothing. -/
theorem sum_arcs_replacement (graph : EpsilonGraph W) (root : Nat) (after : Arc W → W)
    (hafter : ∀ (arc : Arc W) (w : W), after { arc with weight := w } = after arc) :
    ((graph.replacement root).arcs.toList.map fun arc => arc.weight * after arc).sum =
      ((graph.closure root).map fun x =>
        x.2 * ((others graph.automaton x.1).map fun arc => arc.weight * after arc).sum).sum := by
  have hstate : ∀ (d : W) (arcs : List (Arc W)),
      ((arcs.filterMap fun arc => if arc.isEpsilon || isZero (d * arc.weight) then none
        else some { arc with weight := d * arc.weight }).map fun arc => arc.weight * after arc).sum =
      d * ((arcs.filter fun arc => !arc.isEpsilon).map fun arc => arc.weight * after arc).sum := by
    intro d arcs
    induction arcs with
    | nil => exact (mul_zero d).symm
    | cons arc arcs ih =>
      cases he : arc.isEpsilon with
      | true => rw [List.filterMap_cons_none (by simp [he]), ih, List.filter_cons_of_neg (by simp [he])]
      | false =>
        rw [List.filter_cons_of_pos (by simp [he]), List.map_cons, List.sum_cons, mul_add, ← mul_assoc]
        cases hz : isZero (d * arc.weight) with
        | true =>
          rw [List.filterMap_cons_none (by simp [hz]), ih, (LawfulSemiring.isZero_iff _).1 hz, zero_mul, zero_add]
        | false =>
          have hkept : (if (arc.isEpsilon || isZero (d * arc.weight)) = true then none
              else some { arc with weight := d * arc.weight }) = some { arc with weight := d * arc.weight } :=
            if_neg (by simp [he, hz])
          rw [List.filterMap_cons, hkept]
          dsimp only
          rw [List.map_cons, List.sum_cons, ih, hafter]
  rw [replacement]
  simp only [List.map_flatMap]
  rw [List.flatMap, List.sum_flatten, List.map_map]
  exact congrArg List.sum (List.map_congr_left fun x _ => hstate x.2 _)

theorem orZero_final_replacement (graph : EpsilonGraph W) (root : Nat) :
    orZero (graph.replacement root).final =
      ((graph.closure root).map fun x => x.2 * orZero (graph.automaton.final? x.1)).sum := by
  rw [final_replacement, orZero_foldl_plus, finals]
  refine (zero_add _).trans ?_
  induction graph.closure root with
  | nil => rfl
  | cons x closure ih =>
    cases hfinal : graph.automaton.final? x.1 with
    | none => simp [hfinal, ih, orZero]
    | some final => simp [hfinal, ih, orZero]

end EpsilonGraph

namespace Automaton

variable [Weight W] [LawfulSemiring W] {a : Automaton W} {s : Nat}

theorem orZero_final?_bypass (hs : s < a.size) :
    orZero (a.bypass.final? s) = orZero ((of a).replacement ((of a).component s)).final := by
  cases hfinal : a.bypass.final? s with
  | some weight => exact ((final?_bypass hs).1 hfinal).2.symm
  | none =>
    by_contra hne
    have hzero : isZero (orZero ((of a).replacement ((of a).component s)).final) = false := by
      rw [← Bool.not_eq_true, LawfulSemiring.isZero_iff]
      exact Ne.symm hne
    cases hfinal.symm.trans ((final?_bypass hs).2 ⟨hzero, rfl⟩)

/-- What a state leads to without an epsilon arc at first. -/
def sumBefore (a : Automaton W) (sums : List (Label × Label) → Nat → W) (labels : List (Label × Label)) (s : Nat) : W :=
  a.ownWeight labels s + ((others a s).map fun arc => arc.weight * sumAfter sums labels arc).sum

/-- If what comes after the other arcs has the same sums, the states have. -/
theorem sums_bypass_of_after (wf : a.WellFormed) (acyclic : a.EpsilonAcyclic)
    {sums sums' : List (Label × Label) → Nat → W}
    (hsums : ∀ labels s, (a.startingAt s).PathSum labels (sums labels s))
    (hsums' : ∀ labels s, (a.bypass.startingAt s).PathSum labels (sums' labels s)) {labels : List (Label × Label)}
    (hafter : ∀ {s arc}, arc ∈ others a s → sumAfter sums' labels arc = sumAfter sums labels arc) (hs : s < a.size) :
    sums' labels s = sums labels s := by
  have hbefore : ∀ s < a.size, sums labels s =
      a.sumBefore sums labels s + ((arcs a s).map fun arc => arc.weight * sums labels arc.target).sum := by
    intro s _
    rw [pathSum_eq hsums, sum_arcsAt, ← add_assoc]
    refine congrArg (a.sumBefore sums labels s + List.sum ·) (List.map_congr_left fun arc harc => ?_)
    rw [sumAfter, left?_of_epsilon (mem_arcs.1 harc).2]
    rfl
  have hown : a.bypass.ownWeight labels s =
      (((of a).closure ((of a).component s)).map fun x => x.2 * a.ownWeight labels x.1).sum := by
    unfold ownWeight
    split
    · exact (orZero_final?_bypass hs).trans (orZero_final_replacement _ _)
    · simp
  have harcs := sum_arcs_replacement (of a) ((of a).component s) (sumAfter sums' labels) fun _ _ => rfl
  calc
    sums' labels s
      = (((of a).closure ((of a).component s)).map fun x => x.2 * a.ownWeight labels x.1).sum +
          (((of a).closure ((of a).component s)).map fun x =>
            x.2 * ((others a x.1).map fun arc => arc.weight * sumAfter sums' labels arc).sum).sum := by
        rw [pathSum_eq hsums', hown, arcsAt_bypass hs]
        exact congrArg _ harcs
    _ = (((of a).closure ((of a).component s)).map fun x => x.2 * a.sumBefore sums labels x.1).sum := by
        rw [← List.sum_map_add]
        refine congrArg List.sum (List.map_congr_left fun x _ => ?_)
        rw [sumBefore, mul_add]
        refine congrArg (x.2 * a.ownWeight labels x.1 + x.2 * List.sum ·) (List.map_congr_left fun arc harc => ?_)
        rw [hafter harc]
    _ = sums labels s := sum_closure wf acyclic hbefore hs

/-- The states lead to the same sums after they have been replaced. -/
theorem sums_bypass (wf : a.WellFormed) (acyclic : a.EpsilonAcyclic) {sums sums' : List (Label × Label) → Nat → W}
    (hsums : ∀ labels s, (a.startingAt s).PathSum labels (sums labels s))
    (hsums' : ∀ labels s, (a.bypass.startingAt s).PathSum labels (sums' labels s)) (labels : List (Label × Label))
    {s : Nat} (hs : s < a.size) : sums' labels s = sums labels s := by
  refine sums_bypass_of_after wf acyclic hsums hsums' (fun {t arc} harc => sumAfter_congr fun rest hleft => ?_) hs
  obtain ⟨hmem, he⟩ := List.mem_filter.1 harc
  rcases eq_or_length_lt_of_left? hleft with ⟨hepsilon, -⟩ | hlt
  · rw [hepsilon] at he
    cases he
  · exact sums_bypass wf acyclic hsums hsums' rest (wf.target_lt (Array.mem_toList_iff.1 hmem))
termination_by labels.length

/-- The paths that carry some label pairs have a sum, which is the same after all states have been replaced. -/
theorem exists_pathSum_bypass (wf : a.WellFormed) (acyclic : a.EpsilonAcyclic) (labels : List (Label × Label)) :
    ∃ w, a.PathSum labels w ∧ a.bypass.PathSum labels w := by
  cases hstart : a.start with
  | none => exact ⟨0, pathSum_of_start_eq_none hstart labels, pathSum_of_start_eq_none (a := a.bypass) hstart labels⟩
  | some s =>
    have hrank : ∀ {s arc}, arc ∈ a.arcsAt s → arc.isEpsilon = true →
        (of a).component arc.target < (of a).component s :=
      fun hmem he => component_lt_of_mem wf acyclic (mem_arcs.2 ⟨hmem, he⟩)
    choose sums hsums using exists_pathSum (a := a) (of a).component hrank
    choose sums' hsums' using exists_pathSum (a := a.bypass) (fun _ => 0) fun hmem he => by
      rw [isEpsilon_bypass hmem] at he
      cases he
    refine ⟨sums labels s, ?_, ?_⟩
    · rw [← startingAt_eq hstart]
      exact hsums labels s
    · rw [← startingAt_eq (a := a.bypass) hstart, ← sums_bypass wf acyclic hsums hsums' labels (wf.start_lt hstart)]
      exact hsums' labels s

variable {D : Type} [Tolerance W D]

/-- If epsilon arcs form no cycles, epsilon removal succeeds and keeps, for all label pairs, the sum of the weights of
the accepting paths that carry them. Arrays that are shared by all components serve it. -/
theorem exists_pathSum_removeEpsilons (wf : a.WellFormed) (acyclic : a.EpsilonAcyclic) (config : EpsilonRemoval D) :
    ∃ b, Edit.removeEpsilons config a = .ok () b ∧ Edit.sweepEpsilons config a = .ok () b ∧
      ∀ labels : List (Label × Label), ∃ w, a.PathSum labels w ∧ b.PathSum labels w := by
  rw [Edit.sweepEpsilons_eq wf]
  have hcycle : (EpsilonGraph.of a).weightedCycle? config.bound = none := by
    refine (weightedCycle?_eq_none_iff wf.target_lt).2 ?_
    rintro s ⟨arc, hmem, he, -, places, back, hback⟩
    obtain ⟨i, hi⟩ := Array.getElem?_of_mem hmem
    cases acyclic ((EpsilonWay.single hi he).append hback)
  by_cases heps : a.anyArc (·.isEpsilon) = true
  · have hremove := Edit.removeEpsilons_eq wf.target_lt heps hcycle
    refine ⟨_, hremove, hremove, ?_⟩
    intro labels
    obtain ⟨w, hw, hw'⟩ := exists_pathSum_bypass wf acyclic labels
    refine ⟨w, hw, ?_⟩
    cases config.trim with
    | false => exact hw'
    | true =>
      obtain ⟨e, he⟩ := exists_equiv_trim (wellFormed_bypass wf).start_lt
      exact hw'.congr e he
  · have hkeep := Edit.removeEpsilons_of_no_epsilon (by simpa using heps) config
    refine ⟨a, hkeep, hkeep, ?_⟩
    intro labels
    obtain ⟨w, hw, -⟩ := exists_pathSum_bypass wf acyclic labels
    exact ⟨w, hw, hw⟩

/-- Two epsilon arcs side by side to a state that two further ways lead on from, and an epsilon arc past it. -/
def diamond : Automaton (Mass ℕ) where
  states := #[{ arcs := #[⟨0, 0, ⟨2⟩, 1⟩, ⟨0, 0, ⟨2⟩, 1⟩, ⟨0, 0, ⟨3⟩, 3⟩] },
    { arcs := #[⟨0, 0, ⟨1⟩, 2⟩, ⟨0, 0, ⟨5⟩, 3⟩, ⟨1, 2, ⟨1⟩, 1⟩] },
    { arcs := #[⟨0, 0, ⟨2⟩, 3⟩, ⟨1, 2, ⟨1⟩, 0⟩] },
    { arcs := #[⟨1, 2, ⟨7⟩, 0⟩], final := some ⟨3⟩ }]
  start := some 0

theorem exists_pathSum_removeEpsilons_diamond : ∃ b, Edit.removeEpsilons ⟨true, (0 : ℕ)⟩ diamond = .ok () b ∧
    Edit.sweepEpsilons ⟨true, (0 : ℕ)⟩ diamond = .ok () b ∧
    ∀ labels : List (Label × Label), ∃ w, diamond.PathSum labels w ∧ b.PathSum labels w := by
  have wf : diamond.WellFormed := by decide
  exact exists_pathSum_removeEpsilons wf ((epsilonAcyclic_iff wf.target_lt).2 (by decide +kernel)) ⟨true, 0⟩

end Automaton

end Transducer
