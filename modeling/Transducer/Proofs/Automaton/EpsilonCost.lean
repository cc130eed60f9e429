import Mathlib
import Transducer.Proofs.Automaton.EpsilonGraph
import Transducer.Proofs.Weight.Exact

/-!
# Costs of epsilon ways

For exact costs the sums of an epsilon graph are minima: the closure of a state has every state that some
epsilon way of finite cost leads to, with the least cost of such a way. This needs that epsilon arcs on
cycles are free.

The sum of a component is not above the cost of any way there (`distance_le_of_way`), since it is not above
what the component before passes on, and it is the cost of some way (`exists_way_of_distance`), since it is
passed on by some component above.
-/

namespace Transducer

open Automaton EpsilonGraph Transducer.Graph

/-- Epsilon arcs that lie on a cycle of epsilon arcs are free. -/
def Automaton.FreeCycles {W : Type} [Weight W] (a : Automaton W) : Prop :=
  ∀ {s : Nat} {arc : Arc W}, arc ∈ a.arcsAt s → arc.isEpsilon = true →
    (∃ places arcs, a.EpsilonWay arc.target places arcs s) → arc.weight = 1

namespace ExactCost

variable {K : Type} [AddCommGroup K] [LinearOrder K]

theorem orTop_plus (old : Option (ExactCost K)) (v : ExactCost K) :
    orTop (plus old v) = min (orTop old) v.cost := by
  cases old with
  | none => exact (min_top_left _).symm
  | some old => exact cost_add old v

theorem le_orTop_foldl {x : WithTop K} {old : Option (ExactCost K)} {costs : List (ExactCost K)} :
    x ≤ orTop (costs.foldl plus old) ↔ x ≤ orTop old ∧ ∀ v ∈ costs, x ≤ v.cost := by
  induction costs generalizing old with
  | nil => simp
  | cons v costs ih =>
    rw [List.foldl_cons, ih, orTop_plus, le_min_iff, and_assoc, List.forall_mem_cons]

/-- A sum is one of its summands. -/
theorem orTop_foldl_mem (old : Option (ExactCost K)) (costs : List (ExactCost K)) :
    orTop (costs.foldl plus old) = orTop old ∨ ∃ v ∈ costs, orTop (costs.foldl plus old) = v.cost := by
  induction costs generalizing old with
  | nil => exact .inl rfl
  | cons v costs ih =>
    rw [List.foldl_cons]
    rcases ih (plus old v) with heq | ⟨w, hw, heq⟩
    · rw [orTop_plus] at heq
      rcases min_choice (orTop old) v.cost with hmin | hmin
      · exact .inl (heq.trans hmin)
      · exact .inr ⟨v, List.mem_cons_self, heq.trans hmin⟩
    · exact .inr ⟨w, List.mem_cons_of_mem _ hw, heq⟩

end ExactCost

open ExactCost

variable {K : Type} [LinearOrder K] [AddCommGroup K] {a : Automaton (ExactCost K)} {s t c root : Nat}

namespace EpsilonGraph

/-- The cost of the ways from one component to another. -/
def distance (a : Automaton (ExactCost K)) (root c : Nat) : WithTop K :=
  orTop (((of a).distances root).getD c none)

theorem mem_passed {distances : Array (Option (ExactCost K))} {source : Nat} {v : ExactCost K} :
    v ∈ (of a).passed distances source c ↔ ∃ d, distances.getD source none = some d ∧
      ∃ x ∈ (of a).crossings source, x.1 = c ∧ v = d * x.2 := by
  unfold passed
  cases distances.getD source none with
  | none => simp
  | some d =>
    simp only [List.mem_filterMap, Option.some.injEq, exists_eq_left']
    refine exists_congr fun x => and_congr_right fun _ => ?_
    by_cases h : x.1 = c
    · simp [h, eq_comm]
    · simp [h]

theorem distance_root (wf : a.WellFormed) (hroot : root < (of a).components.count) :
    distance a root root = 0 := by
  have hnil : ((List.range (root + 1)).reverse.flatMap fun source =>
      (of a).passed ((of a).distances root) source root) = [] := by
    refine List.flatMap_eq_nil_iff.2 ?_
    intro source hs
    have hs := List.mem_range.1 (List.mem_reverse.1 hs)
    exact passed_eq_nil _ (fun x hx => lt_of_mem_crossings wf (by omega) hx) (by omega)
  rw [distance, distances_eq wf hroot hroot, hnil, if_pos rfl]
  rfl

/-- The sum of a component is not above what another one passes on to it. -/
theorem distance_le (wf : a.WellFormed) (hroot : root < (of a).components.count) {source : Nat}
    (hs : source ≤ root) {x : Nat × ExactCost K} (hx : x ∈ (of a).crossings source) :
    distance a root x.1 ≤ distance a root source + x.2.cost := by
  have hlt := lt_of_mem_crossings wf (by omega) hx
  cases hd : ((of a).distances root).getD source none with
  | none =>
    rw [distance, distance, hd, orTop_none, WithTop.top_add]
    exact le_top
  | some d =>
    have hmem : d * x.2 ∈ (List.range (root + 1)).reverse.flatMap fun source =>
        (of a).passed ((of a).distances root) source x.1 := by
      refine List.mem_flatMap.2 ⟨source, by simpa using hs, mem_passed.2 ⟨d, hd, x, hx, rfl, rfl⟩⟩
    have hsum : distance a root x.1 ≤ orTop (((List.range (root + 1)).reverse.flatMap fun source =>
        (of a).passed ((of a).distances root) source x.1).foldl plus
          (if x.1 = root then some 1 else none)) := by
      rw [distance, distances_eq wf hroot (by omega)]
    have hle := (le_orTop_foldl.1 hsum).2 _ hmem
    rw [cost_mul] at hle
    have hsource : distance a root source = d.cost := by
      rw [distance, hd]
      rfl
    rwa [hsource]

/-- The sum of a component other than the first one has been passed on to it. -/
theorem exists_crossing_of_distance (wf : a.WellFormed) (hroot : root < (of a).components.count)
    (hc : c < (of a).components.count) (hne : c ≠ root) (hd : distance a root c ≠ ⊤) :
    ∃ source ≤ root, ∃ x ∈ (of a).crossings source, x.1 = c ∧
      distance a root c = distance a root source + x.2.cost := by
  have heq := distances_eq wf hroot hc
  rw [if_neg hne] at heq
  rcases orTop_foldl_mem none ((List.range (root + 1)).reverse.flatMap fun source =>
    (of a).passed ((of a).distances root) source c) with htop | ⟨v, hv, hmin⟩
  · rw [← heq] at htop
    exact absurd htop hd
  · rw [← heq] at hmin
    obtain ⟨source, hs, hv⟩ := List.mem_flatMap.1 hv
    obtain ⟨d, hd, x, hx, hxc, rfl⟩ := mem_passed.1 hv
    have hs := List.mem_range.1 (List.mem_reverse.1 hs)
    refine ⟨source, by omega, x, hx, hxc, hmin.trans ?_⟩
    rw [distance, hd, cost_mul, orTop_some]

/-! ### Ways and distances -/

/-- Epsilon arcs lie on a cycle if they stay in their component. -/
theorem freeCycles_iff (wf : a.WellFormed) : a.FreeCycles ↔ ∀ s < a.size, ∀ arc ∈ arcs a s,
    (of a).component arc.target = (of a).component s → arc.weight = 1 := by
  constructor
  · intro free s _ arc harc h
    obtain ⟨hmem, he⟩ := mem_arcs.1 harc
    exact free hmem he ((stays_iff wf.target_lt harc).1 h.symm)
  · intro h s arc hmem he hback
    have harc := mem_arcs.2 ⟨hmem, he⟩
    exact h s (lt_size_of_mem hmem) arc harc ((stays_iff wf.target_lt harc).2 hback).symm

/-- Within a component there is a free way from each state to each other. -/
theorem exists_free_way (wf : a.WellFormed) (free : a.FreeCycles) (hs : s < a.size) (ht : t < a.size)
    (h : (of a).component s = (of a).component t) :
    ∃ places arcs, a.EpsilonWay s places arcs t ∧ total arcs = 0 := by
  obtain ⟨hst, hts⟩ := (numberOf_eq_iff hs ht).1 h
  induction hst using Relation.ReflTransGen.head_induction_on with
  | refl => exact ⟨[], [], .nil t, rfl⟩
  | @head s u e hut ih =>
    obtain ⟨arc, harc, rfl⟩ := List.mem_map.1 e.1
    obtain ⟨hmem, he⟩ := mem_arcs.1 harc
    have hback : Reaches (targets a) a.size t arc.target := .tail hts e
    have hcomp : (of a).component arc.target = (of a).component t :=
      (numberOf_eq_iff e.2 ht).2 ⟨hut, hback⟩
    obtain ⟨places, arcs, hway, hcost⟩ := ih e.2 hcomp hback
    obtain ⟨i, hi⟩ := Array.getElem?_of_mem hmem
    refine ⟨_, _, (EpsilonWay.single hi he).append hway, ?_⟩
    rw [total_append, hcost, total_cons, (freeCycles_iff wf).1 free s hs arc harc (hcomp.trans h.symm), cost_one]
    simp

/-- A finite distance is what some epsilon way costs. -/
theorem exists_way_of_distance (wf : a.WellFormed) (free : a.FreeCycles) (hs : s < a.size)
    (ht : t < a.size) (hd : distance a ((of a).component s) ((of a).component t) ≠ ⊤) :
    ∃ places arcs, a.EpsilonWay s places arcs t ∧
      total arcs = distance a ((of a).component s) ((of a).component t) := by
  -- from the component of `s` downwards
  induction hgap : (of a).components.count - (of a).component t using Nat.strong_induction_on
    generalizing t with
  | _ gap ih =>
    have hroot := component_lt (a := a) hs
    have hc := component_lt (a := a) ht
    by_cases hcomp : (of a).component t = (of a).component s
    · obtain ⟨places, arcs, hway, hcost⟩ := exists_free_way wf free hs ht hcomp.symm
      exact ⟨places, arcs, hway, by rw [hcost, hcomp, distance_root wf hroot]⟩
    · obtain ⟨source, hsource, x, hx, hxc, heq⟩ := exists_crossing_of_distance wf hroot hc hcomp hd
      have hlower := lt_of_mem_crossings wf (by omega) hx
      obtain ⟨u, hu, arc, harc, -, rfl⟩ := mem_crossings.1 hx
      obtain ⟨hlt, rfl⟩ := (mem_states (by omega)).1 hu
      obtain ⟨hmem, he⟩ := mem_arcs.1 harc
      dsimp only at hxc hlower heq
      rw [heq] at hd
      obtain ⟨places, arcs, hway, hcost⟩ := ih _ (by omega) hlt (WithTop.add_ne_top.1 hd).1 rfl
      obtain ⟨i, hi⟩ := Array.getElem?_of_mem hmem
      obtain ⟨others, arcs', hway', hcost'⟩ := exists_free_way wf free (wf.target_lt hmem) ht hxc
      refine ⟨_, _, (hway.append (.single hi he)).append hway', ?_⟩
      rw [total_append, total_append, hcost, hcost', total_cons, total_nil, add_zero, add_zero, heq]

/-! ### Closures -/

/-- What the closure of a state has is the cost of some epsilon way. -/
theorem exists_way_of_mem_closure (wf : a.WellFormed) (free : a.FreeCycles) (hs : s < a.size)
    {v : ExactCost K} (h : (t, v) ∈ (of a).closure ((of a).component s)) (hv : v.cost ≠ ⊤) :
    ∃ places arcs, a.EpsilonWay s places arcs t ∧ total arcs = v.cost := by
  obtain ⟨ht, -, hd⟩ := (mem_closure (component_lt hs)).1 h
  have hdist : distance a ((of a).component s) ((of a).component t) = v.cost := by rw [distance, hd]; rfl
  rw [← hdist] at hv ⊢
  exact exists_way_of_distance wf free hs ht hv

variable [IsOrderedAddMonoid K]

/-- No epsilon way costs less than the distance. -/
theorem distance_le_of_way (wf : a.WellFormed) (free : a.FreeCycles)
    (hroot : root < (of a).components.count) {places : List Nat} {arcs : List (Arc (ExactCost K))}
    (hway : a.EpsilonWay s places arcs t) (hs : (of a).component s ≤ root) :
    distance a root ((of a).component t) ≤ distance a root ((of a).component s) + total arcs := by
  obtain ⟨hway, heps⟩ := hway
  induction hway with
  | nil s => rw [total_nil, add_zero]
  | @cons s i t arc places arcs hi _ ih =>
    have hmem : arc ∈ EpsilonGraph.arcs a s :=
      mem_arcs.2 ⟨Array.mem_of_getElem? hi, heps arc List.mem_cons_self⟩
    have hlt := lt_size_of_mem (mem_arcs.1 hmem).1
    have hle := component_le wf hmem
    have hrest := ih (hle.trans hs) (fun x hx => heps x (List.mem_cons_of_mem _ hx))
    have hstep : distance a root ((of a).component arc.target) ≤
        distance a root ((of a).component s) + arc.weight.cost := by
      by_cases hcomp : (of a).component arc.target = (of a).component s
      · rw [hcomp, (freeCycles_iff wf).1 free s hlt arc hmem hcomp, cost_one, add_zero]
      · exact distance_le wf hroot hs (mem_crossings.2
          ⟨s, (mem_states (component_lt hlt)).2 ⟨hlt, rfl⟩, arc, hmem, hcomp, rfl⟩)
    calc
      distance a root ((of a).component t)
        ≤ distance a root ((of a).component arc.target) + total arcs := hrest
      _ ≤ distance a root ((of a).component s) + arc.weight.cost + total arcs := by gcongr
      _ = distance a root ((of a).component s) + total (arc :: arcs) := by rw [total_cons, add_assoc]

/-- The closure of a state has every state that an epsilon way of finite cost leads to, with a cost that
is not above it. -/
theorem exists_mem_closure_of_way (wf : a.WellFormed) (free : a.FreeCycles) (hs : s < a.size)
    {places : List Nat} {arcs : List (Arc (ExactCost K))} (hway : a.EpsilonWay s places arcs t)
    (hfin : total arcs ≠ ⊤) :
    ∃ v, (t, v) ∈ (of a).closure ((of a).component s) ∧ v.cost ≤ total arcs := by
  have hroot := component_lt (a := a) hs
  have hle := distance_le_of_way wf free hroot hway le_rfl
  rw [distance_root wf hroot, zero_add] at hle
  have hcomp : (of a).component t ≤ (of a).component s :=
    numberOf_le_of_reaches ((reaches_iff (hway.1.lt_size wf hs)).2 ⟨places, arcs, hway⟩) hs
  cases hd : ((of a).distances ((of a).component s)).getD ((of a).component t) none with
  | none =>
    rw [distance, hd, orTop_none, top_le_iff] at hle
    exact absurd hle hfin
  | some v =>
    rw [distance, hd, orTop_some] at hle
    exact ⟨v, (mem_closure hroot).2 ⟨hway.1.lt_size wf hs, hcomp, hd⟩, hle⟩

end EpsilonGraph

end Transducer
