import Mathlib
import Transducer.Proofs.Automaton.Trim
import Transducer.Proofs.Graph.Component
import Transducer.Proofs.Matching.Exact
import Transducer.Proofs.Property.Cache

/-!
# What the properties mean

`Satisfies` says what each property is, by the arcs and the ways of an automaton and by no search. The
decisions find exactly that (`decides_iff`).

No arc has to lead to a state that exists: an arc that does not is part of no way to a final state or back
to where it came from.
-/

namespace Transducer.Automaton

open Transducer.Graph Relation

variable {W : Type} {a : Automaton W} {s t : Nat}

/-- No two arcs have one label on the given side. -/
def LabelsDiffer (side : Side) (arcs : Array (Arc W)) : Prop :=
  ∀ (i j : Nat) (x y : Arc W), arcs[i]? = some x → arcs[j]? = some y → x.label side = y.label side → i = j

/-- The labels of the arcs do not decrease on the given side. -/
def LabelsAscend (side : Side) (arcs : Array (Arc W)) : Prop :=
  ∀ (i j : Nat) (x y : Arc W), i ≤ j → arcs[i]? = some x → arcs[j]? = some y →
    x.label side ≤ y.label side

/-- What each property says of an automaton. -/
def Satisfies [Weight W] (a : Automaton W) : Property → Prop
  | .acceptor => ∀ s, ∀ arc ∈ a.arcsAt s, arc.ilabel = arc.olabel
  | .inputDeterministic => ∀ s, LabelsDiffer .input (a.arcsAt s)
  | .outputDeterministic => ∀ s, LabelsDiffer .output (a.arcsAt s)
  | .epsilons => ∃ s, ∃ arc ∈ a.arcsAt s, arc.ilabel = epsilon ∧ arc.olabel = epsilon
  | .inputEpsilons => ∃ s, ∃ arc ∈ a.arcsAt s, arc.ilabel = epsilon
  | .outputEpsilons => ∃ s, ∃ arc ∈ a.arcsAt s, arc.olabel = epsilon
  | .inputSorted => ∀ s, LabelsAscend .input (a.arcsAt s)
  | .outputSorted => ∀ s, LabelsAscend .output (a.arcsAt s)
  | .weighted =>
    (∃ s, ∃ arc ∈ a.arcsAt s, isOne arc.weight = false ∧ isZero arc.weight = false) ∨
      ∃ s weight, a.final? s = some weight ∧ isOne weight = false
  | .cyclic => ∃ s places arcs, places ≠ [] ∧ a.Way s places arcs s
  | .accessible => ∀ s < a.size, ∃ start places arcs, a.start = some start ∧ a.Way start places arcs s
  | .coaccessible => ∀ s < a.size, ∃ t places arcs, a.Way s places arcs t ∧ (a.final? t).isSome = true

/-! ### Labels and weights -/

theorem allArcs_iff {p : Arc W → Bool} : a.allArcs p = true ↔ ∀ s, ∀ arc ∈ a.arcsAt s, p arc = true := by
  rw [forall_arcsAt_iff (P := fun arcs => ∀ arc ∈ arcs, p arc = true) (by simp), allArcs,
    Array.all_eq_true_iff_forall_mem]
  simp only [Array.all_eq_true_iff_forall_mem]

theorem anyArc_iff {p : Arc W → Bool} : a.anyArc p = true ↔ ∃ s, ∃ arc ∈ a.arcsAt s, p arc = true := by
  have h : a.anyArc p = !a.allArcs fun arc => !p arc := by
    simp [anyArc, allArcs, Array.any_eq_not_all_not]
  rw [h, Bool.not_eq_true', ← Bool.not_eq_true, allArcs_iff]
  simp

theorem nodup_labels_iff {side : Side} {arcs : Array (Arc W)} :
    (arcs.toList.map (·.label side)).Nodup ↔ LabelsDiffer side arcs := by
  rw [List.nodup_iff_getElem?_ne_getElem?, LabelsDiffer]
  simp only [List.getElem?_map, Array.getElem?_toList, List.length_map, Array.length_toList]
  constructor
  · intro h i j x y hi hj heq
    have hle : ∀ {i j : Nat} {x y : Arc W}, arcs[i]? = some x → arcs[j]? = some y →
        x.label side = y.label side → ¬ i < j := by
      intro i j x y hi hj heq hij
      refine h i j hij (Array.getElem?_eq_some_iff.1 hj).1 ?_
      rw [hi, hj, Option.map_some, Option.map_some, heq]
    exact le_antisymm (Nat.le_of_not_lt (hle hj hi heq.symm)) (Nat.le_of_not_lt (hle hi hj heq))
  · intro h i j hij hj heq
    have hx : arcs[i]? = some arcs[i] := Array.getElem?_eq_getElem (by omega)
    have hy : arcs[j]? = some arcs[j] := Array.getElem?_eq_getElem hj
    rw [hx, hy, Option.map_some, Option.map_some] at heq
    exact hij.ne (h i j _ _ hx hy (Option.some.inj heq))

theorem nondecreasing_labels_iff {side : Side} {arcs : Array (Arc W)} :
    nondecreasing (arcs.toList.map (·.label side)) = true ↔ LabelsAscend side arcs := by
  rw [nondecreasing_iff, List.pairwise_map, LabelsAscend]
  simp only [← Array.getElem?_toList, List.pairwise_iff_getElem]
  constructor
  · intro h i j x y hij hx hy
    obtain ⟨hi, rfl⟩ := List.getElem?_eq_some_iff.1 hx
    obtain ⟨hj, rfl⟩ := List.getElem?_eq_some_iff.1 hy
    rcases hij.lt_or_eq with hij | rfl
    · exact h i j hi hj hij
    · exact UInt32.le_refl _
  · intro h i j hi hj hij
    exact h i j _ _ hij.le (List.getElem?_eq_getElem hi) (List.getElem?_eq_getElem hj)

theorem isDeterministic_iff {side : Side} :
    a.isDeterministic side = true ↔ ∀ s, LabelsDiffer side (a.arcsAt s) := by
  rw [forall_arcsAt_iff (by simp [LabelsDiffer]), isDeterministic, Array.all_eq_true_iff_forall_mem]
  exact forall₂_congr fun state _ => decide_eq_true_iff.trans nodup_labels_iff

theorem isSorted_iff {side : Side} : a.isSorted side = true ↔ ∀ s, LabelsAscend side (a.arcsAt s) := by
  rw [forall_arcsAt_iff (by simp [LabelsAscend]), isSorted, Array.all_eq_true_iff_forall_mem]
  exact forall₂_congr fun state _ => nondecreasing_labels_iff

theorem any_final_iff {p : W → Bool} : (a.states.any fun state => state.final.any p) = true ↔
    ∃ s weight, a.final? s = some weight ∧ p weight = true := by
  rw [Array.any_eq_true']
  constructor
  · rintro ⟨state, hstate, h⟩
    obtain ⟨s, hs⟩ := Array.getElem?_of_mem hstate
    obtain ⟨weight, hweight, hp⟩ := (Option.any_eq_true ..).1 h
    exact ⟨s, weight, by rw [final?, hs]; exact hweight, hp⟩
  · rintro ⟨s, weight, h, hp⟩
    obtain ⟨state, hs, hweight⟩ := Option.bind_eq_some_iff.1 h
    exact ⟨state, Array.mem_of_getElem? hs, by rw [hweight]; exact hp⟩

/-! ### Ways -/

/-- A state that exists is reached in the graph of the arcs if some way leads there. -/
theorem reaches_iff_exists_way (ht : t < a.size) :
    Reaches a.successors a.size s t ↔ ∃ places arcs, a.Way s places arcs t := by
  constructor
  · intro h
    induction h using ReflTransGen.head_induction_on with
    | refl => exact ⟨[], [], .nil t⟩
    | head e _ ih =>
      obtain ⟨arc, harc, rfl, -⟩ := edge_successors.1 e
      obtain ⟨i, hi⟩ := Array.getElem?_of_mem harc
      obtain ⟨places, arcs, hway⟩ := ih
      exact ⟨i :: places, arc :: arcs, .cons hi hway⟩
  · rintro ⟨places, arcs, h⟩
    exact h.reaches ht

/-- An arc that stays in its component is one from whose target its state is reached. -/
theorem isCyclic_iff :
    a.isCyclic = true ↔ ∃ s t, Edge a.successors a.size s t ∧ Reaches a.successors a.size t s := by
  have hnumber : ∀ {v : Nat}, v < a.size → (components a.successors a.size).number[v]? =
      some (numberOf a.successors a.size v) := by
    intro v hv
    have hlt : v < (components a.successors a.size).number.size := size_number.symm ▸ hv
    rw [numberOf, Array.getD_eq_getD_getElem?, Array.getElem?_eq_getElem hlt, Option.getD_some]
  simp only [isCyclic, List.any_eq_true, List.mem_range, beq_iff_eq]
  constructor
  · rintro ⟨s, hs, t, ht, heq⟩
    have e : Edge a.successors a.size s t := ⟨ht, by simpa using (List.mem_filter.1 ht).2⟩
    rw [hnumber hs, hnumber e.2, Option.some_inj, numberOf_eq_iff hs e.2] at heq
    exact ⟨s, t, e, heq.2⟩
  · rintro ⟨s, t, e, h⟩
    obtain ⟨arc, harc, -, -⟩ := edge_successors.1 e
    have hs := lt_size_of_mem harc
    refine ⟨s, hs, t, e.1, ?_⟩
    rw [hnumber hs, hnumber e.2, Option.some_inj, numberOf_eq_iff hs e.2]
    exact ⟨.single e, h⟩

theorem exists_round_way_iff :
    (∃ s places arcs, places ≠ [] ∧ a.Way s places arcs s) ↔
      ∃ s t, Edge a.successors a.size s t ∧ Reaches a.successors a.size t s := by
  constructor
  · rintro ⟨s, places, arcs, hne, h⟩
    cases h with
    | nil => exact absurd rfl hne
    | cons hi h =>
      have harc := Array.mem_of_getElem? hi
      have hs := lt_size_of_mem harc
      exact ⟨s, _, edge_successors.2 ⟨_, harc, rfl, h.lt_size_of_last hs⟩,
        (reaches_iff_exists_way hs).2 ⟨_, _, h⟩⟩
  · rintro ⟨s, t, e, h⟩
    obtain ⟨arc, harc, rfl, -⟩ := edge_successors.1 e
    obtain ⟨i, hi⟩ := Array.getElem?_of_mem harc
    obtain ⟨places, arcs, hway⟩ := (reaches_iff_exists_way (lt_size_of_mem harc)).1 h
    exact ⟨s, i :: places, arc :: arcs, List.cons_ne_nil _ _, .cons hi hway⟩

/-- All vertices are marked if each one is. -/
theorem all_id_iff {marks : Array Bool} :
    marks.all id = true ↔ ∀ s < marks.size, marks.getD s false = true := by
  rw [Array.all_eq_true]
  refine forall₂_congr fun s hs => ?_
  rw [Array.getD_eq_getD_getElem?, Array.getElem?_eq_getElem hs, Option.getD_some, id]

theorem all_accessible_iff : a.accessible.all id = true ↔
    ∀ s < a.size, ∃ start places arcs, a.start = some start ∧ a.Way start places arcs s := by
  rw [all_id_iff, accessible, size_reachable, ← accessible]
  refine forall₂_congr fun s hs => ?_
  rw [accessible_iff]
  constructor
  · rintro ⟨start, hstart, -, h⟩
    obtain ⟨places, arcs, hway⟩ := (reaches_iff_exists_way hs).1 h
    exact ⟨start, places, arcs, hstart, hway⟩
  · rintro ⟨start, places, arcs, hstart, hway⟩
    exact ⟨start, hstart, hway.lt_size_of_last hs, (reaches_iff_exists_way hs).2 ⟨places, arcs, hway⟩⟩

theorem all_coaccessible_iff : a.coaccessible.all id = true ↔
    ∀ s < a.size, ∃ t places arcs, a.Way s places arcs t ∧ (a.final? t).isSome = true := by
  have hlt : ∀ {t : Nat}, (a.final? t).isSome = true → t < a.size := by
    intro t h
    by_contra hge
    rw [final?_eq_none (Nat.le_of_not_lt hge)] at h
    cases h
  rw [all_id_iff, coaccessible, size_reachable, ← coaccessible]
  refine forall₂_congr fun s hs => ?_
  rw [coaccessible_iff]
  constructor
  · rintro ⟨-, t, hfinal, h⟩
    obtain ⟨places, arcs, hway⟩ := (reaches_iff_exists_way (hlt hfinal)).1 h
    exact ⟨t, places, arcs, hway, hfinal⟩
  · rintro ⟨t, places, arcs, hway, hfinal⟩
    exact ⟨hs, t, hfinal, (reaches_iff_exists_way (hlt hfinal)).2 ⟨places, arcs, hway⟩⟩

/-! ### All properties -/

variable [Weight W]

/-- A decision finds out whether the property holds. -/
theorem decides_iff (p : Property) : a.decides p = true ↔ a.Satisfies p := by
  cases p with
  | acceptor => simp only [decides, allArcs_iff, beq_iff_eq, Satisfies]
  | inputDeterministic => exact isDeterministic_iff
  | outputDeterministic => exact isDeterministic_iff
  | epsilons => simp only [decides, anyArc_iff, Arc.isEpsilon, Bool.and_eq_true, beq_iff_eq, Satisfies]
  | inputEpsilons => simp only [decides, hasEpsilons, anyArc_iff, beq_iff_eq, Arc.label, Satisfies]
  | outputEpsilons => simp only [decides, hasEpsilons, anyArc_iff, beq_iff_eq, Arc.label, Satisfies]
  | inputSorted => exact isSorted_iff
  | outputSorted => exact isSorted_iff
  | weighted =>
    simp only [decides, isWeighted, Bool.or_eq_true, anyArc_iff, any_final_iff, Satisfies,
      Bool.and_eq_true, Bool.not_eq_true']
  | cyclic => exact isCyclic_iff.trans exists_round_way_iff.symm
  | accessible => exact all_accessible_iff
  | coaccessible => exact all_coaccessible_iff

end Transducer.Automaton
