import Mathlib
import Transducer.Proofs.Automaton.Bypass
import Transducer.Proofs.Property.Meaning
import Transducer.Weight.Tropical

/-!
# What is left is useful

An automaton is `Trimmed` if each of its states lies on a way from the start to a final state. Trimming makes it so
(`trimmed_trim`): the ways on which a state is useful pass through useful states only, so they stay.

Epsilon removal leaves no epsilon arc. Where it has something to remove, it trims the automaton if that is asked for;
where it has not, it does nothing at all, and the automaton is trimmed afterwards only if it was before
(`trimmed_removeEpsilons_iff`). `island` has a useless state and no epsilon arc, and keeps both.
-/

namespace Transducer.Automaton

open Transducer.Graph

variable {W : Type} {a : Automaton W} {s t r : Nat} {places : List Nat} {arcs : List (Arc W)}

/-! ### Ways through useful states -/

theorem lt_size_of_isSome_final? (h : (a.final? t).isSome = true) : t < a.size := by
  obtain ⟨weight, hweight⟩ := Option.isSome_iff_exists.1 h
  exact lt_size_of_final? hweight

theorem useful_iff_exists_way : a.useful.getD s false = true ↔
    ∃ r places arcs t others arcs', a.start = some r ∧ a.Way r places arcs s ∧ a.Way s others arcs' t ∧
      (a.final? t).isSome = true := by
  rw [useful_iff]
  constructor
  · rintro ⟨⟨r, hstart, hlt, hrs⟩, t, hfinal, hst⟩
    have ht := lt_size_of_isSome_final? hfinal
    obtain ⟨others, arcs', hway'⟩ := (reaches_iff_exists_way ht).1 hst
    obtain ⟨places, arcs, hway⟩ := (reaches_iff_exists_way (hrs.lt_size hlt)).1 hrs
    exact ⟨r, places, arcs, t, others, arcs', hstart, hway, hway', hfinal⟩
  · rintro ⟨r, places, arcs, t, others, arcs', hstart, hway, hway', hfinal⟩
    have ht := lt_size_of_isSome_final? hfinal
    have hs := hway'.lt_size_of_last ht
    exact ⟨⟨r, hstart, hway.lt_size_of_last hs, (reaches_iff_exists_way hs).2 ⟨_, _, hway⟩⟩, t, hfinal,
      (reaches_iff_exists_way ht).2 ⟨_, _, hway'⟩⟩

theorem all_useful_iff : a.useful.all id = true ↔ ∀ s < a.size, a.useful.getD s false = true := by
  have hsize : a.useful.size = a.size := by
    simp [useful, accessible, coaccessible, size_reachable]
  rw [all_id_iff, hsize]

/-- A way from the start to a final state passes through useful states. -/
theorem Way.useful (hstart : a.start = some r) (h : a.Way r places arcs t) (hfinal : (a.final? t).isSome = true) :
    a.useful.getD r false = true ∧ ∀ arc ∈ arcs, staysAt (a.useful.getD · false) a.size arc = true := by
  refine ⟨useful_iff_exists_way.2 ⟨r, [], [], t, _, _, hstart, .nil r, h, hfinal⟩, fun arc harc => ?_⟩
  obtain ⟨before, after, hbefore, hafter⟩ := h.split_at harc
  have huseful := useful_iff_exists_way.2 ⟨r, _, _, t, _, _, hstart, hbefore, hafter, hfinal⟩
  have hlt := hafter.lt_size_of_last (lt_size_of_isSome_final? hfinal)
  simp [staysAt, huseful, hlt]

/-! ### Trimmed automata -/

variable [Weight W]

/-- Each state lies on a way from the start to a final state. -/
def Trimmed (a : Automaton W) : Prop := a.Satisfies .accessible ∧ a.Satisfies .coaccessible

theorem trimmed_iff : a.Trimmed ↔ ∀ s < a.size, a.useful.getD s false = true := by
  constructor
  · rintro ⟨haccessible, hcoaccessible⟩ s hs
    obtain ⟨r, places, arcs, hstart, hway⟩ := haccessible s hs
    obtain ⟨t, others, arcs', hway', hfinal⟩ := hcoaccessible s hs
    exact useful_iff_exists_way.2 ⟨r, places, arcs, t, others, arcs', hstart, hway, hway', hfinal⟩
  · intro h
    refine ⟨fun s hs => ?_, fun s hs => ?_⟩
    · obtain ⟨r, places, arcs, -, -, -, hstart, hway, -⟩ := useful_iff_exists_way.1 (h s hs)
      exact ⟨r, places, arcs, hstart, hway⟩
    · obtain ⟨-, -, -, t, others, arcs', -, -, hway', hfinal⟩ := useful_iff_exists_way.1 (h s hs)
      exact ⟨t, others, arcs', hway', hfinal⟩

/-- The useful states are useful among themselves. -/
theorem trimmed_keep_useful (a : Automaton W) : (a.keep (a.useful.getD · false)).Trimmed := by
  rw [trimmed_iff]
  intro x hx
  obtain ⟨s, old, hold, hs, rfl, -⟩ := exists_of_getElem?_keep (Array.getElem?_eq_getElem hx)
  obtain ⟨r, places, arcs, t, others, arcs', hstart, hway, hway', hfinal⟩ := useful_iff_exists_way.1 hs
  obtain ⟨hr, hstays⟩ := (hway.append hway').useful hstart hfinal
  have ht := lt_size_of_isSome_final? hfinal
  have hkept : a.useful.getD t false = true :=
    (hway.append hway').last_of_forall (P := fun s => a.useful.getD s false = true) hr
      fun arc harc => (Bool.and_eq_true_iff.1 (hstays arc harc)).2
  refine useful_iff_exists_way.2 ⟨_, _, _, _, _, _, ?_,
    hway.keep hr fun arc harc => hstays arc (List.mem_append_left _ harc),
    hway'.keep hs fun arc harc => hstays arc (List.mem_append_right _ harc), ?_⟩
  · show (a.start.filter _).map _ = _
    rw [hstart, Option.filter_some, if_pos hr, Option.map_some]
  · rw [final?_keep ht hkept, hfinal]

theorem trimmed_trim (a : Automaton W) : a.trim.Trimmed := by
  unfold trim
  dsimp only
  split
  · next hall => exact trimmed_iff.2 (all_useful_iff.1 hall)
  · exact trimmed_keep_useful a

/-! ### Epsilon arcs -/

theorem satisfies_epsilons_iff : a.Satisfies .epsilons ↔ a.anyArc (·.isEpsilon) = true := decides_iff .epsilons |>.symm

/-- To keep some of the states adds no arc. -/
theorem not_satisfies_epsilons_keep (h : ¬ a.Satisfies .epsilons) (kept : Nat → Bool) :
    ¬ (a.keep kept).Satisfies .epsilons := by
  rintro ⟨x, arc, harc, hi, ho⟩
  have hx := lt_size_of_mem harc
  obtain ⟨s, old, hold, hs, rfl, -⟩ := exists_of_getElem?_keep (Array.getElem?_eq_getElem hx)
  have hlt : s < a.size := (Array.getElem?_eq_some_iff.1 hold).1
  rw [← Array.mem_toList_iff, arcsAt_keep hlt hs, List.mem_map] at harc
  obtain ⟨arc, harc, rfl⟩ := harc
  exact h ⟨s, arc, Array.mem_toList_iff.1 (List.mem_filter.1 harc).1, hi, ho⟩

theorem not_satisfies_epsilons_trim (h : ¬ a.Satisfies .epsilons) : ¬ a.trim.Satisfies .epsilons := by
  unfold trim
  dsimp only
  split
  · exact h
  · exact not_satisfies_epsilons_keep h _

/-- What takes the place of the states has other arcs only. -/
theorem not_satisfies_epsilons_bypass (a : Automaton W) : ¬ a.bypass.Satisfies .epsilons := by
  rintro ⟨s, arc, harc, hi, ho⟩
  have hs := lt_size_of_mem harc
  rw [size_bypass] at hs
  rw [arcsAt_bypass hs] at harc
  obtain ⟨-, weight, -, old, -, hother, -, rfl⟩ := EpsilonGraph.mem_arcs_replacement.1 harc
  have hepsilon : old.isEpsilon = true := by rw [Arc.isEpsilon, hi, ho]; rfl
  rw [hother] at hepsilon
  cases hepsilon

variable {D : Type} [Tolerance W D]

/-- Epsilon removal leaves no epsilon arc. With trimming, what it leaves is trimmed if and only if there was an epsilon
arc or there was nothing to trim. -/
theorem trimmed_removeEpsilons_iff (htarget : ∀ s, ∀ arc ∈ a.arcsAt s, arc.target < a.size)
    {config : EpsilonRemoval D} (htrim : config.trim = true) {b : Automaton W}
    (h : Edit.removeEpsilons config a = .ok () b) :
    ¬ b.Satisfies .epsilons ∧ (b.Trimmed ↔ a.Satisfies .epsilons ∨ a.Trimmed) := by
  by_cases heps : a.Satisfies .epsilons
  · have hany := satisfies_epsilons_iff.1 heps
    cases hcycle : (EpsilonGraph.of a).weightedCycle? config.bound with
    | some s =>
      rw [Edit.removeEpsilons_of_cycle hany hcycle] at h
      cases h
    | none =>
      rw [Edit.removeEpsilons_eq (fun harc => htarget _ _ harc) hany hcycle, if_pos htrim] at h
      cases h
      exact ⟨not_satisfies_epsilons_trim (not_satisfies_epsilons_bypass a),
        iff_of_true (trimmed_trim a.bypass) (.inl heps)⟩
  · have hnone : a.anyArc (·.isEpsilon) = false := by rwa [← Bool.not_eq_true, ← satisfies_epsilons_iff]
    rw [Edit.removeEpsilons_of_no_epsilon hnone] at h
    cases h
    exact ⟨heps, (or_iff_right heps).symm⟩

/-- An automaton with an epsilon arc and a state on no way from the start. -/
def layby : Automaton Tropical where
  states := #[{ arcs := #[⟨epsilon, epsilon, 1, 1⟩, ⟨5, 6, 1, 2⟩] }, { arcs := #[⟨7, 8, 1, 2⟩] }, { final := some 1 },
    { arcs := #[⟨5, 5, 1, 2⟩] }]
  start := some 0

theorem trimmed_removeEpsilons_iff_layby : ∃ b, Edit.removeEpsilons ⟨true, Cost.tolerance⟩ layby = .ok () b ∧
    ¬ b.Satisfies .epsilons ∧ b.Trimmed := by
  have htarget : ∀ s, ∀ arc ∈ layby.arcsAt s, arc.target < layby.size :=
    fun s => forall_mem_arcsAt_iff.2 (by decide)
  have hany : layby.anyArc (·.isEpsilon) = true := by decide +kernel
  have h : Edit.removeEpsilons ⟨true, Cost.tolerance⟩ layby = .ok () layby.bypass.trim :=
    Edit.removeEpsilons_eq (fun harc => htarget _ _ harc) hany (by decide +kernel)
  obtain ⟨hnone, htrimmed⟩ := trimmed_removeEpsilons_iff htarget rfl h
  exact ⟨_, h, hnone, htrimmed.2 (.inl (satisfies_epsilons_iff.2 hany))⟩

/-- An automaton without epsilon arcs whose second state is on no way at all. -/
def island : Automaton Tropical where
  states := #[{ final := some 1 }, {}]
  start := some 0

/-- There is nothing to remove, so the second state is not trimmed away either. -/
theorem not_trimmed_removeEpsilons_island : (∀ s, ∀ arc ∈ island.arcsAt s, arc.target < island.size) ∧
    Edit.removeEpsilons ⟨true, Cost.tolerance⟩ island = .ok () island ∧ ¬ island.Trimmed := by
  refine ⟨fun s => forall_mem_arcsAt_iff.2 (by decide), ?_, fun h => ?_⟩
  · exact Edit.removeEpsilons_of_no_epsilon (by decide +kernel) _
  · have huseful : island.useful.getD 1 false = true := trimmed_iff.1 h 1 (by decide)
    exact absurd huseful (by decide +kernel)

end Transducer.Automaton
