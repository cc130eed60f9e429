import Mathlib
import Transducer.Proofs.Automaton.Bypass
import Transducer.Proofs.Property.Meaning
import Transducer.Weight.Tropical

/-!
# Cycles of epsilon arcs that have a weight

Epsilon removal refuses an automaton in which an epsilon arc lies on a cycle of epsilon arcs and has a weight that
differs from that of a free arc by more than the bound. It looks for such an arc by the numbers of the components:
an arc lies on a cycle if it stays in its component (`stays_iff`). The states are tried in ascending order, so that
the one in the error is the least (`weightedCycle?_eq_some_iff`).

Nothing is needed of the weights, nor of their comparison, and of the automaton only that its arcs lead to states that
exist.
-/

namespace Transducer

open EpsilonGraph Transducer.Graph

variable {W D : Type} [Weight W] [Tolerance W D] {a : Automaton W} {s : Nat} {bound : D}

/-- An epsilon arc leaves the state that is not free up to the bound, and from its target epsilon arcs lead back. -/
def Automaton.OnWeightedCycle (a : Automaton W) (bound : D) (s : Nat) : Prop :=
  ∃ arc ∈ a.arcsAt s, arc.isEpsilon = true ∧ approxEq arc.weight (1 : W) bound = false ∧
    ∃ places arcs, a.EpsilonWay arc.target places arcs s

namespace EpsilonGraph

/-- What the search for a cycle looks for at a state. -/
theorem any_arcs_iff (htarget : ∀ {s : Nat} {arc : Arc W}, arc ∈ a.arcsAt s → arc.target < a.size) :
    ((arcs a s).any fun arc => (of a).component s == (of a).component arc.target &&
      !approxEq arc.weight (1 : W) bound) = true ↔ a.OnWeightedCycle bound s := by
  simp only [List.any_eq_true, Bool.and_eq_true, beq_iff_eq, Bool.not_eq_true']
  constructor
  · rintro ⟨arc, harc, hstays, hweight⟩
    obtain ⟨hmem, he⟩ := mem_arcs.1 harc
    exact ⟨arc, hmem, he, hweight, (stays_iff htarget harc).1 hstays⟩
  · rintro ⟨arc, hmem, he, hweight, hback⟩
    have harc := mem_arcs.2 ⟨hmem, he⟩
    exact ⟨arc, harc, (stays_iff htarget harc).2 hback, hweight⟩

/-- The state that is found is the least on a weighted cycle. -/
theorem weightedCycle?_eq_some_iff
    (htarget : ∀ {s : Nat} {arc : Arc W}, arc ∈ a.arcsAt s → arc.target < a.size) :
    (of a).weightedCycle? bound = some s ↔ IsLeast {s | a.OnWeightedCycle bound s} s := by
  have hlt : ∀ {s}, a.OnWeightedCycle bound s → s < a.size := fun ⟨_, hmem, _⟩ => Automaton.lt_size_of_mem hmem
  rw [weightedCycle?, List.find?_range_eq_some]
  simp only [Bool.not_eq_true']
  constructor
  · rintro ⟨hfound, -, hfirst⟩
    refine ⟨(any_arcs_iff htarget).1 hfound, ?_⟩
    intro t ht
    by_contra hts
    have hnot := hfirst t (Nat.lt_of_not_le hts)
    rw [← Bool.not_eq_true] at hnot
    exact hnot ((any_arcs_iff htarget).2 ht)
  · rintro ⟨hs, hleast⟩
    refine ⟨(any_arcs_iff htarget).2 hs, List.mem_range.2 (hlt hs), ?_⟩
    intro t hts
    rw [← Bool.not_eq_true]
    intro ht
    exact Nat.not_le_of_lt hts (hleast ((any_arcs_iff htarget).1 ht))

/-- None is found if no state is on a weighted cycle. -/
theorem weightedCycle?_eq_none_iff
    (htarget : ∀ {s : Nat} {arc : Arc W}, arc ∈ a.arcsAt s → arc.target < a.size) :
    (of a).weightedCycle? bound = none ↔ ∀ s, ¬ a.OnWeightedCycle bound s := by
  rw [weightedCycle?, List.find?_eq_none]
  constructor
  · intro h s hs
    have ⟨_, hmem, _⟩ := hs
    exact h s (List.mem_range.2 (Automaton.lt_size_of_mem hmem)) ((any_arcs_iff htarget).2 hs)
  · intro h s _ hfound
    exact h s ((any_arcs_iff htarget).1 hfound)

end EpsilonGraph

namespace Edit

/-- Epsilon removal is refused exactly where a state is on a weighted cycle of epsilon arcs. The error names the least
such state, and the automaton is as it was. -/
theorem removeEpsilons_refused_iff
    (htarget : ∀ {s : Nat} {arc : Arc W}, arc ∈ a.arcsAt s → arc.target < a.size) (config : EpsilonRemoval D) :
    ((∃ e b, removeEpsilons config a = .error e b) ↔ ∃ s, a.OnWeightedCycle config.bound s) ∧
      ∀ e b, removeEpsilons config a = .error e b →
        ∃ s, IsLeast {s | a.OnWeightedCycle config.bound s} s ∧ e = .epsilonCycle s ∧ b = a := by
  cases hcycle : (EpsilonGraph.of a).weightedCycle? config.bound with
  | none =>
    have hnone := (weightedCycle?_eq_none_iff htarget).1 hcycle
    obtain ⟨b, hok⟩ : ∃ b, removeEpsilons config a = .ok () b := by
      cases heps : a.anyArc (·.isEpsilon) with
      | false => exact ⟨a, removeEpsilons_of_no_epsilon heps config⟩
      | true => exact ⟨_, removeEpsilons_eq htarget heps hcycle⟩
    have hno : ∀ e c, removeEpsilons config a ≠ .error e c := by
      intro e c herror
      rw [hok] at herror
      cases herror
    refine ⟨iff_of_false ?_ ?_, fun e c h => absurd h (hno e c)⟩
    · rintro ⟨e, c, herror⟩
      exact hno e c herror
    · rintro ⟨s, hs⟩
      exact hnone s hs
  | some s =>
    have hleast := (weightedCycle?_eq_some_iff htarget).1 hcycle
    have heps : a.anyArc (·.isEpsilon) = true := by
      obtain ⟨arc, hmem, he, -⟩ := hleast.1
      exact Automaton.anyArc_iff.2 ⟨s, arc, hmem, he⟩
    have herror := removeEpsilons_of_cycle heps hcycle
    refine ⟨iff_of_true ⟨_, _, herror⟩ ⟨s, hleast.1⟩, ?_⟩
    intro e b h
    rw [herror] at h
    cases h
    exact ⟨s, hleast, rfl, rfl⟩

end Edit

/-- A weighted epsilon arc leads to two states with epsilon arcs to each other; one of these costs something, another
arc leads on to a state with a weighted loop. -/
def knot : Automaton Tropical where
  states := #[{ arcs := #[⟨0, 0, ⟨⟨0x40000000⟩⟩, 1⟩] },
    { arcs := #[⟨0, 0, 1, 2⟩] },
    { arcs := #[⟨0, 0, ⟨⟨0x40A00000⟩⟩, 3⟩, ⟨0, 0, ⟨⟨0x40400000⟩⟩, 1⟩] },
    { arcs := #[⟨0, 0, ⟨⟨0x3F800000⟩⟩, 3⟩], final := some 1 }]
  start := some 0

theorem removeEpsilons_refused_iff_knot : (∀ {s : Nat} {arc : Arc Tropical}, arc ∈ knot.arcsAt s →
      arc.target < knot.size) ∧
    IsLeast {s | knot.OnWeightedCycle Cost.tolerance s} 2 ∧
    ∃ e b, Edit.removeEpsilons ⟨true, Cost.tolerance⟩ knot = .error e b := by
  have htarget : ∀ {s : Nat} {arc : Arc Tropical}, arc ∈ knot.arcsAt s → arc.target < knot.size :=
    (by decide : knot.WellFormed).target_lt
  have hleast : IsLeast {s | knot.OnWeightedCycle Cost.tolerance s} 2 :=
    (weightedCycle?_eq_some_iff htarget).1 (by decide +kernel)
  exact ⟨htarget, hleast, (Edit.removeEpsilons_refused_iff htarget ⟨true, Cost.tolerance⟩).1.2 ⟨2, hleast.1⟩⟩

end Transducer
