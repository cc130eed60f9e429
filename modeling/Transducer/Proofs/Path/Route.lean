import Mathlib
import Transducer.Path.Distance
import Transducer.Proofs.Path.Accepting

/-!
# Routes

The ways that the distance of a state stands for: forward those from the start to the state, backward those from the
state to a final one, with the weight of the latter.
-/

namespace Transducer.Automaton

variable {W : Type}

/-- A way between a state and where distances are measured from. -/
inductive Route (a : Automaton W) : Direction → Nat → Type where
  /-- From the start to the state. -/
  | fromStart {s : Nat} (start : Nat) (places : List Nat) (arcs : List (Arc W)) (start_eq : a.start = some start)
      (way : a.Way start places arcs s) : Route a .forward s
  /-- From the state to a final one. -/
  | toFinal {s : Nat} (places : List Nat) (arcs : List (Arc W)) (last : Nat) (final : W) (way : a.Way s places arcs last)
      (final_eq : a.final? last = some final) : Route a .backward s

namespace Route

variable {a : Automaton W} {direction : Direction} {s : Nat}

/-- The positions at which the route leaves the states on it. -/
def places : a.Route direction s → List Nat
  | fromStart _ places .. => places
  | toFinal places .. => places

/-- The arcs at these positions. -/
def arcs : a.Route direction s → List (Arc W)
  | fromStart _ _ arcs .. => arcs
  | toFinal _ arcs .. => arcs

/-- The product of the weights of the arcs, and of the final weight if the route leads to a final state. -/
def weight [Weight W] : a.Route direction s → W
  | fromStart _ _ arcs .. => weigh arcs 1
  | toFinal _ arcs _ final .. => weigh arcs final

/-- Routes that leave all states at the same positions are the same. -/
theorem ext_places {p q : a.Route direction s} (h : p.places = q.places) : p = q := by
  cases p with
  | fromStart start places arcs hstart hway =>
    cases q with
    | fromStart start' places' arcs' hstart' hway' =>
      obtain rfl : places = places' := h
      obtain rfl := Option.some.inj (hstart.symm.trans hstart')
      obtain ⟨rfl, -⟩ := hway.unique hway'
      rfl
  | toFinal places arcs last final hway hfinal =>
    cases q with
    | toFinal places' arcs' last' final' hway' hfinal' =>
      obtain rfl : places = places' := h
      obtain ⟨rfl, rfl⟩ := hway.unique hway'
      obtain rfl := Option.some.inj (hfinal.symm.trans hfinal')
      rfl

/-- From a start that does not exist no routes lead to states that do. -/
theorem isEmpty_forward {start : Nat} (hstart : a.start = some start) (hle : a.size ≤ start) (hs : s < a.size) :
    IsEmpty (a.Route .forward s) where
  false
    | .fromStart first places arcs hfirst hway => by
      obtain rfl := Option.some.inj (hstart.symm.trans hfirst)
      exact absurd (hway.lt_size_of_last hs) (not_lt.2 hle)

/-- From a state that does not exist no routes lead to final ones. -/
theorem isEmpty_backward (hs : a.size ≤ s) : IsEmpty (a.Route .backward s) where
  false
    | .toFinal _ _ _ _ hway hfinal => absurd (hway.lt_size_of_last (lt_size_of_final? hfinal)) (not_lt.2 hs)

end Route

end Transducer.Automaton
