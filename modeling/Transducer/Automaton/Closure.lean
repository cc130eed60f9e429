import Transducer.Automaton.Edit

/-!
# Repetition

The automaton that accepts every sequence of what an automaton accepts: at least one of them, or also
none. Each final state gets an epsilon arc back to the start, with its final weight. To accept none at
all, a new start goes before the old one, so that what led to the old start is not accepted as well.
-/

namespace Transducer

/-- How often to repeat. -/
inductive Repetition where
  /-- Any number of times. -/
  | star
  /-- At least once. -/
  | plus
  deriving DecidableEq, Repr

namespace Automaton

variable {W : Type} [Weight W]

/-- The automaton with an epsilon arc from each final state to the given one. Where no state is final
nothing changes. -/
def loopBack (a : Automaton W) (start : Nat) : Automaton W :=
  if a.states.all (·.final.isNone) then a
  else a.mapStates fun state =>
    match state.final with
    | some weight => state.push ⟨epsilon, epsilon, weight, start⟩
    | none => state

/-- The automaton repeated. Without a start it accepts nothing, which repeated at least once stays as it
is. -/
def closure (a : Automaton W) (repetition : Repetition) : Automaton W :=
  match a.start, repetition with
  | none, .plus => a
  | none, .star => { a.pushState { final := some 1 } with start := some a.size }
  | some start, .plus => a.loopBack start
  | some start, .star =>
    let looped := a.loopBack start
    { looped.pushState { final := some 1, arcs := #[⟨epsilon, epsilon, 1, start⟩] } with
      start := some a.size }

end Automaton

end Transducer
