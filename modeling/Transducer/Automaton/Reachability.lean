import Transducer.Automaton.Edit
import Transducer.Graph.Component

/-!
# Reachability in automata

Which states the start reaches, which states reach a final state, and whether some state reaches itself.
A state is useful if it lies on a way from the start to a final state; `trim` removes the others.
-/

namespace Transducer.Automaton

variable {W : Type}

/-- The targets of the arcs of a state that exist. -/
def successors (a : Automaton W) (s : Nat) : List Nat :=
  ((a.arcsAt s).toList.map (·.target)).filter (· < a.size)

/-- The final states, in ascending order. -/
def finalStates (a : Automaton W) : List Nat :=
  (List.range a.size).filter fun s => (a.final? s).isSome

/-- For each state, whether the start reaches it. -/
def accessible (a : Automaton W) : Array Bool :=
  Graph.reachable a.successors a.size a.start.toList

/-- For each state, whether it reaches a final state. -/
def coaccessible (a : Automaton W) : Array Bool :=
  let before := Graph.reverse a.successors a.size
  Graph.reachable (fun s => before.getD s []) a.size a.finalStates

/-- Whether some state reaches itself: some arc stays in its component. -/
def isCyclic (a : Automaton W) : Bool :=
  let component := (Graph.components a.successors a.size).number
  (List.range a.size).any fun s => (a.successors s).any fun t => component[s]? == component[t]?

/-- For each state, whether it lies on a way from the start to a final state. -/
def useful (a : Automaton W) : Array Bool :=
  Array.zipWith (· && ·) a.accessible a.coaccessible

/-- The automaton without its useless states. If there are none, it stays as it is, and so does what is
known of it. -/
def trim (a : Automaton W) : Automaton W :=
  let useful := a.useful
  if useful.all id then a else a.keep fun s => useful.getD s false

end Transducer.Automaton
