import Transducer.Automaton.Basic

/-!
# Automata as text

The listing of an automaton has a line for each arc, with the state it leaves, its target, its labels
and its weight, and a line for each final state, with the state and its weight. The fields are separated
by tabs, and the weight of a free step is left out. The start comes first, the other states follow in
their order. An automaton without a start has an empty listing.
-/

namespace Transducer.Automaton

variable {W : Type} [Weight W] [ToString W]

/-- The end of a line: the weight, unless it is that of a free step. -/
def weightField (weight : W) : String :=
  (if isOne weight then "" else "\t" ++ toString weight) ++ "\n"

/-- The lines of a state. -/
def stateListing (a : Automaton W) (s : Nat) : String :=
  let arcLine (arc : Arc W) : String :=
    toString s ++ "\t" ++ toString arc.target ++ "\t" ++ toString arc.ilabel ++ "\t" ++
      toString arc.olabel ++ weightField arc.weight
  String.join ((a.arcsAt s).toList.map arcLine) ++
    match a.final? s with
    | some weight => toString s ++ weightField weight
    | none => ""

/-- The listing of the automaton. -/
def listing (a : Automaton W) : String :=
  match a.start with
  | none => ""
  | some start =>
    String.join ((start :: (List.range a.size).filter (· != start)).map a.stateListing)

end Transducer.Automaton
