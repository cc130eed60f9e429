import Transducer.Automaton.Structure

/-!
# Checks of automata

`verify` finds the first violation of what an automaton should satisfy: its start and the targets of its
arcs exist, its weights are weights, no arc has the label of the implicit arc, every other label but
epsilon is bound in the symbol table of its side, and what is cached of the properties is right.

`agrees` compares two automata state by state, with weights up to a bound.
-/

namespace Transducer

/-- Whether two arcs are equal, with weights compared up to a bound. -/
def Arc.agrees {W D : Type} [Tolerance W D] (arc other : Arc W) (bound : D) : Bool :=
  arc.ilabel == other.ilabel && arc.olabel == other.olabel && arc.target == other.target &&
    approxEq arc.weight other.weight bound

/-- Whether two arcs are equal, with weights compared as numbers. -/
def Arc.equals {W : Type} [Costed W] (arc other : Arc W) : Bool :=
  arc.ilabel == other.ilabel && arc.olabel == other.olabel && arc.target == other.target &&
    (Costed.cost arc.weight).eq (Costed.cost other.weight)

namespace Automaton

variable {W : Type}

/-- The violation of a label, if it is one. -/
def labelViolation? (a : Automaton W) (s index : Nat) (arc : Arc W) (side : Side) :
    Option Violation :=
  let label := arc.label side
  if label = noLabel then some (.reservedLabel index s side label)
  else
    match a.symbols side with
    | some table =>
      if label != epsilon && !table.hasKey label then
        some (.unboundLabel index s side label table.name)
      else none
    | none => none

/-- The first violation of an arc. -/
def arcViolation? [Weight W] [ToString W] (a : Automaton W) (s index : Nat) (arc : Arc W) :
    Option Violation :=
  if a.size ≤ arc.target then some (.missingTarget index s arc.target)
  else if !isMember arc.weight then some (.arcWeight index s (toString arc.weight))
  else (a.labelViolation? s index arc .input).or (a.labelViolation? s index arc .output)

/-- The first violation of a state. -/
def stateViolation? [Weight W] [ToString W] (a : Automaton W) (s : Nat) (state : State W) :
    Option Violation :=
  match state.final.filter (!isMember ·) with
  | some weight => some (.finalWeight s (toString weight))
  | none => state.arcs.toList.zipIdx.findSome? fun (arc, index) => a.arcViolation? s index arc

/-- The first violation of an automaton. -/
def violation? [Weight W] [ToString W] (a : Automaton W) : Option Violation :=
  match a.start.filter (a.size ≤ ·) with
  | some start => some (.startOutOfRange start a.size)
  | none =>
    match a.states.toList.zipIdx.findSome? fun (state, s) => a.stateViolation? s state with
    | some violation => some violation
    | none =>
      let cached := a.cache.value.inter a.cache.known
      if a.facts.contains cached then none
      else some (.staleProperties cached.text a.facts.text)

/-- Refuses an automaton with a violation. -/
def verify [Weight W] [ToString W] (a : Automaton W) : Except Error Unit :=
  match a.violation? with
  | some violation => .error (.verification violation)
  | none => .ok ()

/-- Whether two final weights are equal up to a bound. -/
def finalAgrees {D : Type} [Tolerance W D] (bound : D) : Option W → Option W → Bool
  | none, none => true
  | some v, some w => approxEq v w bound
  | _, _ => false

/-- Whether two automata have the same start and the same states, with the same arcs in the same order,
where weights are compared up to a bound. Symbol tables are not compared. -/
def agrees {D : Type} [Tolerance W D] (a b : Automaton W) (bound : D) : Bool :=
  a.start == b.start && a.size == b.size &&
    (a.states.toList.zip b.states.toList).all fun (x, y) =>
      finalAgrees bound x.final y.final && x.arcs.size == y.arcs.size &&
        (x.arcs.toList.zip y.arcs.toList).all fun (arc, other) => arc.agrees other bound

end Automaton

end Transducer
