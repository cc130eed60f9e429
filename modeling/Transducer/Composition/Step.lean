import Transducer.Composition.Options
import Transducer.Matching.Matcher

/-!
# Steps of a composition

A composite state pairs a state of each operand with a turn. The turn makes every way unique on which
the operands move alone: where both could, the left one moves first, and once the right one has moved
alone, the left one waits until they move together.

`Composition.expand` gives the weight and the steps of a composite state. It depends on the composite
state and the operands only; numbering the composite states is left to `Transducer.Composition.Lazy`.
-/

namespace Transducer

namespace Composition

/-- Which operand may move alone. -/
inductive Turn where
  /-- Either. -/
  | either
  /-- The right one only. -/
  | right
  deriving DecidableEq, Repr, Hashable

/-- The number of the turn. -/
def Turn.code : Turn → Nat
  | either => 0
  | right => 1

/-- A composite state. -/
structure Place where
  left : Nat
  right : Nat
  turn : Turn
  deriving DecidableEq, Repr, Hashable

/-- A step from one composite state to another. -/
structure Step (W : Type) where
  ilabel : Label
  olabel : Label
  weight : W
  target : Place
  deriving DecidableEq, Repr

/-- What there is to know of a composite state: its weight, if it is final, and its steps. -/
structure Expansion (W : Type) where
  final : Option W
  steps : List (Step W)
  deriving DecidableEq, Repr

/-- The turn after a step, or nothing if the step is not allowed. `silent` says that the left state must
move alone: it is not final and all its arcs write nothing. `loud` says that it cannot: none of its arcs
writes nothing. -/
def Turn.pass {W : Type} (turn : Turn) (silent loud : Bool) (left right : Arc W) : Option Turn :=
  if left.olabel = noLabel then
    if silent then none else if loud then some .either else some .right
  else if right.ilabel = noLabel then
    if turn = .either then some .either else none
  else if left.olabel = epsilon then none
  else some .either

end Composition

/-- Two automata to compose, with what looks up their arcs. -/
structure Composition (W : Type) where
  left : Matcher W
  right : Matcher W
  plan : Composition.Plan

namespace Composition

variable {W : Type} [Weight W]

/-- The composition of two automata, which remember what had to be found out about them. -/
def build (opts : Options) : EStateM Error (Automaton W × Automaton W) (Composition W) := fun (a, b) =>
  match opts.plan, checkSymbols a b with
  | .error fault, _ | .ok _, .error fault => .error (.config fault) (a, b)
  | .ok plan, .ok () =>
    match Matcher.build opts.left a with
    | .error e a => .error e (a, b)
    | .ok left a =>
      match Matcher.build opts.right b with
      | .error e b => .error e (a, b)
      | .ok right b => .ok { left, right, plan } (a, b)

/-- The operand whose arcs are listed at a composite state. The number of the composite state is for the
message if both operands would have to be asked. -/
def listed (c : Composition W) (id : Nat) (place : Place) : Except Error Operand :=
  match c.plan with
  | .fixed operand => .ok operand
  | .perState => do
    let left ← c.left.hasSpecialArcs place.left
    let right ← c.right.hasSpecialArcs place.right
    match left, right with
    | true, true => throw (.config (.bothSpecial id place.left place.right))
    | true, false => return .right
    | false, _ => return .left

/-- The pairs of arcs that match, one of each operand. The implicit arc of the listed state comes first,
then its arcs in their order. -/
def pairs (c : Composition W) (operand : Operand) (place : Place) :
    Except Error (List (Arc W × Arc W)) := do
  match operand with
  | .left =>
    let arcs ← c.left.automaton.findArcs place.left
    let found ← (⟨epsilon, noLabel, 1, place.left⟩ :: arcs.toList).mapM fun arc =>
      return (← c.right.find place.right arc.olabel).map fun match_ => (arc, match_)
    return found.flatten
  | .right =>
    let arcs ← c.right.automaton.findArcs place.right
    let found ← (⟨noLabel, epsilon, 1, place.right⟩ :: arcs.toList).mapM fun arc =>
      return (← c.left.find place.left arc.ilabel).map fun match_ => (match_, arc)
    return found.flatten

/-- The weight of a composite state: both operand states are final, and their weights can follow each
other. -/
def finalWeight (left right : Option W) : Option W :=
  match left, right with
  | some v, some w => if isZero (v * w) then none else some (v * w)
  | _, _ => none

/-- The step that two matching arcs make together, if the turn allows it. -/
def step? (turn : Turn) (silent loud : Bool) (pair : Arc W × Arc W) : Option (Step W) :=
  let (left, right) := pair
  (turn.pass silent loud left right).map fun next =>
    { ilabel := left.ilabel, olabel := right.olabel, weight := left.weight * right.weight,
      target := ⟨left.target, right.target, next⟩ }

/-- The weight and the steps of a composite state. -/
def expand (c : Composition W) (id : Nat) (place : Place) : Except Error (Expansion W) := do
  let leftFinal ← c.left.automaton.findFinal place.left
  let rightFinal ← c.right.automaton.findFinal place.right
  let arcs ← c.left.automaton.findArcs place.left
  let silent := leftFinal.isNone && arcs.all fun arc => arc.olabel == epsilon
  let loud := arcs.all fun arc => arc.olabel != epsilon
  let operand ← c.listed id place
  let pairs ← c.pairs operand place
  return { final := finalWeight leftFinal rightFinal
           steps := pairs.filterMap (step? place.turn silent loud) }

end Composition

end Transducer
