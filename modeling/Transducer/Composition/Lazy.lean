import Std.Data.HashMap
import Transducer.Automaton.Reachability
import Transducer.Composition.Step

/-!
# Composition on demand

The composite states are numbered in the order in which they are met, and each is expanded when its arcs
or its weight are first asked for. `Memo` holds what is known so far; a request that fails adds nothing
to it.

`toAutomaton` expands everything, and `compose` builds the composition of two automata as a whole.
-/

namespace Transducer.Composition

/-- A composite state that has been expanded: its weight and its arcs, by numbers. -/
abbrev Known (W : Type) := State W

/-- What is known of a composition. -/
structure Memo (W : Type) where
  /-- The composite states that have been met, by their numbers. -/
  places : Array Place := #[]
  /-- The numbers of these composite states. -/
  ids : Std.HashMap Place Nat := ∅
  /-- For each of them, its weight and its arcs, once it has been expanded. -/
  known : Array (Option (Known W)) := #[]

/-- A request to a composition, which may add to what is known and may fail. -/
abbrev Request (W α : Type) := EStateM Error (Memo W) α

namespace Memo

variable {W : Type}

/-! ### Numbering composite states -/

/-- The number of composite states that have been met. -/
def size (memo : Memo W) : Nat := memo.places.size

/-- The number of a composite state, a new one if it has not been met before. -/
def intern (memo : Memo W) (place : Place) : Nat × Memo W :=
  match memo.ids[place]? with
  | some id => (id, memo)
  | none =>
    (memo.size,
      { places := memo.places.push place
        ids := memo.ids.insert place memo.size
        known := memo.known.push none })

/-- Numbers the targets of steps, in their order. -/
def internSteps (memo : Memo W) : List (Step W) → List (Arc W) × Memo W
  | [] => ([], memo)
  | step :: steps =>
    let (id, memo) := memo.intern step.target
    let (arcs, memo) := memo.internSteps steps
    (⟨step.ilabel, step.olabel, step.weight, id⟩ :: arcs, memo)

/-- Whether a composite state has been expanded. -/
def isExpanded (memo : Memo W) (id : Nat) : Bool := (memo.known.getD id none).isSome

/-- The composite state with a number. -/
def find (memo : Memo W) (id : Nat) : Except Error Place :=
  match memo.places[id]? with
  | some place => .ok place
  | none => .error (.invalidState id memo.size)

end Memo

variable {W : Type} [Weight W]

/-! ### Requests -/

/-- The number of the start, if both operands have one. -/
def start (c : Composition W) : Request W (Option Nat) := fun memo =>
  match c.left.automaton.start, c.right.automaton.start with
  | some s, some t =>
    let (id, memo) := memo.intern ⟨s, t, .either⟩
    .ok (some id) memo
  | _, _ => .ok none memo

/-- The weight and the arcs of a composite state. -/
def request (c : Composition W) (id : Nat) : Request W (Known W) := fun memo =>
  match memo.known.getD id none with
  | some known => .ok known memo
  | none =>
    match memo.find id with
    | .error e => .error e memo
    | .ok place =>
      match c.expand id place with
      | .error e => .error e memo
      | .ok expansion =>
        let (arcs, memo) := memo.internSteps expansion.steps
        let known : Known W := { final := expansion.final, arcs := arcs.toArray }
        .ok known { memo with known := memo.known.setIfInBounds id (some known) }

/-- Expands composite states from the given number on until all that have been met are expanded. The
first argument bounds their number. -/
def requestFrom (c : Composition W) : Nat → Nat → Request W Unit
  | 0, _ => pure ()
  | bound + 1, id => fun memo =>
    if id < memo.size then
      match c.request id memo with
      | .ok _ memo => c.requestFrom bound (id + 1) memo
      | .error e memo => .error e memo
    else .ok () memo

/-! ### The composition as a whole -/

/-- As many composite states as there can be: a pair of operand states has two turns. One more is met
only if an arc leads out of its automaton. -/
def bound (c : Composition W) : Nat := 2 * c.left.automaton.size * c.right.automaton.size + 1

/-- The automaton of all composite states that have been met, with the numbers they have. -/
def Memo.toAutomaton (memo : Memo W) (start : Nat) (c : Composition W) : Automaton W where
  states := memo.known.map fun known => known.getD {}
  start := some start
  inputSymbols := c.left.automaton.inputSymbols
  outputSymbols := c.right.automaton.outputSymbols

/-- The composition as a whole, not trimmed. -/
def toAutomaton (c : Composition W) : Request W (Automaton W) := do
  match ← c.start with
  | none =>
    return { inputSymbols := c.left.automaton.inputSymbols
             outputSymbols := c.right.automaton.outputSymbols }
  | some start =>
    c.requestFrom c.bound 0
    return (← get).toAutomaton start c

end Transducer.Composition

namespace Transducer

variable {W : Type} [Weight W]

/-- The composition of two automata, which remember what had to be found out about them. -/
def compose (opts : Composition.Options) : EStateM Error (Automaton W × Automaton W) (Automaton W) := do
  let c ← Composition.build opts
  match c.toAutomaton {} with
  | .error e _ => throw e
  | .ok result _ => return if opts.trim then result.trim else result

end Transducer
