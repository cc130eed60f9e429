import Transducer.Automaton.Basic

/-!
# Editing automata

An edit runs on an automaton, changes it, and may be refused; what it did before it was refused stays.
The edits of this module check first and change afterwards, so each of them is done as a whole or not at
all. Every change drops what was known of the properties, also one that puts in place what was there
before.

`keep` renumbers the states that a deletion leaves; it is the heart of `deleteStates`.
-/

namespace Transducer

/-- An action on an automaton that can be refused. -/
abbrev Edit (W α : Type) := EStateM Error (Automaton W) α

/-- The state with a final weight; with the weight of no path, it is not final. -/
def State.withFinal {W : Type} [Weight W] (state : State W) (weight : W) : State W :=
  { state with final := if isZero weight then none else some weight }

/-- The state with one more arc. -/
def State.push {W : Type} (state : State W) (arc : Arc W) : State W :=
  { state with arcs := state.arcs.push arc }

namespace Automaton

variable {W : Type}

/-! ### Changes of an automaton -/

/-- The automaton with one state changed. -/
def changeState (a : Automaton W) (s : Nat) (f : State W → State W) : Automaton W :=
  { a with states := a.states.modify s f, cache := {} }

/-- The automaton with one more state. -/
def pushState (a : Automaton W) (state : State W) : Automaton W :=
  { a with states := a.states.push state, cache := {} }

@[simp] theorem size_changeState (a : Automaton W) (s : Nat) (f : State W → State W) :
    (a.changeState s f).size = a.size := by
  simp [changeState, size]

@[simp] theorem size_pushState (a : Automaton W) (state : State W) :
    (a.pushState state).size = a.size + 1 := by
  simp [pushState, size]

/-! ### Keeping some of the states -/

/-- The number of kept states below `s`: the number that `s` gets if it is kept. -/
def rank (kept : Nat → Bool) (s : Nat) : Nat := (List.range s).countP kept

/-- A state with only its arcs into kept states, which are renumbered. -/
def keepArcs (kept : Nat → Bool) (size : Nat) (state : State W) : State W :=
  { state with
    arcs := (state.arcs.filter fun arc => arc.target < size && kept arc.target).map fun arc =>
      { arc with target := rank kept arc.target } }

/-- The automaton restricted to the states that `kept` picks, in their old order. Arcs into other states
go, and so does the start if it is not kept. -/
def keep (kept : Nat → Bool) (a : Automaton W) : Automaton W :=
  { a with
    states := (a.states.zipIdx.filter fun (_, s) => kept s).map fun (state, _) =>
      keepArcs kept a.size state
    start := (a.start.filter kept).map (rank kept)
    cache := {} }

end Automaton

namespace Edit

variable {W : Type}

/-! ### Refusal and change -/

/-- Goes on only if the state exists. -/
def requireState (s : Nat) : Edit W Unit := fun a =>
  if s < a.size then .ok () a else .error (.invalidState s a.size) a

theorem requireState_of_lt {a : Automaton W} {s : Nat} (h : s < a.size) :
    requireState s a = .ok () a :=
  if_pos h

theorem requireState_of_le {a : Automaton W} {s : Nat} (h : a.size ≤ s) :
    requireState s a = .error (.invalidState s a.size) a :=
  if_neg (Nat.not_lt.mpr h)

/-- Changes the automaton. -/
def change (f : Automaton W → Automaton W) : Edit W Unit := fun a =>
  .ok () { f a with cache := {} }

/-- Changes a state that must exist. -/
def changeState (s : Nat) (f : State W → State W) : Edit W Unit := do
  requireState s
  change (·.changeState s f)

/-! ### States -/

/-- Adds a state, and gives its number. -/
def addState : Edit W Nat := fun a => .ok a.size (a.pushState {})

/-- Adds states, and gives the number of the first and the number after the last. To add none is no
change. -/
def addStates (n : Nat) : Edit W (Nat × Nat) := fun a =>
  .ok (a.size, a.size + n)
    (if n = 0 then a else { a with states := a.states ++ Array.replicate n {}, cache := {} })

/-- Makes a state the start. -/
def setStart (s : Nat) : Edit W Unit := do
  requireState s
  change fun a => { a with start := some s }

/-- Makes a state final with a weight; with the weight of no path, it is not final any more. -/
def setFinal [Weight W] (s : Nat) (weight : W) : Edit W Unit :=
  changeState s (·.withFinal weight)

/-- Makes a state not final. -/
def deleteFinal [Weight W] (s : Nat) : Edit W Unit := setFinal s 0

/-! ### Arcs -/

/-- Adds an arc to a state; the state and the target of the arc must exist. -/
def addArc (s : Nat) (arc : Arc W) : Edit W Unit := do
  requireState arc.target
  changeState s (·.push arc)

/-- Replaces the arcs of a state; the state and the targets of the arcs must exist. -/
def setArcs (s : Nat) (arcs : Array (Arc W)) : Edit W Unit := do
  requireState s
  arcs.toList.forM fun arc => requireState arc.target
  changeState s fun state => { state with arcs }

/-- Replaces one arc of a state. The target is taken as it is. -/
def setArc (s index : Nat) (arc : Arc W) : Edit W Unit := do
  let a ← get
  match a.findArc s index with
  | .error e => throw e
  | .ok _ => changeState s fun state => { state with arcs := state.arcs.setIfInBounds index arc }

/-- Makes room for arcs. This changes no arc, but counts as a change of the state. -/
def reserveArcs (s : Nat) : Edit W Unit := changeState s id

/-- Removes the arcs of a state. -/
def deleteArcs (s : Nat) : Edit W Unit := changeState s fun state => { state with arcs := #[] }

/-! ### Deletion -/

/-- Removes states, all of which must exist, and renumbers the others in their order. -/
def deleteStates (deleted : List Nat) : Edit W Unit := do
  deleted.forM requireState
  change (Automaton.keep fun s => !deleted.contains s)

/-- Removes all states. The symbol tables stay. -/
def deleteAll : Edit W Unit := change fun a => { a with states := #[], start := none }

/-! ### Symbol tables -/

/-- Attaches the symbol table of one side, or detaches it. -/
def setSymbols (side : Side) (table : Option SymbolTable) : Edit W Unit :=
  modify (·.withSymbols side table)

/-- Detaches the symbol table of one side, and gives it. -/
def takeSymbols (side : Side) : Edit W (Option SymbolTable) := do
  let table := (← get).symbols side
  setSymbols side none
  return table

end Edit

end Transducer
