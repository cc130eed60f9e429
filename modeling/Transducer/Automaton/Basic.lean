import Transducer.Error
import Transducer.Property.Basic
import Transducer.SymbolTable.Basic

/-!
# Weighted automata

An automaton has states numbered from zero, of which one may be the start. A state has arcs, in the
order in which they were added, and may be final with a weight. Each side of the automaton may have a
symbol table that says what its labels mean. Beside these the automaton keeps what is known of its
properties; this knowledge is dropped by every change.

The accessors with a `find` refuse states that do not exist; those without it answer for such a state as
for one that is not final and has no arcs.
-/

namespace Transducer

/-- A state: its weight, if it is final, and the arcs that leave it. -/
structure State (W : Type) where
  final : Option W := none
  arcs : Array (Arc W) := #[]
  deriving DecidableEq, Repr, Inhabited

/-- A weighted automaton with an input and an output side. -/
structure Automaton (W : Type) where
  states : Array (State W) := #[]
  start : Option Nat := none
  inputSymbols : Option SymbolTable := none
  outputSymbols : Option SymbolTable := none
  cache : PropertyCache := {}
  deriving Inhabited

namespace Automaton

variable {W : Type}

/-- The automaton without states. -/
def empty : Automaton W := {}

/-- The number of states. -/
def size (a : Automaton W) : Nat := a.states.size

/-! ### Accessors -/

/-- The weight of a state, if it is final. -/
def final? (a : Automaton W) (s : Nat) : Option W := a.states[s]?.bind (·.final)

/-- The arcs that leave a state. -/
def arcsAt (a : Automaton W) (s : Nat) : Array (Arc W) :=
  match a.states[s]? with
  | some state => state.arcs
  | none => #[]

/-- A state that must exist. -/
def findState (a : Automaton W) (s : Nat) : Except Error (State W) :=
  match a.states[s]? with
  | some state => .ok state
  | none => .error (.invalidState s a.size)

/-- The weight of a state that must exist. -/
def findFinal (a : Automaton W) (s : Nat) : Except Error (Option W) :=
  (a.findState s).map (·.final)

/-- The arcs of a state that must exist. -/
def findArcs (a : Automaton W) (s : Nat) : Except Error (Array (Arc W)) :=
  (a.findState s).map (·.arcs)

/-- An arc by its position at a state; both must exist. -/
def findArc (a : Automaton W) (s index : Nat) : Except Error (Arc W) := do
  let arcs ← a.findArcs s
  match arcs[index]? with
  | some arc => .ok arc
  | none => .error (.invalidArc s index arcs.size)

/-- The number of arcs of a state that have no label on one side. -/
def findEpsilons (a : Automaton W) (side : Side) (s : Nat) : Except Error Nat :=
  (a.findArcs s).map fun arcs => arcs.countP fun arc => arc.label side == epsilon

/-- The number of arcs of all states. -/
def arcCount (a : Automaton W) : Nat :=
  a.states.foldl (fun count state => count + state.arcs.size) 0

/-! ### Symbol tables -/

/-- The symbol table of one side. -/
def symbols (a : Automaton W) : Side → Option SymbolTable
  | .input => a.inputSymbols
  | .output => a.outputSymbols

/-- The automaton with the table of one side attached, or detached. Symbol tables have no part in the
properties, so these stay known. -/
def withSymbols (a : Automaton W) (side : Side) (table : Option SymbolTable) : Automaton W :=
  match side with
  | .input => { a with inputSymbols := table }
  | .output => { a with outputSymbols := table }

/-! ### What all states share -/

/-- The automaton with each state changed. Where there is no state nothing changes, and what is known
stays known. -/
def mapStates (f : State W → State W) (a : Automaton W) : Automaton W :=
  if a.states.isEmpty then a else { a with states := a.states.map f, cache := {} }

@[simp] theorem size_mapStates (f : State W → State W) (a : Automaton W) :
    (mapStates f a).size = a.size := by
  by_cases h : a.states.isEmpty <;> simp [mapStates, size, h]

@[simp] theorem size_withSymbols (a : Automaton W) (side : Side) (table : Option SymbolTable) :
    (a.withSymbols side table).size = a.size := by
  cases side <;> rfl

@[simp] theorem symbols_withSymbols (a : Automaton W) (side : Side) (table : Option SymbolTable) :
    (a.withSymbols side table).symbols side = table := by
  cases side <;> rfl

@[simp] theorem cache_withSymbols (a : Automaton W) (side : Side) (table : Option SymbolTable) :
    (a.withSymbols side table).cache = a.cache := by
  cases side <;> rfl

/-- The automaton that also knows what another copy of it has found out. -/
def learn (a : Automaton W) (cache : PropertyCache) : Automaton W :=
  { a with cache := a.cache.merge cache }

end Automaton

end Transducer
