import Transducer.Automaton.Edit

/-!
# Changes of labels and of the order of arcs

Projection puts the label of one side on both. Sorting puts the arcs of each state into the order of
their labels. Re-keying moves labels from the numbers that one symbol table gives to their symbols to
the numbers that another table gives to the same symbols.
-/

namespace Transducer

namespace Automaton

variable {W : Type}

/-- The automaton with the label of one side on both sides, and with the symbol table of that side. -/
def project (a : Automaton W) (side : Side) : Automaton W :=
  (a.mapStates fun state =>
    { state with arcs := state.arcs.map fun arc => arc.withLabel side.other (arc.label side) }).withSymbols
      side.other (a.symbols side)

/-- Whether an arc may stand before another one: by the label on the given side, then by the other
label. -/
def arcLE (side : Side) (arc other : Arc W) : Bool :=
  arc.label side < other.label side ||
    (arc.label side == other.label side && arc.label side.other ≤ other.label side.other)

/-- The automaton with the arcs of each state sorted by the label on the given side, then by the other
label. Arcs with equal labels stay in their order. -/
def sortArcs (a : Automaton W) (side : Side) : Automaton W :=
  a.mapStates fun state =>
    { state with arcs := (state.arcs.toList.mergeSort (arcLE side)).toArray }

/-- The number that `target` gives to the symbol of a label. Epsilon is not a symbol and stays. -/
def rekeyLabel? (source target : SymbolTable) (label : Label) : Option Label :=
  if label = epsilon then some epsilon
  else (source.symbol? label).bind target.key?

/-- An arc with the label on one side re-keyed, if that side has a table to re-key from. -/
def rekeySide (source : Option SymbolTable) (target : SymbolTable) (side : Side) (s index : Nat)
    (arc : Arc W) : Except Error (Arc W) :=
  match source with
  | none => .ok arc
  | some source =>
    match rekeyLabel? source target (arc.label side) with
    | some label => .ok (arc.withLabel side label)
    | none => .error (.unknownSymbol s index (arc.label side) side)

/-- The table to re-key a side from, if the side is to be re-keyed at all. -/
def rekeySource (a : Automaton W) (side : Side) (wanted : Bool) :
    Except Error (Option SymbolTable) :=
  if wanted then
    match a.symbols side with
    | some table => .ok (some table)
    | none => .error (.config (.noTable side))
  else .ok none

/-- The automaton with the labels of the chosen sides re-keyed to a table, which is attached to these
sides. -/
def rekey (a : Automaton W) (target : SymbolTable) (input output : Bool) :
    Except Error (Automaton W) := do
  let isource ← a.rekeySource .input input
  let osource ← a.rekeySource .output output
  let states ← a.states.toList.zipIdx.mapM fun (state, s) => do
    let arcs ← state.arcs.toList.zipIdx.mapM fun (arc, index) => do
      rekeySide osource target .output s index (← rekeySide isource target .input s index arc)
    return { state with arcs := arcs.toArray : State W }
  let relabelled := if states.isEmpty then a else { a with states := states.toArray, cache := {} }
  let relabelled := if input then relabelled.withSymbols .input (some target) else relabelled
  return if output then relabelled.withSymbols .output (some target) else relabelled

end Automaton

/-- Re-keys the chosen sides of an automaton, or changes nothing. -/
def Edit.rekey {W : Type} (target : SymbolTable) (input output : Bool) : Edit W Unit := fun a =>
  match a.rekey target input output with
  | .ok rekeyed => .ok () rekeyed
  | .error e => .error e a

end Transducer
