import Transducer.Automaton.Basic
import Transducer.Binary.Layout
import Transducer.Text.Utf8

/-!
# Storing automata

`toBytes` stores an automaton. Everything that is counted, and every state, has to fit into a word.
-/

namespace Transducer.Binary

/-- A number as a word, if it fits. `what` says what the number counts. -/
def toWord (what : String) (n : Nat) : Except Malformation UInt32 :=
  if n < UInt32.size then .ok (UInt32.ofNat n) else .error (.tooLarge what n)

/-- The bytes of a text, after their number. -/
def textBytes (text : String) : Except Malformation (List UInt8) := do
  let bytes := Text.encode text
  let length ← toWord "string length" bytes.length
  return wordBytes length ++ bytes

/-- The bytes of a symbol table: its name, the available key, the number of bindings, and each binding
with its key first. -/
def tableBytes (table : SymbolTable) : Except Malformation (List UInt8) := do
  let name ← textBytes table.name
  let count ← toWord "symbol count" table.size
  let entries ← table.entries.mapM fun (key, symbol) => return wordBytes key ++ (← textBytes symbol)
  return name ++ wordBytes table.availableKey ++ wordBytes count ++ entries.flatten

variable {W : Type} [Weight W] [Costed W]

/-- The record of an arc. -/
def arcRecord (arc : Arc W) : Except Malformation ArcRecord := do
  let target ← toWord "state id" arc.target
  return { ilabel := arc.ilabel, olabel := arc.olabel, weight := Costed.cost arc.weight, target }

/-- The record of a state and those of its arcs. -/
def stateRecords (state : State W) : Except Malformation (StateRecord × List ArcRecord) := do
  let count ← toWord "arc count" state.arcs.size
  let arcs ← state.arcs.toList.mapM arcRecord
  return ({ final := Costed.cost (state.final.getD 0), arcs := count }, arcs)

/-- The header of an automaton with the given number of arcs. -/
def header (a : Automaton W) (arcs : Nat) : Except Malformation Header := do
  let bit (side : Side) : UInt32 := if (a.symbols side).isSome then flag side else 0
  let start ← match a.start with
    | some start => toWord "start state" start
    | none => .ok noStart
  let states ← toWord "state count" a.size
  return { magic, version, weights := (Costed.kind W).tag, flags := bit .input ||| bit .output, start,
           states, arcs := UInt64.ofNat arcs }

/-- The bytes of the symbol table of a side, if there is one. -/
def symbolBytes (a : Automaton W) (side : Side) : Except Malformation (List UInt8) :=
  match a.symbols side with
  | some table => tableBytes table
  | none => .ok []

/-- The bytes of an automaton, or what does not fit. -/
def encode (a : Automaton W) : Except Malformation (List UInt8) := do
  let records ← a.states.toList.mapM stateRecords
  let arcs := records.flatMap (·.2)
  let header ← header a arcs.length
  let input ← symbolBytes a .input
  let output ← symbolBytes a .output
  return header.bytes ++ input ++ output ++ records.flatMap (·.1.bytes) ++ arcs.flatMap (·.bytes)

end Transducer.Binary

namespace Transducer.Automaton

variable {W : Type} [Weight W] [Costed W]

/-- The bytes of the automaton. -/
def toBytes (a : Automaton W) : Except Error (List UInt8) := (Binary.encode a).mapError .format

end Transducer.Automaton
