import Transducer.Automaton.Basic
import Transducer.Binary.Layout
import Transducer.Text.Utf8

/-!
# Reading stored automata

`ofBytes` reads an automaton back and refuses whatever is not a stored automaton with weights of the
expected kind: no byte may be missing or left over, counts have to agree, and every state that an arc or
the start refers to has to exist. The first fault decides the error.
-/

namespace Transducer.Binary

/-- What is left to read, and how much has been read. -/
structure Cursor where
  rest : List UInt8
  offset : Nat := 0

/-- A reader of a part of the data. -/
abbrev Reader (α : Type) := StateT Cursor (Except Malformation) α

namespace Reader

/-- The next bytes. -/
def take (count : Nat) : Reader (List UInt8) := fun cursor =>
  let available := cursor.rest.length
  if available < count then .error (.truncated count cursor.offset available)
  else .ok (cursor.rest.take count, ⟨cursor.rest.drop count, cursor.offset + count⟩)

/-- A word of four bytes. -/
def word : Reader UInt32 := return ofWordBytes (← take 4)

/-- A text after the number of its bytes. -/
def text : Reader String := do
  let length ← word
  let offset := (← get).offset
  match Text.decode? (← take length.toNat) with
  | some text => return text
  | none => throw (.encoding offset)

/-- The first `count` pieces of some bytes, each of the given size. -/
def pieces (size : Nat) : Nat → List UInt8 → List (List UInt8)
  | 0, _ => []
  | count + 1, bytes => bytes.take size :: pieces size count (bytes.drop size)

/-- Records of one size. Their size in all has to be a number of eight bytes. -/
def records (size count : Nat) : Reader (List (List UInt8)) := do
  if UInt64.size ≤ count * size then throw (.tooManyRecords count)
  return pieces size count (← take (count * size))

/-- Adds the next bindings to a symbol table. -/
def entries : Nat → SymbolTable → Reader SymbolTable
  | 0, table => return table
  | count + 1, table => do
    let key ← word
    let symbol ← text
    match table.addWithKey symbol key with
    | .ok (_, table) => entries count table
    | .error e => throw (.table table.name e.message)

/-- A symbol table. Its available key may be higher than the bindings make it, but not lower. -/
def table : Reader SymbolTable := do
  let name ← text
  let availableKey ← word
  let count ← word
  let table ← entries count.toNat (.empty name)
  if availableKey < table.availableKey then throw (.availableKey name availableKey)
  return table.raiseAvailableKey availableKey

/-- The symbol table of a side, if the flags announce it. -/
def symbols (flags : UInt32) (side : Side) : Reader (Option SymbolTable) := do
  if flags &&& flag side = 0 then return none
  return some (← table)

end Reader

/-- The header at the beginning of the data, with the kind of weights that it names. -/
def readHeader : Reader (Header × WeightKind) := do
  let header := Header.ofBytes (← Reader.take headerSize)
  if header.magic ≠ magic then throw .magic
  if header.version ≠ version then throw (.version header.version.toNat)
  match WeightKind.ofTag? header.weights with
  | some kind => return (header, kind)
  | none => throw (.weightTag header.weights.toNat)

/-- The header of stored data, with the kind of weights that it names. -/
def headerOf (bytes : List UInt8) : Except Error (Header × WeightKind) :=
  ((readHeader.run ⟨bytes, 0⟩).map (·.1)).mapError .format

section

variable {W : Type} [Weight W] [Costed W]

/-- The weight of a cost, which must be one. -/
def weightOf (fault : Malformation) (cost : Single) : Except Malformation W :=
  let weight : W := Costed.ofCost cost
  if isMember weight then .ok weight else .error fault

/-- The arc of a record, at a state of an automaton of the given size. -/
def arcOf (size s : Nat) (record : ArcRecord) : Except Malformation (Arc W) := do
  let target := record.target.toNat
  if size ≤ target then throw (.target s target size)
  let weight ← weightOf (.arcWeight s record.weight) record.weight
  return ⟨record.ilabel, record.olabel, weight, target⟩

/-- The states of their records, with the arcs that follow for each of them. -/
def statesOf (size : Nat) : Nat → List StateRecord → List ArcRecord →
    Except Malformation (List (State W))
  | _, [], _ => return []
  | s, record :: records, arcs => do
    let weight ← weightOf (.finalWeight s record.final) record.final
    let own ← (arcs.take record.arcs.toNat).mapM (arcOf size s)
    let states ← statesOf size (s + 1) records (arcs.drop record.arcs.toNat)
    return { final := if isZero weight then none else some weight, arcs := own.toArray } :: states

/-- The start that a header names. -/
def startOf (size : Nat) (start : UInt32) : Except Malformation (Option Nat) :=
  if start = noStart then .ok none
  else if size ≤ start.toNat then .error (.start start.toNat size)
  else .ok (some start.toNat)

/-- An automaton, which takes up all the data. -/
def readAutomaton : Reader (Automaton W) := do
  let (header, kind) ← readHeader
  if kind ≠ Costed.kind W then throw (.otherKind kind (Costed.kind W))
  let inputSymbols ← Reader.symbols header.flags .input
  let outputSymbols ← Reader.symbols header.flags .output
  let size := header.states.toNat
  let records := (← Reader.records stateRecordSize size).map StateRecord.ofBytes
  let counted := records.foldl (fun count record => count + record.arcs.toNat) 0
  if counted ≠ header.arcs.toNat then throw (.arcCount header.arcs.toNat counted)
  let arcs := (← Reader.records arcRecordSize counted).map ArcRecord.ofBytes
  let left := (← get).rest.length
  if left ≠ 0 then throw (.trailing left)
  let states ← statesOf size 0 records arcs
  let start ← startOf size header.start
  return { states := states.toArray, start, inputSymbols, outputSymbols }

end

end Transducer.Binary

namespace Transducer.Automaton

variable {W : Type} [Weight W] [Costed W]

/-- The automaton that the bytes store. -/
def ofBytes (bytes : List UInt8) : Except Error (Automaton W) :=
  ((Binary.readAutomaton.run ⟨bytes, 0⟩).map (·.1)).mapError .format

end Transducer.Automaton
