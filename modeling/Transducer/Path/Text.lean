import Transducer.Path.Chain
import Transducer.Text.Utf8

/-!
# Texts in automata

A text is added as a path with a label for each of its bytes or for each of its characters. Label zero is
epsilon, so the character zero leaves no trace.

`readLabels` reads such a path back. It demands that there is just one way to go at each state: one arc
from a state that is not final, until a final state without arcs.
-/

namespace Transducer

/-- The labels of the bytes of a text. -/
def byteLabels (text : String) : List Label := (Text.encode text).map fun byte => byte.toUInt32

/-- The labels of the characters of a text. -/
def charLabels (text : String) : List Label := text.toList.map fun c => c.val

/-- The byte that a label stands for. -/
def byteOf (label : Label) : Except Error UInt8 :=
  if label < 256 then .ok label.toUInt8 else .error (.labelNotText label)

/-- The character that a label stands for. -/
def charOf (label : Label) : Except Error Char :=
  if h : label.isValidChar then .ok ⟨label, h⟩ else .error (.labelNotText label)

/-- The text whose bytes the labels stand for. The label at fault is the first that is no byte or, if all
are bytes, the one at which they cease to be a text. -/
def textOfBytes (labels : List Label) : Except Error String := do
  let bytes ← labels.mapM byteOf
  match Text.decode? bytes with
  | some text => return text
  | none => throw (.labelNotText ((bytes.getD (Text.validPrefix bytes) 0).toUInt32))

/-- The text whose characters the labels stand for. -/
def textOfChars (labels : List Label) : Except Error String :=
  (labels.mapM charOf).map String.ofList

namespace Automaton

variable {W : Type}

/-- The labels on one side of the way from a state on, without epsilon. `visited` are the states on the
way so far; the first argument bounds how many more there can be. -/
def walk (a : Automaton W) (side : Side) : Nat → List Nat → Nat → Except Error (List Label)
  | 0, _, s => .error (.ambiguousPath (.cycle s))
  | bound + 1, visited, s =>
    if visited.contains s then .error (.ambiguousPath (.cycle s))
    else do
      let state ← a.findState s
      match state.arcs.toList, state.final.isSome with
      | [], true => return []
      | [], false => throw (.ambiguousPath (.deadEnd s))
      | [arc], false =>
        let rest ← a.walk side bound (s :: visited) arc.target
        return if arc.label side = epsilon then rest else arc.label side :: rest
      | arcs, final => throw (.ambiguousPath (.branch s arcs.length final))

/-- The labels on one side of the only way through the automaton, without epsilon. -/
def readLabels (a : Automaton W) (side : Side) : Except Error (List Label) :=
  match a.start with
  | none => .error (.ambiguousPath .noStart)
  | some start => a.walk side (a.size + 1) [] start

/-- The text whose bytes the automaton reads or writes. -/
def readText (a : Automaton W) (side : Side) : Except Error String := do
  textOfBytes (← a.readLabels side)

/-- The text whose characters the automaton reads or writes. -/
def readChars (a : Automaton W) (side : Side) : Except Error String := do
  textOfChars (← a.readLabels side)

variable [Weight W]

/-- Adds a path that reads and writes the bytes of a text. -/
def addText (a : Automaton W) (text : String) : Nat × Automaton W :=
  a.addPath (byteLabels text) (byteLabels text) 1

/-- Adds a path that reads and writes the characters of a text. -/
def addChars (a : Automaton W) (text : String) : Nat × Automaton W :=
  a.addPath (charLabels text) (charLabels text) 1

/-- Adds a path that reads the bytes of one text and writes those of another. -/
def addTextPair (a : Automaton W) (input output : String) (weight : W) : Nat × Automaton W :=
  a.addPath (byteLabels input) (byteLabels output) weight

end Automaton

end Transducer
