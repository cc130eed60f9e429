import Transducer.SymbolTable.Basic
import Transducer.Text.Fields
import Transducer.Text.Utf8

/-!
# Symbol tables as text

A table is written with one binding a line: the symbol, a tab and the key. Reading accepts any blanks
between and around the two, skips lines of blanks only, and adds the bindings in the order of the lines.
The first line that is at fault decides the error.
-/

namespace Transducer.SymbolTable

/-- The text of a table. -/
def listing (table : SymbolTable) : String :=
  String.join (table.entries.map fun entry => entry.2 ++ "\t" ++ toString entry.1 ++ "\n")

/-- The key that a field stands for. -/
def parseKey? (field : List Char) : Option Label :=
  (Text.natural? field).bind fun n => if n < UInt32.size then some (UInt32.ofNat n) else none

/-- The table after one more line. Lines are counted from one. -/
def addLine (table : SymbolTable) (number : Nat) (line : String) : Except Error SymbolTable :=
  let text := Text.dropEnd (fun c => c == '\r' || c == '\n') line.toList
  match Text.fields text with
  | [] => .ok table
  | [symbol, field] =>
    match parseKey? field with
    | some key => (table.addWithKey (String.ofList symbol) key).map (·.2)
    | none => .error (.format (.symbolKey number (String.ofList field)))
  | _ => .error (.format (.symbolLine number (String.ofList text)))

/-- The table of these lines. -/
def ofLines (name : String) (lines : List String) : Except Error SymbolTable :=
  (lines.zipIdx 1).foldlM (fun table line => table.addLine line.2 line.1) (empty name)

/-- The table written in these bytes. A line that is not UTF-8 is an error of its own, found when the
lines before it have been read. -/
def ofBytes (name : String) (bytes : List UInt8) : Except Error SymbolTable :=
  ((Text.byteLines bytes).zipIdx 1).foldlM
    (fun table line =>
      match Text.decode? line.1 with
      | some text => table.addLine line.2 text
      | none => .error .notText)
    (empty name)

/-- The table written in this text. -/
def ofText (name : String) (text : String) : Except Error SymbolTable :=
  ofBytes name (Text.encode text)

end Transducer.SymbolTable
