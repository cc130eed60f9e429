/-!
# Text in bytes

Texts are stored as UTF-8. `decode?` reads bytes back, and `validPrefix` says how far a sequence of
bytes can be read: it is the length of its longest beginning that is a text.
-/

namespace Transducer.Text

/-- The bytes of a text. -/
def encode (s : String) : List UInt8 :=
  s.toByteArray.data.toList

/-- The text that the bytes encode. -/
def decode? (bytes : List UInt8) : Option String :=
  String.fromUTF8? bytes.toByteArray

/-- The length of the longest beginning of `bytes` that encodes a text. -/
def validPrefix (bytes : List UInt8) : Nat :=
  ((List.range (bytes.length + 1)).reverse.find? fun n => (decode? (bytes.take n)).isSome).getD 0

end Transducer.Text
