/-!
# Blanks, fields and lines

How a text is cut into pieces. Blank are the twenty-five characters of the Unicode property
White_Space. `trim` removes blanks at both ends, `fields` lists the runs of other characters, and
`byteLines` cuts a stream of bytes after each line feed; a last line need not be terminated.
`natural?` reads an unsigned decimal number.
-/

namespace Transducer.Text

/-- Whether a character is white space. -/
def isBlank (c : Char) : Bool :=
  let n := c.toNat
  (0x9 ≤ n && n ≤ 0xD) || n == 0x20 || n == 0x85 || n == 0xA0 || n == 0x1680 ||
    (0x2000 ≤ n && n ≤ 0x200A) || n == 0x2028 || n == 0x2029 || n == 0x202F || n == 0x205F ||
    n == 0x3000

/-- The text without the characters at its end that satisfy `p`. -/
def dropEnd (p : Char → Bool) (cs : List Char) : List Char :=
  (cs.reverse.dropWhile p).reverse

/-- The text without the blanks at its two ends. -/
def trim (cs : List Char) : List Char :=
  dropEnd isBlank (cs.dropWhile isBlank)

/-- The maximal runs of characters that are not blank, in order. -/
def fields (cs : List Char) : List (List Char) :=
  (cs.splitOnP isBlank).filter (!·.isEmpty)

/-- The lines of a stream of bytes, without their line feeds. The part after the last line feed is a
line only if it holds something. -/
def byteLines (bytes : List UInt8) : List (List UInt8) :=
  let pieces := bytes.splitOn 10
  if pieces.getLast? = some [] then pieces.dropLast else pieces

/-- The value of a digit. -/
def digit? (c : Char) : Option Nat :=
  if '0' ≤ c ∧ c ≤ '9' then some (c.toNat - '0'.toNat) else none

/-- The value of a run of digits after `n`, or nothing if one of them is no digit. -/
def digitsFrom? (n : Nat) : List Char → Option Nat
  | [] => some n
  | c :: cs => (digit? c).bind fun d => digitsFrom? (10 * n + d) cs

/-- An unsigned decimal number: at least one digit, after at most one plus sign. -/
def natural? (cs : List Char) : Option Nat :=
  match cs with
  | [] | ['+'] => none
  | '+' :: ds => digitsFrom? 0 ds
  | ds => digitsFrom? 0 ds

end Transducer.Text
