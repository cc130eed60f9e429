import Transducer.Number.Single
import Transducer.Text.Fields

/-!
# Decimal text of numbers

A number is written with the fewest digits that read back as itself; of those the nearest to it, a tie
upwards. The digits are laid out without an exponent, however long that is. `Single.text` writes and
`Single.ofText?` reads; reading rounds to the nearest number and accepts exponents, a missing part on
one side of the point, and the words for infinity and NaN.

Every step is exact arithmetic on naturals.
-/

namespace Transducer

/-- The positive decimal `digits * 10 ^ exponent`. -/
structure Decimal where
  digits : Nat
  exponent : Int
  deriving DecidableEq, Repr

namespace Decimal

/-- The factors of numerator and denominator that multiply a fraction by `10 ^ e`. -/
def powers (e : Int) : Nat × Nat := (Nat.pow 10 e.toNat, Nat.pow 10 (-e).toNat)

/-- The decimal written out without an exponent. -/
def layout (d : Decimal) : List Char :=
  let ds := Nat.toDigits 10 d.digits
  let places := (-d.exponent).toNat
  if places = 0 then
    ds ++ List.replicate d.exponent.toNat '0'
  else if places < ds.length then
    ds.take (ds.length - places) ++ '.' :: ds.drop (ds.length - places)
  else
    '0' :: '.' :: List.replicate (places - ds.length) '0' ++ ds

/-- The nearest number to a decimal. Decimals far outside the range of numbers are decided by their
order of magnitude alone. -/
def toSingle (negative : Bool) (d : Decimal) : Single :=
  let order := (Nat.toDigits 10 d.digits).length + d.exponent
  if d.digits = 0 ∨ order < -60 then
    ⟨if negative then 0x80000000 else 0⟩
  else if 60 < order then
    if negative then .negInfinity else .infinity
  else
    let (up, down) := powers d.exponent
    .ofRatio negative (d.digits * up) down

end Decimal

namespace Single

/-! ### The shortest decimal -/

/-- The bounds between which a positive finite number is the nearest one, in units of a quarter of the
smallest positive number. Below a power of two the neighbour is only half as far away. -/
def bounds (x : Single) : Nat × Nat :=
  let below := if x.mantissa = leadingBit ∧ 0 < x.exponent then 1 else 2
  ((4 * x.mantissa - below) <<< x.exponent, (4 * x.mantissa + 2) <<< x.exponent)

/-- Whether a decimal reads back as the positive finite number `x`; a bound belongs to the number with
the even mantissa. -/
def readsBack (x : Single) (d : Decimal) : Bool :=
  let (up, down) := Decimal.powers d.exponent
  let value := (d.digits * up) <<< 151
  let (low, high) := x.bounds
  if x.mantissa % 2 = 0 then low * down ≤ value ∧ value ≤ high * down
  else low * down < value ∧ value < high * down

/-- The nearer to `x` of two neighbouring decimals `c` and `c + 1` at the given exponent, the upper
one on a tie. -/
def nearer (x : Single) (c : Nat) (exponent : Int) : Decimal :=
  let (up, down) := Decimal.powers exponent
  let twice := ((8 * x.mantissa) <<< x.exponent) * down
  if twice < ((2 * c + 1) * up) <<< 151 then ⟨c, exponent⟩ else ⟨c + 1, exponent⟩

/-- The decimals at the given exponent that read back as `x`: at most its two neighbours there. -/
def candidate? (x : Single) (exponent : Int) : Option Decimal :=
  let (up, down) := Decimal.powers exponent
  let c := ((4 * x.mantissa) <<< x.exponent) * down / (up <<< 151)
  match 0 < c && x.readsBack ⟨c, exponent⟩, x.readsBack ⟨c + 1, exponent⟩ with
  | true, true => some (x.nearer c exponent)
  | true, false => some ⟨c, exponent⟩
  | false, true => some ⟨c + 1, exponent⟩
  | false, false => none

/-- The decimal with the fewest digits that reads back as the positive finite number `x`. The exponents
are tried downwards from above the greatest number; at the last one every number has a decimal. -/
def shortest (x : Single) : Decimal :=
  ((List.range 100).findSome? fun (i : Nat) => x.candidate? (45 - (i : Int))).getD ⟨0, 0⟩

/-! ### Writing -/

/-- The text of a number. -/
def text (x : Single) : String :=
  if x.isNaN then "NaN"
  else
    let sign := if x.isNegative then "-" else ""
    if x.isInfinite then sign ++ "inf"
    else if x.isZero then sign ++ "0"
    else sign ++ String.ofList x.shortest.layout

/-! ### Reading -/

/-- The digits of a written number: those before the point, those after it, and the exponent. -/
structure Written where
  whole : List Char
  fraction : List Char
  exponent : Int

/-- The exponent after its mark: an optional sign and at least one digit. -/
def exponentOf? (cs : List Char) : Option Int :=
  match cs with
  | '-' :: '+' :: _ => none
  | '-' :: ds => (Text.natural? ds).map fun n => -(n : Int)
  | ds => (Text.natural? ds).map fun n => (n : Int)

/-- An unsigned number in decimal notation, cut into its parts. -/
def written? (cs : List Char) : Option Written := do
  let (front, tail) := cs.span fun c => !(c == 'e' || c == 'E')
  let (whole, rest) := front.span fun c => c != '.'
  let fraction := rest.drop 1
  guard !(whole.isEmpty && fraction.isEmpty)
  let exponent ← match tail with
    | [] => some 0
    | _ :: ds => exponentOf? ds
  some ⟨whole, fraction, exponent⟩

/-- The number that an unsigned text stands for, with the given sign. -/
def magnitudeOf? (negative : Bool) (cs : List Char) : Option Single :=
  match String.ofList (cs.map Char.toLower) with
  | "inf" | "infinity" => some (if negative then .negInfinity else .infinity)
  | "nan" => some ⟨0x7FC00000⟩
  | _ => do
    let parts ← written? cs
    let digits ← Text.digitsFrom? 0 (parts.whole ++ parts.fraction)
    some (Decimal.toSingle negative ⟨digits, parts.exponent - parts.fraction.length⟩)

/-- The number that a text stands for: an optional sign, then a decimal number or one of the words for
infinity and NaN in any case. -/
def ofText? (cs : List Char) : Option Single :=
  match cs with
  | '-' :: ds => magnitudeOf? true ds
  | '+' :: ds => magnitudeOf? false ds
  | ds => magnitudeOf? false ds

end Single

end Transducer
