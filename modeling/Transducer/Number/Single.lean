/-!
# Single-precision numbers

A number is kept as its binary32 word, so that storing and reading back loses nothing, the payload of
a NaN included. Sums and comparisons are those of the machine: they go through `Float32`.

A finite number has the magnitude `mantissa * 2 ^ (exponent - 149)`; `ofRatio` goes the other way and
rounds a positive fraction to the nearest number, a tie to the even mantissa.
-/

namespace Transducer

/-- A single-precision number, as its binary32 word. -/
structure Single where
  word : UInt32
  deriving DecidableEq, Inhabited, Repr

namespace Single

/-- The machine number with this word. -/
def toFloat32 (x : Single) : Float32 := Float32.ofBits x.word

/-- The word of a machine number. -/
def ofFloat32 (x : Float32) : Single := ⟨x.toBits⟩

/-- Positive zero. -/
def zero : Single := ⟨0⟩

/-- Positive infinity. -/
def infinity : Single := ⟨0x7F800000⟩

/-- Negative infinity. -/
def negInfinity : Single := ⟨0xFF800000⟩

/-! ### Sign and magnitude -/

/-- The word without its sign bit. -/
def magnitude (x : Single) : UInt32 := x.word &&& 0x7FFFFFFF

/-- Whether the sign bit is set. -/
def isNegative (x : Single) : Bool := x.word &&& 0x80000000 != 0

/-- Whether the word stands for no number. -/
def isNaN (x : Single) : Bool := 0x7F800000 < x.magnitude

/-- Whether the number is one of the two infinities. -/
def isInfinite (x : Single) : Bool := x.magnitude == 0x7F800000

/-- Whether the number is one of the two zeros. -/
def isZero (x : Single) : Bool := x.magnitude == 0

/-! ### Arithmetic -/

/-- The NaN with the same payload, marked as quiet. -/
def quiet (x : Single) : Single := ⟨x.word ||| 0x400000⟩

/-- Carries out an operation of the machine. A NaN among the operands passes through and becomes quiet,
the first one if both are NaN. -/
def carryOut (op : Float32 → Float32 → Float32) (x y : Single) : Single :=
  if x.isNaN then x.quiet
  else if y.isNaN then y.quiet
  else ofFloat32 (op x.toFloat32 y.toFloat32)

/-- Machine addition, rounded to nearest. -/
def add (x y : Single) : Single := carryOut (· + ·) x y

/-- Machine comparison; a NaN is not less than anything, nor anything less than it. -/
def lt (x y : Single) : Bool := x.toFloat32 < y.toFloat32

/-- Machine comparison; false if a NaN takes part. -/
def le (x y : Single) : Bool := x.toFloat32 ≤ y.toFloat32

/-- Machine equality: the two zeros are equal, and a NaN differs from itself. -/
def eq (x y : Single) : Bool := x.toFloat32 == y.toFloat32

/-! ### Mantissa and exponent -/

/-- The leading digit of a mantissa, which only the words of very small numbers lack. -/
def leadingBit : Nat := 0x800000

/-- The mantissa of a finite number, the leading digit included. -/
def mantissa (x : Single) : Nat :=
  let fraction := x.magnitude.toNat % leadingBit
  if x.magnitude.toNat < leadingBit then fraction else leadingBit + fraction

/-- The exponent of a finite number, counted from that of the smallest positive number. -/
def exponent (x : Single) : Nat :=
  x.magnitude.toNat / leadingBit - 1

/-! ### Rounding -/

/-- The nearest integer to a fraction, a tie to the even one. -/
def roundDiv (num den : Nat) : Nat :=
  let quotient := num / den
  let rest := num % den
  if den < 2 * rest ∨ (den = 2 * rest ∧ quotient % 2 = 1) then quotient + 1 else quotient

/-- The exponent at which the fraction `num / den`, given in units of the smallest positive number,
has a mantissa of at most 24 digits. -/
def scaleOf (num den : Nat) : Nat :=
  let guess := num.log2 - den.log2 - 24
  if num / (den <<< guess) < 2 * leadingBit then guess else guess + 1

/-- The nearest number to the positive fraction `num / den`, with the given sign. -/
def ofRatio (negative : Bool) (num den : Nat) : Single :=
  let num := num <<< 149
  let scale := scaleOf num den
  let word := min (scale * leadingBit + roundDiv num (den <<< scale)) 0x7F800000
  ⟨UInt32.ofNat (if negative then 0x80000000 + word else word)⟩

/-- The nearest number to an integer. -/
def ofInt (n : Int) : Single :=
  if n = 0 then zero else ofRatio (n < 0) n.natAbs 1

end Single

end Transducer
