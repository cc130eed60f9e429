import Transducer.Number.Decimal
import Transducer.Text.Quoted
import Transducer.Weight.Basic

/-!
# Weights that are costs

Both stored kinds of weights are single-precision costs: a cost of zero is the free step and an
infinite cost is no path. This module holds what they share: the products, which add costs, the tests,
comparison up to a bound, and the text of a cost. The kinds differ in how they combine alternatives and
are in `Transducer.Weight.Tropical` and `Transducer.Weight.Log`.
-/

namespace Transducer

/-- Weights that are kept as one single-precision cost. -/
class Costed (W : Type) where
  /-- Which kind of weight it is. -/
  kind : WeightKind
  /-- The cost of a weight. -/
  cost : W → Single
  /-- The weight of a cost. -/
  ofCost : Single → W

namespace Cost

/-- Whether the cost is that of no path. -/
def isUnreachable (x : Single) : Bool := x == .infinity

/-- The cost of two consecutive steps. Nothing follows a step that cannot be taken, whatever the other
cost is. -/
def chain (x y : Single) : Single :=
  if isUnreachable x || isUnreachable y then .infinity else x.add y

/-- Whether a word is a cost: any number but negative infinity. -/
def isValid (x : Single) : Bool := !x.isNaN && x != .negInfinity

/-- Equality up to a bound. Infinite costs are equal only to themselves. -/
def approxEq (x y bound : Single) : Bool :=
  if x.isInfinite || y.isInfinite then x.eq y
  else x.le (y.add bound) && y.le (x.add bound)

/-- The text of a cost. -/
def text (x : Single) : String :=
  if isUnreachable x then "Infinity" else x.text

/-- The bound that is used where none is given, a 1024th. -/
def tolerance : Single := ⟨0x3A800000⟩

end Cost

/-- A text that is not a weight of the given kind. -/
structure MalformedWeight where
  kind : WeightKind
  input : String
  deriving DecidableEq, Repr

/-- What is wrong, in words. -/
def MalformedWeight.message (e : MalformedWeight) : String :=
  "invalid " ++ e.kind.name ++ " weight: " ++ Text.quoted e.input

/-- The weight that a text stands for, blanks around it ignored. A NaN is not accepted. -/
def parseWeight {W : Type} [Costed W] (input : String) : Except MalformedWeight W :=
  match Single.ofText? (Text.trim input.toList) with
  | some x => if x.isNaN then .error ⟨Costed.kind W, input⟩ else .ok (Costed.ofCost x)
  | none => .error ⟨Costed.kind W, input⟩

end Transducer
