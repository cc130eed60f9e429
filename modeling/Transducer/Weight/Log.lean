import Transducer.Weight.Cost

/-!
# Log weights

Negated natural logarithms of probabilities: the weight of alternatives is that of the sum of their
probabilities.
-/

namespace Transducer

/-- The negated logarithm of a probability; of alternatives the probabilities add up. -/
structure Log where
  cost : Single
  deriving DecidableEq, Inhabited, Repr

namespace Log

/-- The logarithm of `1 + x` for `x ≥ 0`, exact also where `1 + x` rounds to one: the error of that
rounding is divided out. -/
def logSucc (x : Float) : Float :=
  let y := 1 + x
  if y == 1 then x else if y.isFinite then y.log * (x / (y - 1)) else y

/-- The cost of two alternatives: the lesser cost, less what the other one adds to its probability. -/
def combine (x y : Single) : Single :=
  let (low, high) := if x.le y then (x, y) else (y, x)
  Single.carryOut (fun low high => low - (logSucc (low - high).exp.toFloat).toFloat32) low high

instance : Costed Log where
  kind := .log
  cost := cost
  ofCost := mk

instance : Weight Log where
  zero := ⟨.infinity⟩
  one := ⟨.zero⟩
  add a b :=
    if Cost.isUnreachable a.cost then b
    else if Cost.isUnreachable b.cost then a
    else ⟨combine a.cost b.cost⟩
  mul a b := ⟨Cost.chain a.cost b.cost⟩
  isZero a := Cost.isUnreachable a.cost
  isOne a := a.cost.isZero
  isMember a := Cost.isValid a.cost

instance : Tolerance Log Single where
  approxEq a b bound := Cost.approxEq a.cost b.cost bound

instance : ToString Log where
  toString a := Cost.text a.cost

end Log

end Transducer
