import Transducer.Weight.Cost

/-!
# Tropical weights

Costs of which the least counts: the weight of alternatives is the cheaper one. Where neither is
cheaper the first is kept.
-/

namespace Transducer

/-- A cost; of two alternatives the cheaper counts. -/
structure Tropical where
  cost : Single
  deriving DecidableEq, Inhabited, Repr

namespace Tropical

instance : Costed Tropical where
  kind := .tropical
  cost := cost
  ofCost := mk

instance : Weight Tropical where
  zero := ⟨.infinity⟩
  one := ⟨.zero⟩
  add a b := if b.cost.lt a.cost then b else a
  mul a b := ⟨Cost.chain a.cost b.cost⟩
  isZero a := Cost.isUnreachable a.cost
  isOne a := a.cost.isZero
  isMember a := Cost.isValid a.cost

instance : Tolerance Tropical Single where
  approxEq a b bound := Cost.approxEq a.cost b.cost bound

instance : Ranked Tropical where
  better a b := a.cost.lt b.cost

instance : ToString Tropical where
  toString a := Cost.text a.cost

end Tropical

end Transducer
