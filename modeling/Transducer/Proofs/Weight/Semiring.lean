import Mathlib
import Transducer.Proofs.Weight.Exact
import Transducer.Proofs.Weight.Laws

/-!
# Weights that form a semiring

Sums that may be taken in any order, and products that distribute over them. Sums need not be idempotent: those of
masses are not, and adding up the masses of all paths is what logarithmic weights do when they are read without
rounding. Exact costs are the other case.

Weights with these laws are a `Semiring`, so that what is known of finite sums can be used for them.
-/

namespace Transducer

/-- The laws of a semiring. The test for the weight of no path is for zero. -/
class LawfulSemiring (W : Type) [Weight W] : Prop extends LawfulMul W where
  add_assoc : ∀ u v w : W, u + v + w = u + (v + w)
  add_comm : ∀ v w : W, v + w = w + v
  zero_add : ∀ w : W, 0 + w = w
  mul_add : ∀ u v w : W, u * (v + w) = u * v + u * w
  add_mul : ∀ u v w : W, (u + v) * w = u * w + v * w
  zero_mul : ∀ w : W, 0 * w = 0
  mul_zero : ∀ w : W, w * 0 = 0
  isZero_iff : ∀ w : W, isZero w = true ↔ w = 0

namespace LawfulSemiring

/-- Weights with the laws of a semiring are one. -/
scoped instance toSemiring (W : Type) [Weight W] [LawfulSemiring W] : Semiring W where
  add_assoc := add_assoc
  zero_add := zero_add
  add_zero w := (add_comm w 0).trans (zero_add w)
  add_comm := add_comm
  nsmul := nsmulRec
  mul_assoc := LawfulMul.mul_assoc
  one_mul := LawfulMul.one_mul
  mul_one := LawfulMul.mul_one
  left_distrib := mul_add
  right_distrib := add_mul
  zero_mul := zero_mul
  mul_zero := mul_zero

end LawfulSemiring

/-- A mass: alternatives add up, consecutive steps multiply. -/
structure Mass (K : Type) where
  mass : K
  deriving DecidableEq

namespace Mass

variable {K : Type} [Semiring K]

instance [DecidableEq K] : Weight (Mass K) where
  zero := ⟨0⟩
  one := ⟨1⟩
  add v w := ⟨v.mass + w.mass⟩
  mul v w := ⟨v.mass * w.mass⟩
  isZero v := v.mass = 0
  isOne v := v.mass = 1
  isMember _ := true

instance [LinearOrder K] : Tolerance (Mass K) K where
  approxEq v w bound := v.mass ≤ w.mass + bound ∧ w.mass ≤ v.mass + bound

instance [DecidableEq K] : LawfulSemiring (Mass K) where
  mul_assoc u v w := congrArg mk (mul_assoc u.mass v.mass w.mass)
  one_mul w := congrArg mk (one_mul w.mass)
  mul_one w := congrArg mk (mul_one w.mass)
  add_assoc u v w := congrArg mk (add_assoc u.mass v.mass w.mass)
  add_comm v w := congrArg mk (add_comm v.mass w.mass)
  zero_add w := congrArg mk (zero_add w.mass)
  mul_add u v w := congrArg mk (mul_add u.mass v.mass w.mass)
  add_mul u v w := congrArg mk (add_mul u.mass v.mass w.mass)
  zero_mul w := congrArg mk (zero_mul w.mass)
  mul_zero w := congrArg mk (mul_zero w.mass)
  isZero_iff := by
    rintro ⟨mass⟩
    exact decide_eq_true_iff.trans ⟨congrArg mk, congrArg Mass.mass⟩

instance {K : Type} [CommSemiring K] [DecidableEq K] : CommMul (Mass K) where
  mul_comm v w := congrArg mk (mul_comm v.mass w.mass)

/-- Without a bound, masses are approximately equal only if they are equal. -/
theorem approxEq_zero_iff [LinearOrder K] (v w : Mass K) : approxEq v w (0 : K) = true ↔ v = w := by
  obtain ⟨v⟩ := v
  obtain ⟨w⟩ := w
  refine decide_eq_true_iff.trans ?_
  rw [add_zero, add_zero, mk.injEq]
  exact le_antisymm_iff.symm

end Mass

/-- Exact costs form a semiring, since what two costs have in common can be taken out of their minimum. -/
instance {K : Type} [AddCommGroup K] [LinearOrder K] [IsOrderedAddMonoid K] : LawfulSemiring (ExactCost K) where
  add_assoc u v w := ExactCost.ext_cost (by simp [min_assoc])
  add_comm v w := ExactCost.ext_cost (by simp [min_comm])
  zero_add w := ExactCost.ext_cost (by simp)
  mul_add u v w := ExactCost.ext_cost (by simp [min_add_add_left])
  add_mul u v w := ExactCost.ext_cost (by simp [min_add_add_right])
  zero_mul w := ExactCost.ext_cost (by simp)
  mul_zero w := ExactCost.ext_cost (by simp)
  isZero_iff w := (ExactCost.isZero_iff w).trans ⟨ExactCost.ext_cost, congrArg ExactCost.cost⟩

end Transducer
