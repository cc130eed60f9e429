import Mathlib
import Transducer.Weight.Basic

/-!
# Laws of weights

The operations of `Weight` come without laws, since those on machine numbers hold only up to rounding.
Where weights are read as exact numbers, a theorem names the laws that it needs by the classes of this
module.
-/

namespace Transducer

/-- Consecutive steps: products are associative, and a free step adds nothing. -/
class LawfulMul (W : Type) [Weight W] : Prop where
  mul_assoc : ∀ u v w : W, u * v * w = u * (v * w)
  one_mul : ∀ w : W, 1 * w = w
  mul_one : ∀ w : W, w * 1 = w

/-- Products do not depend on the order of their factors. -/
class CommMul (W : Type) [Weight W] : Prop extends LawfulMul W where
  mul_comm : ∀ v w : W, v * w = w * v

/-- A product is the weight of no path only if one of its factors is. -/
class NoZeroProducts (W : Type) [Weight W] : Prop where
  isZero_mul : ∀ v w : W, isZero (v * w) = true → isZero v = true ∨ isZero w = true

/-- A free step is a step that can be taken. -/
class ProperOne (W : Type) [Weight W] : Prop where
  isZero_one : isZero (1 : W) = false

/-- Neither sums nor products lead out of the weights with this property. -/
structure ClosedWeights {W : Type} [Weight W] (P : W → Prop) : Prop where
  zero : P 0
  one : P 1
  add : ∀ {v w : W}, P v → P w → P (v + w)
  mul : ∀ {v w : W}, P v → P w → P (v * w)

theorem closedWeights_true {W : Type} [Weight W] : ClosedWeights fun _ : W => True :=
  ⟨trivial, trivial, fun _ _ => trivial, fun _ _ => trivial⟩

/-- Two products of two factors each can be multiplied factor by factor. -/
theorem mul_mul_comm {W : Type} [Weight W] [CommMul W] (u v w x : W) :
    u * v * (w * x) = u * w * (v * x) := by
  rw [LawfulMul.mul_assoc, LawfulMul.mul_assoc, ← LawfulMul.mul_assoc v, CommMul.mul_comm v,
    LawfulMul.mul_assoc]

end Transducer
