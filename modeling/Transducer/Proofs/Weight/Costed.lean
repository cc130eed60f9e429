import Transducer.Proofs.Weight.Laws
import Transducer.Weight.Log
import Transducer.Weight.Tropical

/-!
# Weights and their costs

Both stored kinds of weights are their costs and nothing else, and they agree on which cost is that of no path
and on which words are costs.
-/

namespace Transducer

/-- A weight and its cost determine each other, and the tests are tests of the cost. -/
class LawfulCosted (W : Type) [Weight W] [Costed W] : Prop where
  ofCost_cost : ∀ w : W, Costed.ofCost (Costed.cost w) = w
  cost_ofCost : ∀ cost : Single, Costed.cost (Costed.ofCost cost : W) = cost
  cost_zero : Costed.cost (0 : W) = .infinity
  isZero_eq : ∀ w : W, isZero w = Cost.isUnreachable (Costed.cost w)
  isMember_eq : ∀ w : W, isMember w = Cost.isValid (Costed.cost w)

instance : LawfulCosted Tropical where
  ofCost_cost _ := rfl
  cost_ofCost _ := rfl
  cost_zero := rfl
  isZero_eq _ := rfl
  isMember_eq _ := rfl

instance : LawfulCosted Log where
  ofCost_cost _ := rfl
  cost_ofCost _ := rfl
  cost_zero := rfl
  isZero_eq _ := rfl
  isMember_eq _ := rfl

instance : ProperOne Tropical := ⟨by decide⟩

instance : ProperOne Log := ⟨by decide⟩

variable {W : Type} [Weight W] [Costed W] [LawfulCosted W]

theorem isZero_zero : isZero (0 : W) = true := by
  rw [LawfulCosted.isZero_eq, LawfulCosted.cost_zero]
  rfl

theorem isMember_zero : isMember (0 : W) = true := by
  rw [LawfulCosted.isMember_eq, LawfulCosted.cost_zero]
  decide

end Transducer
