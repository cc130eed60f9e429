import Mathlib
import Transducer.Proofs.Path.Accepting
import Transducer.Proofs.Weight.Laws

/-!
# Exact costs

Tropical weights without rounding: a cost is an element of an ordered group, such as the integers, the
rationals or the reals, or infinite. The sum of two costs is the lesser one, their product is what both
of them cost together.
-/

namespace Transducer

/-- A cost of `K`, or the infinite cost of no path. -/
structure ExactCost (K : Type) where
  cost : WithTop K

namespace ExactCost

theorem ext_cost {K : Type} {v w : ExactCost K} (h : v.cost = w.cost) : v = w := by
  cases v; cases w; exact congrArg mk h

instance {K : Type} [DecidableEq K] : DecidableEq (ExactCost K) := fun v w =>
  decidable_of_iff (v.cost = w.cost) ⟨ext_cost, congrArg cost⟩

variable {K : Type} [LinearOrder K]

instance : Ranked (ExactCost K) where
  better v w := v.cost < w.cost

@[simp] theorem better_iff (v w : ExactCost K) : better v w = true ↔ v.cost < w.cost :=
  decide_eq_true_iff

variable [AddCommGroup K]

instance : Weight (ExactCost K) where
  zero := ⟨⊤⟩
  one := ⟨0⟩
  add v w := if w.cost < v.cost then w else v
  mul v w := ⟨v.cost + w.cost⟩
  isZero v := v.cost = ⊤
  isOne v := v.cost = 0
  isMember _ := true

instance : Tolerance (ExactCost K) K where
  approxEq v w bound :=
    if v.cost = ⊤ ∨ w.cost = ⊤ then decide (v.cost = w.cost)
    else decide (v.cost ≤ w.cost + bound ∧ w.cost ≤ v.cost + bound)

@[simp] theorem cost_zero : (0 : ExactCost K).cost = ⊤ := rfl

@[simp] theorem cost_one : (1 : ExactCost K).cost = 0 := rfl

@[simp] theorem cost_mul (v w : ExactCost K) : (v * w).cost = v.cost + w.cost := rfl

@[simp] theorem cost_add (v w : ExactCost K) : (v + w).cost = min v.cost w.cost := by
  change (if w.cost < v.cost then w else v).cost = _
  split
  · next h => exact (min_eq_right h.le).symm
  · next h => exact (min_eq_left (not_lt.1 h)).symm

@[simp] theorem isZero_iff (v : ExactCost K) : isZero v = true ↔ v.cost = ⊤ := decide_eq_true_iff

@[simp] theorem isZero_eq_false_iff (v : ExactCost K) : isZero v = false ↔ v.cost ≠ ⊤ :=
  decide_eq_false_iff_not

@[simp] theorem isOne_iff (v : ExactCost K) : isOne v = true ↔ v.cost = 0 := decide_eq_true_iff

theorem approxEq_iff (v w : ExactCost K) (bound : K) :
    approxEq v w bound = true ↔
      if v.cost = ⊤ ∨ w.cost = ⊤ then v.cost = w.cost
      else v.cost ≤ w.cost + bound ∧ w.cost ≤ v.cost + bound := by
  change (if v.cost = ⊤ ∨ w.cost = ⊤ then decide (v.cost = w.cost)
    else decide (v.cost ≤ w.cost + bound ∧ w.cost ≤ v.cost + bound)) = true ↔ _
  split <;> exact decide_eq_true_iff

instance : CommMul (ExactCost K) where
  mul_assoc u v w := ext_cost (add_assoc u.cost v.cost w.cost)
  one_mul w := ext_cost (zero_add w.cost)
  mul_one w := ext_cost (add_zero w.cost)
  mul_comm v w := ext_cost (add_comm v.cost w.cost)

instance : NoZeroProducts (ExactCost K) where
  isZero_mul v w h := by simpa using h

/-! ### Totals -/

section

variable {K : Type}

/-- A cost that may be missing; it is infinite then. -/
def orTop (v : Option (ExactCost K)) : WithTop K := (v.map cost).getD ⊤

@[simp] theorem orTop_some (v : ExactCost K) : orTop (some v) = v.cost := rfl

@[simp] theorem orTop_none : orTop (none : Option (ExactCost K)) = ⊤ := rfl

variable [AddCommGroup K]

/-- What a sequence of arcs costs. -/
def total (arcs : List (Arc (ExactCost K))) : WithTop K := (arcs.map fun arc => arc.weight.cost).sum

@[simp] theorem total_nil : total ([] : List (Arc (ExactCost K))) = 0 := rfl

@[simp] theorem total_cons (arc : Arc (ExactCost K)) (arcs : List (Arc (ExactCost K))) :
    total (arc :: arcs) = arc.weight.cost + total arcs := List.sum_cons

@[simp] theorem total_append (arcs others : List (Arc (ExactCost K))) :
    total (arcs ++ others) = total arcs + total others := by
  simp [total]

end

theorem cost_weigh (arcs : List (Arc (ExactCost K))) (final : ExactCost K) :
    (weigh arcs final).cost = total arcs + final.cost := by
  induction arcs with
  | nil => exact (zero_add _).symm
  | cons arc arcs ih => rw [weigh_cons, cost_mul, ih, total_cons, add_assoc]

end ExactCost

end Transducer
