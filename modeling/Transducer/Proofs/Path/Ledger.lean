import Mathlib
import Transducer.Proofs.Path.Queue
import Transducer.Proofs.Weight.Semiring

/-!
# The ledger of a computation of distances

The distance of a state is what it has passed on and what it still has to pass on, the residue (`Booked`). An update that
changes nothing is dropped, and then neither of them changes. If all other updates are made, then the distance is also what
the state has set off with and what has come along the edges to it, by what has been passed on so far (`Ledger`). Every
pass keeps both, whichever state is taken. So when nobody waits, the distance of a state is its source and what its
neighbours contribute with their distances.

In a graph without cycles this determines the distances (`eq_of_solved`), and there are not many passes
(`Passes.add_le`): a state is given a price that is higher than what its neighbours have together, and the price of all
that waits goes down with every pass.
-/

namespace Transducer.Relaxation

open scoped LawfulSemiring

variable {W D : Type} [Weight W] [LawfulSemiring W] [Tolerance W D] {edges : Array (List (Nat × W))} {bound : D}
  {r r' : Relaxation W} {n s t k : Nat} {weight : W} {sources passed : Nat → W}

/-! ### What has been passed on -/

/-- The distance of each state is what it has passed on and its residue; only states that wait have one. -/
structure Booked (n : Nat) (passed : Nat → W) (r : Relaxation W) : Prop extends Tidy n r where
  residue_eq_zero : ∀ s ∉ r.queue, r.residue.getD s 0 = 0
  distance_eq : ∀ s, r.distance.getD s 0 = passed s + r.residue.getD s 0

/-- A state that leaves the queue has passed on all that its distance is. -/
theorem Booked.leave (h : Booked n passed r) (hs : s ∈ r.queue) :
    Booked n (Function.update passed s (r.distance.getD s 0)) (r.leave s) where
  toTidy := h.toTidy.leave (h.queue_lt s hs)
  residue_eq_zero t ht := by
    show (r.residue.setIfInBounds s 0).getD t 0 = 0
    rw [getD_setIfInBounds (h.size_residue ▸ h.queue_lt s hs)]
    split
    · rfl
    · next hne => exact h.residue_eq_zero t fun hmem => ht (h.mem_queue_leave.2 ⟨hne, hmem⟩)
  distance_eq t := by
    show r.distance.getD t 0 = _ + (r.residue.setIfInBounds s 0).getD t 0
    rw [getD_setIfInBounds (h.size_residue ▸ h.queue_lt s hs), Function.update_apply]
    split
    · next heq => rw [heq, add_zero]
    · exact h.distance_eq t

theorem Booked.add (h : Booked n passed r) (bound : D) (t : Nat) (weight : W) :
    Booked n passed (r.add bound t weight) := by
  by_cases ht : t < n
  · rw [add_eq]
    split
    · exact h
    · refine ⟨h.toTidy.grown ht weight, fun s hs => ?_, fun s => ?_⟩
      · rw [h.mem_queue_grown ht, not_or] at hs
        show (r.residue.setIfInBounds t _).getD s 0 = 0
        rw [getD_setIfInBounds (h.size_residue ▸ ht), if_neg hs.1]
        exact h.residue_eq_zero s hs.2
      · show (r.distance.setIfInBounds t _).getD s 0 = passed s + (r.residue.setIfInBounds t _).getD s 0
        rw [getD_setIfInBounds (h.size_distance ▸ ht), getD_setIfInBounds (h.size_residue ▸ ht)]
        split
        · next heq => rw [heq, h.distance_eq, add_assoc]
        · exact h.distance_eq s
  · rwa [h.add_of_le (not_lt.1 ht)]

theorem Booked.foldl_add (h : Booked n passed r) (bound : D) (weight : W) (es : List (Nat × W)) :
    Booked n passed (es.foldl (fun r e => r.add bound e.1 (weight * e.2)) r) := by
  induction es generalizing r with
  | nil => exact h
  | cons e es ih => exact ih (h.add bound e.1 (weight * e.2))

/-! ### What comes along the edges -/

/-- What comes along the edges to a state if each state has passed on what `f` says. -/
def inflow (edges : Array (List (Nat × W))) (f : Nat → W) (t : Nat) : W :=
  ∑ s ∈ Finset.range edges.size, ((edges.getD s []).map fun e => if e.1 = t then f s * e.2 else 0).sum

theorem inflow_congr {f g : Nat → W} (h : ∀ s < edges.size, ∀ e ∈ edges.getD s [], e.1 = t → f s = g s) :
    inflow edges f t = inflow edges g t := by
  refine Finset.sum_congr rfl fun s hs => congrArg List.sum (List.map_congr_left fun e he => ?_)
  split
  · next het => rw [h s (Finset.mem_range.1 hs) e he het]
  · rfl

/-- A state that passes on something more contributes so much more. -/
theorem inflow_update (hs : s < edges.size) (f : Nat → W) (x : W) (t : Nat) :
    inflow edges (Function.update f s (f s + x)) t =
      inflow edges f t + ((edges.getD s []).map fun e => if e.1 = t then x * e.2 else 0).sum := by
  have hterm : ∀ u ∈ Finset.range edges.size,
      ((edges.getD u []).map fun e => if e.1 = t then Function.update f s (f s + x) u * e.2 else 0).sum =
        ((edges.getD u []).map fun e => if e.1 = t then f u * e.2 else 0).sum +
          if u = s then ((edges.getD s []).map fun e => if e.1 = t then x * e.2 else 0).sum else 0 := by
    intro u _
    by_cases hu : u = s
    · rw [hu, if_pos rfl, Function.update_self, ← List.sum_map_add]
      refine congrArg List.sum (List.map_congr_left fun e _ => ?_)
      split
      · exact add_mul _ _ _
      · exact (add_zero 0).symm
    · rw [if_neg hu, Function.update_of_ne hu, add_zero]
  rw [inflow, Finset.sum_congr rfl hterm, Finset.sum_add_distrib, Finset.sum_ite_eq', if_pos (Finset.mem_range.2 hs)]
  rfl

variable (hexact : ∀ v w : W, approxEq v w bound = true ↔ v = w)
include hexact

/-- A weight that is added changes the distance by so much, also if the update is dropped. -/
theorem Tidy.getD_distance_add (h : Tidy n r) (ht : t < n) (s : Nat) (weight : W) :
    (r.add bound s weight).distance.getD t 0 = r.distance.getD t 0 + if s = t then weight else 0 := by
  by_cases hs : s < n
  · rw [add_eq]
    by_cases hst : s = t
    · subst hst
      rw [if_pos rfl]
      split
      · next happrox => exact (hexact _ _).1 happrox
      · exact (getD_setIfInBounds (h.size_distance ▸ hs) _ _ _).trans (if_pos rfl)
    · rw [if_neg hst, add_zero]
      split
      · rfl
      · exact (getD_setIfInBounds (h.size_distance ▸ hs) _ _ _).trans (if_neg (Ne.symm hst))
  · have hst : s ≠ t := by
      rintro rfl
      exact hs ht
    rw [h.add_of_le (not_lt.1 hs), if_neg hst, add_zero]

theorem Tidy.getD_distance_foldl (h : Tidy n r) (ht : t < n) (weight : W) (es : List (Nat × W)) :
    (es.foldl (fun r e => r.add bound e.1 (weight * e.2)) r).distance.getD t 0 =
      r.distance.getD t 0 + (es.map fun e => if e.1 = t then weight * e.2 else 0).sum := by
  induction es generalizing r with
  | nil => exact (add_zero _).symm
  | cons e es ih =>
    rw [List.foldl_cons, ih (h.add bound e.1 _), h.getD_distance_add hexact ht, List.map_cons, List.sum_cons, add_assoc]

omit hexact

/-- The books of a computation: the distance of a state is also what it has set off with and what has come along the edges. -/
structure Ledger (edges : Array (List (Nat × W))) (sources passed : Nat → W) (r : Relaxation W) : Prop
    extends Booked edges.size passed r where
  balance : ∀ t < edges.size, r.distance.getD t 0 = sources t + inflow edges passed t

theorem Unspent.ledger (h : Unspent edges.size sources r) : Ledger edges sources (fun _ => 0) r where
  toTidy := h.toTidy
  residue_eq_zero s hs := by rw [h.residue_eq, h.distance_eq, h.eq_zero s hs]
  distance_eq s := by rw [h.residue_eq, zero_add]
  balance t _ := by
    have hnone : inflow edges (fun _ => (0 : W)) t = 0 := by
      refine Finset.sum_eq_zero fun s _ => List.sum_eq_zero fun x hx => ?_
      obtain ⟨e, -, rfl⟩ := List.mem_map.1 hx
      split
      · exact zero_mul _
      · rfl
    rw [h.distance_eq, hnone, add_zero]

include hexact

/-- A pass keeps the books, whichever state is taken. -/
theorem Ledger.pass (h : Ledger edges sources passed r) (hs : s ∈ r.queue) :
    Ledger edges sources (Function.update passed s (r.distance.getD s 0))
      (pass edges bound { r with queue := r.queue.erase s } s) := by
  have hleave := h.toBooked.leave hs
  rw [pass_eq]
  refine ⟨hleave.foldl_add bound _ _, fun t ht => ?_⟩
  rw [hleave.toTidy.getD_distance_foldl hexact ht, h.distance_eq, inflow_update (h.queue_lt s hs), ← add_assoc]
  exact congrArg (· + _) (h.balance t ht)

theorem Ledger.passes (h : Ledger edges sources passed r) (hr : Passes edges bound r k r') :
    ∃ passed', Ledger edges sources passed' r' := by
  induction hr with
  | none => exact ⟨passed, h⟩
  | pass _ hs ih =>
    obtain ⟨passed', h'⟩ := ih
    exact ⟨_, h'.pass hexact hs⟩

omit hexact

/-- When nobody waits, all that the distances are has been passed on. -/
theorem Ledger.solved (h : Ledger edges sources passed r) (hq : r.queue = []) (ht : t < edges.size) :
    r.distance.getD t 0 = sources t + inflow edges (fun s => r.distance.getD s 0) t := by
  have hpassed : (fun s => r.distance.getD s 0) = passed := by
    funext s
    rw [h.distance_eq, h.residue_eq_zero s (by simp [hq]), add_zero]
  rw [hpassed]
  exact h.balance t ht

/-! ### Graphs without cycles -/

variable {rank : Nat → Nat}

/-- What the neighbours contribute determines the distances. -/
theorem eq_of_solved (hrank : ∀ s, ∀ e ∈ edges.getD s [], rank e.1 < rank s) {f g : Nat → W}
    (hf : ∀ t < edges.size, f t = sources t + inflow edges f t) (hg : ∀ t < edges.size, g t = sources t + inflow edges g t)
    (ht : t < edges.size) : f t = g t := by
  -- a state comes after those with edges to it, which have a higher rank
  induction hk : (Finset.range edges.size).sup rank - rank t using Nat.strong_induction_on generalizing t with
  | h k ih =>
    rw [hf t ht, hg t ht]
    refine congrArg _ (inflow_congr fun s hs e he het => ih _ ?_ hs rfl)
    have hlt := hrank s e he
    have hle : rank s ≤ (Finset.range edges.size).sup rank := Finset.le_sup (Finset.mem_range.2 hs)
    rw [het] at hlt
    omega

omit [Weight W] [LawfulSemiring W] [Tolerance W D] in
/-- The states can be given prices that are higher than those of their neighbours together. -/
theorem exists_price (hrank : ∀ s, ∀ e ∈ edges.getD s [], rank e.1 < rank s) :
    ∃ price : Nat → Nat, ∀ s, ((edges.getD s []).map fun e => price e.1).sum < price s := by
  obtain ⟨m, hm⟩ : ∃ m, ∀ s, (edges.getD s []).length ≤ m := by
    refine ⟨(edges.toList.map List.length).sum, fun s => ?_⟩
    rw [Array.getD_eq_getD_getElem?]
    cases hs : edges[s]? with
    | none => exact Nat.zero_le _
    | some es =>
      have hmem : es ∈ edges.toList := Array.mem_toList_iff.2 (Array.mem_of_getElem? hs)
      exact List.single_le_sum (by simp) _ (List.mem_map_of_mem hmem)
  refine ⟨fun s => (m + 1) ^ rank s, fun s => ?_⟩
  show _ < (m + 1) ^ rank s
  cases hs : rank s with
  | zero =>
    have hnone : edges.getD s [] = [] := by
      refine List.eq_nil_iff_forall_not_mem.2 fun e he => ?_
      have hlt := hrank s e he
      omega
    simp [hnone]
  | succ k =>
    have hle : ∀ x ∈ (edges.getD s []).map (fun e => (m + 1) ^ rank e.1), x ≤ (m + 1) ^ k := by
      intro x hx
      obtain ⟨e, he, rfl⟩ := List.mem_map.1 hx
      have hlt := hrank s e he
      exact Nat.pow_le_pow_right (Nat.succ_pos m) (by omega)
    calc
      _ ≤ (edges.getD s []).length * (m + 1) ^ k := by
        have hsum := List.sum_le_card_nsmul _ _ hle
        rwa [List.length_map, smul_eq_mul] at hsum
      _ ≤ m * (m + 1) ^ k := Nat.mul_le_mul_right _ (hm s)
      _ < (m + 1) * (m + 1) ^ k := Nat.mul_lt_mul_of_pos_right (Nat.lt_succ_self m) (Nat.pow_pos (Nat.succ_pos m))
      _ = (m + 1) ^ (k + 1) := (Nat.pow_succ').symm

omit [LawfulSemiring W]

variable {price : Nat → Nat}

theorem sum_queue_add (price : Nat → Nat) (bound : D) (r : Relaxation W) (t : Nat) (weight : W) :
    ((r.add bound t weight).queue.map price).sum ≤ (r.queue.map price).sum + price t := by
  rw [add_eq]
  split
  · exact Nat.le_add_right _ _
  · show ((if r.waiting.getD t true then r.queue else r.queue ++ [t]).map price).sum ≤ _
    split
    · exact Nat.le_add_right _ _
    · simp

theorem sum_queue_foldl (price : Nat → Nat) (bound : D) (r : Relaxation W) (weight : W) (es : List (Nat × W)) :
    ((es.foldl (fun r e => r.add bound e.1 (weight * e.2)) r).queue.map price).sum ≤
      (r.queue.map price).sum + (es.map fun e => price e.1).sum := by
  induction es generalizing r with
  | nil => exact Nat.le_refl _
  | cons e es ih =>
    have hnext := ih (r.add bound e.1 (weight * e.2))
    have hadd := sum_queue_add price bound r e.1 (weight * e.2)
    rw [List.foldl_cons, List.map_cons, List.sum_cons]
    omega

/-- A pass lowers the price of all that waits. -/
theorem sum_queue_pass (hprice : ∀ s, ((edges.getD s []).map fun e => price e.1).sum < price s) (bound : D)
    (hs : s ∈ r.queue) :
    ((pass edges bound { r with queue := r.queue.erase s } s).queue.map price).sum < (r.queue.map price).sum := by
  have hle := sum_queue_foldl price bound (r.leave s) (r.residue.getD s 0) (edges.getD s [])
  have herase : price s + ((r.queue.erase s).map price).sum = (r.queue.map price).sum := List.sum_map_erase price hs
  have hlower := hprice s
  rw [pass_eq]
  change _ ≤ ((r.queue.erase s).map price).sum + _ at hle
  omega

/-- There are not more passes than the price of all that waits at first. -/
theorem Passes.add_le (hprice : ∀ s, ((edges.getD s []).map fun e => price e.1).sum < price s)
    (h : Passes edges bound r k r') : k + (r'.queue.map price).sum ≤ (r.queue.map price).sum := by
  induction h with
  | none => exact (Nat.zero_add _).le
  | pass _ hs ih =>
    have hlower := sum_queue_pass hprice bound hs
    omega

end Transducer.Relaxation
