import Mathlib
import Transducer.Proofs.Path.Relaxation

/-!
# Backward distances

For exact costs that are not negative the backward distances of an automaton are found in finitely many
steps (`exists_distances_backward`). The distance of a state is then the cost of some way to a final state,
its final weight included, and up to the bound no way costs less: neither staying, where the state is
final, nor taking an arc first.
-/

namespace Transducer

open ExactCost

variable {K : Type} [AddCommGroup K] [LinearOrder K]

namespace Relaxation

/-! ### Setting off -/

/-- A computation at its beginning: the sources wait, with their costs as distances and as residues. -/
structure Fresh (n : Nat) (sources : Nat → WithTop K) (r : Relaxation (ExactCost K)) : Prop where
  size_distance : r.distance.size = n
  size_residue : r.residue.size = n
  size_waiting : r.waiting.size = n
  nodup : r.queue.Nodup
  queue_lt : ∀ s ∈ r.queue, s < n
  waiting_iff : ∀ s < n, r.waiting.getD s true = true ↔ s ∈ r.queue
  distance_eq : costAt r.distance = sources
  residue_eq : costAt r.residue = sources
  eq_top : ∀ s ∉ r.queue, sources s = ⊤

variable {n s : Nat} {sources : Nat → WithTop K} {r : Relaxation (ExactCost K)}

/-- A computation that has passed nothing on is at its beginning. -/
theorem Unspent.fresh {sources : Nat → ExactCost K} (h : Unspent n sources r) :
    Fresh n (fun s => (sources s).cost) r where
  size_distance := h.size_distance
  size_residue := h.size_residue
  size_waiting := h.size_waiting
  nodup := h.nodup
  queue_lt := h.queue_lt
  waiting_iff := h.waiting_iff
  distance_eq := funext fun s => congrArg cost (h.distance_eq s)
  residue_eq := by
    rw [h.residue_eq]
    exact funext fun s => congrArg cost (h.distance_eq s)
  eq_top s hs := congrArg cost (h.eq_zero s hs)

/-- The invariant holds at the beginning. -/
theorem Fresh.invariant {edges : Array (List (Nat × ExactCost K))} (h : Fresh edges.size sources r)
    (bound : K) : Invariant edges sources bound s [] r where
  size_distance := h.size_distance
  size_residue := h.size_residue
  size_waiting := h.size_waiting
  nodup := h.nodup
  queue_lt := h.queue_lt
  waiting_iff := h.waiting_iff
  residue_of_mem t _ := by rw [h.residue_eq, h.distance_eq]
  residue_of_notMem t ht := by rw [h.residue_eq]; exact h.eq_top t ht
  attained t := by rw [h.distance_eq]; exact .source t
  le_source t := (congrFun h.distance_eq t).le
  le_edge t ht e he := by
    have htop : costAt r.distance t = ⊤ := by rw [h.distance_eq]; exact h.eq_top t ht
    refine .inr ?_
    rw [htop, WithTop.top_add, WithTop.top_add]
    exact le_top

end Relaxation

namespace Automaton

open Relaxation

/-! ### Arcs turned round -/

section

variable {W : Type}

/-- Puts the arcs of a state before the edges that lead to the same states. -/
def turn (s : Nat) (arcs : List (Arc W)) (edges : Array (List (Nat × W))) : Array (List (Nat × W)) :=
  arcs.foldr (fun arc edges => edges.modify arc.target ((s, arc.weight) :: ·)) edges

theorem size_turn (s : Nat) (arcs : List (Arc W)) (edges : Array (List (Nat × W))) :
    (turn s arcs edges).size = edges.size := by
  induction arcs with
  | nil => rfl
  | cons arc arcs ih => exact (Array.size_modify ..).trans ih

theorem mem_turn {s t : Nat} {arcs : List (Arc W)} {edges : Array (List (Nat × W))} {e : Nat × W}
    (ht : t < edges.size) :
    e ∈ (turn s arcs edges).getD t [] ↔
      (e.1 = s ∧ ∃ arc ∈ arcs, arc.target = t ∧ arc.weight = e.2) ∨ e ∈ edges.getD t [] := by
  induction arcs with
  | nil => simp [turn]
  | cons arc arcs ih =>
    have hlt : t < (turn s arcs edges).size := (size_turn s arcs edges).symm ▸ ht
    have hcons : turn s (arc :: arcs) edges =
        (turn s arcs edges).modify arc.target ((s, arc.weight) :: ·) := rfl
    rw [Array.getD_eq_getD_getElem?] at ih
    rw [hcons, Array.getD_eq_getD_getElem?, Array.getElem?_modify]
    rw [Array.getElem?_eq_getElem hlt, Option.getD_some] at ih
    by_cases h : arc.target = t
    · rw [if_pos h, Array.getElem?_eq_getElem hlt, Option.map_some, Option.getD_some, List.mem_cons, ih,
        Prod.ext_iff]
      simp [h, eq_comm, and_or_left, or_assoc]
    · rw [if_neg h, Array.getElem?_eq_getElem hlt, Option.getD_some, ih]
      simp [h]

theorem incoming_eq (a : Automaton W) :
    a.incoming = (List.range a.size).foldr (fun s => turn s (a.arcsAt s).toList)
      (Array.replicate a.size []) := rfl

theorem size_incoming (a : Automaton W) : a.incoming.size = a.size := by
  rw [incoming_eq]
  induction List.range a.size with
  | nil => exact Array.size_replicate
  | cons s states ih => rw [List.foldr_cons, size_turn, ih]

theorem lt_size_of_mem_incoming {a : Automaton W} {t : Nat} {e : Nat × W}
    (he : e ∈ a.incoming.getD t []) : t < a.size := by
  by_contra ht
  have hnone := Array.getElem?_eq_none ((size_incoming a).trans_le (not_lt.1 ht))
  rw [Array.getD_eq_getD_getElem?, hnone] at he
  cases he

/-- An edge leads from the target of an arc back to its state. -/
theorem mem_incoming {a : Automaton W} {t : Nat} {e : Nat × W} (ht : t < a.size) :
    e ∈ a.incoming.getD t [] ↔ ∃ arc ∈ a.arcsAt e.1, arc.target = t ∧ arc.weight = e.2 := by
  have key : ∀ states : List Nat,
      (states.foldr (fun s => turn s (a.arcsAt s).toList) (Array.replicate a.size [])).size = a.size ∧
      (e ∈ (states.foldr (fun s => turn s (a.arcsAt s).toList) (Array.replicate a.size [])).getD t [] ↔
        e.1 ∈ states ∧ ∃ arc ∈ a.arcsAt e.1, arc.target = t ∧ arc.weight = e.2) := by
    intro states
    induction states with
    | nil => simp [Array.getD_eq_getD_getElem?, ht]
    | cons s states ih =>
      obtain ⟨hsize, hmem⟩ := ih
      rw [List.foldr_cons, size_turn, mem_turn (hsize.symm ▸ ht), hmem, List.mem_cons, or_and_right]
      refine ⟨hsize, or_congr (and_congr_right fun hs => ?_) Iff.rfl⟩
      rw [hs]
      exact exists_congr fun arc => and_congr_left' Array.mem_def.symm
  rw [incoming_eq, (key _).2, List.mem_range]
  refine and_iff_right_of_imp ?_
  rintro ⟨arc, harc, -⟩
  exact lt_size_of_mem harc

end

/-! ### The distances found -/

section

variable {a : Automaton (ExactCost K)}

/-- The computation of backward distances sets off from the final states, with their weights. -/
theorem exists_fresh_backward (a : Automaton (ExactCost K)) (bound : K) :
    ∃ r, Fresh a.size (fun s => orTop (a.final? s)) r ∧
      ∀ limit, a.distances .backward bound limit = r.run a.incoming bound limit := by
  have hsources : (fun s => orTop (a.final? s)) = fun s => (a.sources .backward s).cost := by
    funext s
    show orTop (a.final? s) = ((a.final? s).getD 0).cost
    cases a.final? s <;> rfl
  exact ⟨a.outset .backward, hsources ▸ a.unspent_backward.fresh, a.distances_eq .backward bound⟩

/-- Distances to the final states, up to a bound. -/
structure Backward (a : Automaton (ExactCost K)) (bound : K) (d : Array (ExactCost K)) : Prop where
  /-- A distance that is finite is the cost of a way to a final state. -/
  attained : ∀ s, costAt d s = ⊤ ∨ ∃ places arcs t final, a.Way s places arcs t ∧
    a.final? t = some final ∧ costAt d s = total arcs + final.cost
  /-- Ending at a state costs no less. -/
  le_final : ∀ {s final}, a.final? s = some final → costAt d s ≤ final.cost
  /-- Going on with an arc costs no less, up to the bound. -/
  le_arc : ∀ {s}, ∀ arc ∈ a.arcsAt s,
    costAt d s ≤ arc.weight.cost + costAt d arc.target + bound

/-- Only states that there are have ways to a final state. -/
theorem Way.lt_size_of_final {W : Type} {a : Automaton W} {s t : Nat} {places : List Nat}
    {arcs : List (Arc W)} {final : W} (h : a.Way s places arcs t) (hf : a.final? t = some final) :
    s < a.size := by
  cases h with
  | nil =>
    by_contra hs
    rw [final?_eq_none (not_lt.1 hs)] at hf
    cases hf
  | cons hi _ => exact lt_size_of_mem (Array.mem_of_getElem? hi)

theorem Backward.lt_size {bound : K} {d : Array (ExactCost K)} (h : a.Backward bound d) {s : Nat}
    (hs : costAt d s ≠ ⊤) : s < a.size := by
  obtain ⟨_, _, _, _, hway, hf, -⟩ := (h.attained s).resolve_left hs
  exact hway.lt_size_of_final hf

omit [LinearOrder K] in
theorem exists_way_of_attained {s : Nat} {x : WithTop K}
    (h : Attained a.incoming (fun s => orTop (a.final? s)) s x) :
    x = ⊤ ∨ ∃ places arcs t final, a.Way s places arcs t ∧ a.final? t = some final ∧
      x = total arcs + final.cost := by
  induction h with
  | source s =>
    cases hf : a.final? s with
    | none => exact .inl rfl
    | some final => exact .inr ⟨[], [], s, final, .nil s, hf, (zero_add _).symm⟩
  | @step t x e _ he ih =>
    rcases ih with rfl | ⟨places, arcs, u, final, hway, hf, rfl⟩
    · exact .inl (WithTop.top_add _)
    · obtain ⟨arc, harc, rfl, hweight⟩ := (mem_incoming (lt_size_of_mem_incoming he)).1 he
      obtain ⟨i, hi⟩ := Array.getElem?_of_mem harc
      refine .inr ⟨i :: places, arc :: arcs, u, final, .cons hi hway, hf, ?_⟩
      rw [total_cons, hweight, add_comm, add_assoc]

variable [IsOrderedAddMonoid K]

/-- Backward distances are found in finitely many steps. -/
theorem exists_distances_backward
    (hcost : ∀ {s}, ∀ arc ∈ a.arcsAt s, 0 ≤ arc.weight.cost) {bound : K} (hb : 0 ≤ bound) :
    ∃ d, a.Backward bound d ∧ ∃ N, ∀ limit ≥ N, a.distances .backward bound limit = some d := by
  have hlt : ∀ t, ∀ e ∈ a.incoming.getD t [], e.1 < a.incoming.size := by
    intro t e he
    obtain ⟨arc, harc, -⟩ := (mem_incoming (lt_size_of_mem_incoming he)).1 he
    exact (lt_size_of_mem harc).trans_eq (size_incoming a).symm
  have hedge : ∀ t, ∀ e ∈ a.incoming.getD t [], 0 ≤ e.2.cost := by
    intro t e he
    obtain ⟨arc, harc, -, hweight⟩ := (mem_incoming (lt_size_of_mem_incoming he)).1 he
    exact hweight ▸ hcost arc harc
  have hsources : (Set.range fun s => orTop (a.final? s)).Finite := by
    refine ((Set.finite_Iio a.size).image (fun s => orTop (a.final? s))).insert ⊤ |>.subset ?_
    rintro x ⟨s, rfl⟩
    by_cases hs : s < a.size
    · exact Set.mem_insert_of_mem _ ⟨s, hs, rfl⟩
    · refine Set.mem_insert_iff.2 (.inl ?_)
      show orTop (a.final? s) = ⊤
      rw [final?_eq_none (not_lt.1 hs), orTop_none]
  obtain ⟨r, hr, hrun⟩ := exists_fresh_backward a bound
  rw [← size_incoming a] at hr
  obtain ⟨d, hd, N, hN⟩ := (hr.invariant (s := 0) bound).exists_run hb hsources hlt hedge
  refine ⟨d, ⟨fun s => exists_way_of_attained (hd.attained s), fun {s final} hf => ?_,
    fun {s} arc harc => ?_⟩, N, fun limit hlimit => (hrun limit).trans (hN limit hlimit)⟩
  · have h := hd.le_source s
    rwa [hf] at h
  · by_cases ht : arc.target < a.size
    · have hmem : (s, arc.weight) ∈ a.incoming.getD arc.target [] :=
        (mem_incoming ht).2 ⟨arc, harc, rfl, rfl⟩
      have h := hd.le_edge arc.target (s, arc.weight) hmem
      rwa [add_comm (costAt d arc.target)] at h
    · have htop : costAt d arc.target = ⊤ := by
        rcases exists_way_of_attained (hd.attained arc.target) with h | ⟨_, _, _, _, hway, hf, -⟩
        · exact h
        · exact absurd (hway.lt_size_of_final hf) ht
      rw [htop, WithTop.add_top, WithTop.top_add]
      exact le_top

end

end Automaton

end Transducer
