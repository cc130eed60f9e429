import Mathlib
import Transducer.Path.Distance
import Transducer.Proofs.Path.Accepting

/-!
# The queue of a computation of distances

What the computation of distances does whatever the weights are: how it runs, which states wait, and how it sets off.

The order in which the states leave the queue is that of the queue itself; `Passes` allows any other order as well, and
what is shown of it holds of the run.
-/

namespace Transducer

namespace Relaxation

variable {W D : Type} [Weight W] [Tolerance W D] {edges : Array (List (Nat × W))} {bound : D} {r r' : Relaxation W}
  {n s t u : Nat} {weight : W}

/-! ### Runs -/

theorem run_of_nil (hq : r.queue = []) (limit : Nat) : run edges bound limit r = some r.distance := by
  rw [run.eq_def]
  dsimp only
  rw [hq]

theorem run_zero_of_cons {queue : List Nat} (hq : r.queue = t :: queue) : run edges bound 0 r = none := by
  rw [run.eq_def]
  dsimp only
  rw [hq]

theorem run_of_cons {queue : List Nat} (hq : r.queue = t :: queue) (limit : Nat) :
    run edges bound (limit + 1) r = run edges bound limit (pass edges bound { r with queue } t) := by
  rw [run.eq_def]
  dsimp only
  rw [hq]

/-- More steps than are needed change nothing. -/
theorem run_of_le {distance : Array W} {limit more : Nat} (h : run edges bound limit r = some distance)
    (hle : limit ≤ more) : run edges bound more r = some distance := by
  induction limit generalizing r more with
  | zero =>
    cases hq : r.queue with
    | nil => rwa [run_of_nil hq] at h ⊢
    | cons t queue =>
      rw [run_zero_of_cons hq] at h
      cases h
  | succ limit ih =>
    obtain ⟨more, rfl⟩ := Nat.exists_eq_add_of_le' (Nat.zero_lt_of_lt hle)
    cases hq : r.queue with
    | nil => rwa [run_of_nil hq] at h ⊢
    | cons t queue =>
      rw [run_of_cons hq] at h ⊢
      exact ih h (Nat.le_of_succ_le_succ hle)

/-- A number of passes, with states that wait in any order. -/
inductive Passes (edges : Array (List (Nat × W))) (bound : D) (r : Relaxation W) : Nat → Relaxation W → Prop where
  /-- No pass. -/
  | none : Passes edges bound r 0 r
  /-- One pass more, with some state that waits. -/
  | pass {k : Nat} {r' : Relaxation W} {s : Nat} : Passes edges bound r k r' → s ∈ r'.queue →
      Passes edges bound r (k + 1) (pass edges bound { r' with queue := r'.queue.erase s } s)

/-- A pass with the first state of the queue. -/
theorem Passes.head {k : Nat} {queue : List Nat} (h : Passes edges bound r k r') (hq : r'.queue = t :: queue) :
    Passes edges bound r (k + 1) (Relaxation.pass edges bound { r' with queue } t) := by
  have hpass := h.pass (s := t) (by simp [hq])
  rwa [hq, List.erase_cons_head] at hpass

/-- A run that comes to an end makes some passes, until nobody waits. -/
theorem exists_passes_of_run {distance : Array W} {limit k : Nat} (h : run edges bound limit r' = some distance)
    (hr : Passes edges bound r k r') :
    ∃ k r'', Passes edges bound r k r'' ∧ r''.queue = [] ∧ r''.distance = distance := by
  induction limit generalizing r' k with
  | zero =>
    cases hq : r'.queue with
    | nil =>
      rw [run_of_nil hq] at h
      exact ⟨k, r', hr, hq, Option.some.inj h⟩
    | cons t queue =>
      rw [run_zero_of_cons hq] at h
      cases h
  | succ limit ih =>
    cases hq : r'.queue with
    | nil =>
      rw [run_of_nil hq] at h
      exact ⟨k, r', hr, hq, Option.some.inj h⟩
    | cons t queue =>
      rw [run_of_cons hq] at h
      exact ih (k := k + 1) h (hr.head hq)

/-- If there is a bound on the number of passes, then the run comes to an end. -/
theorem exists_run_of_passes {N : Nat} (hN : ∀ k r', Passes edges bound r k r' → k ≤ N) {k limit : Nat}
    (hr : Passes edges bound r k r') (hlimit : N ≤ k + limit) : ∃ distance, run edges bound limit r' = some distance := by
  induction limit generalizing r' k with
  | zero =>
    cases hq : r'.queue with
    | nil => exact ⟨_, run_of_nil hq 0⟩
    | cons t queue =>
      have hk := hN _ _ (hr.head hq)
      omega
  | succ limit ih =>
    cases hq : r'.queue with
    | nil => exact ⟨_, run_of_nil hq _⟩
    | cons t queue =>
      rw [run_of_cons hq]
      exact ih (k := k + 1) (hr.head hq) (by omega)

/-! ### Which states wait -/

/-- The arrays have a place for each state, and the states that wait are those in the queue, each of them once. -/
structure Tidy (n : Nat) (r : Relaxation W) : Prop where
  size_distance : r.distance.size = n
  size_residue : r.residue.size = n
  size_waiting : r.waiting.size = n
  nodup : r.queue.Nodup
  queue_lt : ∀ s ∈ r.queue, s < n
  waiting_iff : ∀ s < n, r.waiting.getD s true = true ↔ s ∈ r.queue

/-- The state of the computation when a state has left the queue. -/
def leave (r : Relaxation W) (s : Nat) : Relaxation W :=
  { r with
    queue := r.queue.erase s
    residue := r.residue.setIfInBounds s 0
    waiting := r.waiting.setIfInBounds s false }

/-- The state of the computation after a weight has been added to the distance of a state. -/
def grown (r : Relaxation W) (s : Nat) (weight : W) : Relaxation W where
  distance := r.distance.setIfInBounds s (r.distance.getD s 0 + weight)
  residue := r.residue.setIfInBounds s (r.residue.getD s 0 + weight)
  waiting := r.waiting.setIfInBounds s true
  queue := if r.waiting.getD s true then r.queue else r.queue ++ [s]

theorem pass_eq (edges : Array (List (Nat × W))) (bound : D) (r : Relaxation W) (s : Nat) :
    pass edges bound { r with queue := r.queue.erase s } s =
      (edges.getD s []).foldl (fun r' e => r'.add bound e.1 (r.residue.getD s 0 * e.2)) (r.leave s) := rfl

theorem add_eq (bound : D) (r : Relaxation W) (s : Nat) (weight : W) :
    r.add bound s weight =
      if approxEq (r.distance.getD s 0) (r.distance.getD s 0 + weight) bound then r else r.grown s weight := rfl

theorem getD_setIfInBounds {α : Type*} {xs : Array α} (hs : s < xs.size) (x y : α) (t : Nat) :
    (xs.setIfInBounds s x).getD t y = if t = s then x else xs.getD t y := by
  simp only [Array.getD_eq_getD_getElem?, Array.getElem?_setIfInBounds]
  by_cases h : s = t
  · simp [h, h ▸ hs]
  · simp [h, Ne.symm h]

namespace Tidy

theorem mem_queue_leave (h : Tidy n r) : u ∈ (r.leave s).queue ↔ u ≠ s ∧ u ∈ r.queue :=
  h.nodup.mem_erase_iff

theorem leave (h : Tidy n r) (hs : s < n) : Tidy n (r.leave s) where
  size_distance := h.size_distance
  size_residue := (Array.size_setIfInBounds ..).trans h.size_residue
  size_waiting := (Array.size_setIfInBounds ..).trans h.size_waiting
  nodup := h.nodup.erase s
  queue_lt u hu := h.queue_lt u (h.mem_queue_leave.1 hu).2
  waiting_iff u hu := by
    show (r.waiting.setIfInBounds s false).getD u true = true ↔ _
    rw [h.mem_queue_leave, getD_setIfInBounds (h.size_waiting ▸ hs), ← h.waiting_iff u hu]
    split
    · next heq => simp [heq]
    · next hne => simp [hne]

theorem mem_queue_grown (h : Tidy n r) (ht : t < n) : u ∈ (r.grown t weight).queue ↔ u = t ∨ u ∈ r.queue := by
  show (u ∈ if r.waiting.getD t true then r.queue else r.queue ++ [t]) ↔ _
  split
  · next hwait =>
    refine ⟨.inr, fun hu => ?_⟩
    rcases hu with rfl | hu
    · exact (h.waiting_iff u ht).1 hwait
    · exact hu
  · rw [List.mem_append, List.mem_singleton, or_comm]

theorem grown (h : Tidy n r) (ht : t < n) (weight : W) : Tidy n (r.grown t weight) where
  size_distance := (Array.size_setIfInBounds ..).trans h.size_distance
  size_residue := (Array.size_setIfInBounds ..).trans h.size_residue
  size_waiting := (Array.size_setIfInBounds ..).trans h.size_waiting
  nodup := by
    show (if r.waiting.getD t true then r.queue else r.queue ++ [t]).Nodup
    split
    · exact h.nodup
    · next hwait =>
      have hnot : t ∉ r.queue := fun hmem => hwait ((h.waiting_iff t ht).2 hmem)
      exact List.nodup_append.2 ⟨h.nodup, List.nodup_singleton t, by
        intro u hu v hv
        rw [List.mem_singleton.1 hv]
        exact fun heq => hnot (heq ▸ hu)⟩
  queue_lt u hu := by
    rcases (h.mem_queue_grown ht).1 hu with rfl | hu
    · exact ht
    · exact h.queue_lt u hu
  waiting_iff u hu := by
    show (r.waiting.setIfInBounds t true).getD u true = true ↔ _
    rw [h.mem_queue_grown ht, getD_setIfInBounds (h.size_waiting ▸ ht), ← h.waiting_iff u hu]
    split
    · next heq => simp [heq]
    · next hne => simp [hne]

/-- A state that does not exist stays without a distance. -/
theorem add_of_le (h : Tidy n r) (ht : n ≤ t) (bound : D) (weight : W) : r.add bound t weight = r := by
  have hwaiting : r.waiting.getD t true = true := by
    rw [Array.getD_eq_getD_getElem?, Array.getElem?_eq_none (h.size_waiting.trans_le ht)]
    rfl
  rw [add_eq]
  split
  · rfl
  · rw [Relaxation.grown, Array.setIfInBounds_eq_of_size_le (h.size_distance.trans_le ht),
      Array.setIfInBounds_eq_of_size_le (h.size_residue.trans_le ht),
      Array.setIfInBounds_eq_of_size_le (h.size_waiting.trans_le ht), hwaiting, if_pos rfl]

theorem add (h : Tidy n r) (bound : D) (t : Nat) (weight : W) : Tidy n (r.add bound t weight) := by
  by_cases ht : t < n
  · rw [add_eq]
    split
    · exact h
    · exact h.grown ht weight
  · rwa [h.add_of_le (not_lt.1 ht)]

theorem foldl_add (h : Tidy n r) (bound : D) (weight : W) (es : List (Nat × W)) :
    Tidy n (es.foldl (fun r e => r.add bound e.1 (weight * e.2)) r) := by
  induction es generalizing r with
  | nil => exact h
  | cons e es ih => exact ih (h.add bound e.1 _)

end Tidy

/-! ### Sizes -/

theorem size_add (bound : D) (r : Relaxation W) (s : Nat) (weight : W) :
    (r.add bound s weight).distance.size = r.distance.size := by
  rw [add_eq]
  split
  · rfl
  · exact Array.size_setIfInBounds ..

theorem size_foldl_add (es : List (Nat × W)) (bound : D) (r : Relaxation W) (weight : W) :
    (es.foldl (fun r e => r.add bound e.1 (weight * e.2)) r).distance.size = r.distance.size := by
  induction es generalizing r with
  | nil => rfl
  | cons e es ih => rw [List.foldl_cons, ih, size_add]

/-- Passes keep a distance for each state. -/
theorem Passes.size_distance {k : Nat} (h : Passes edges bound r k r') : r'.distance.size = r.distance.size := by
  induction h with
  | none => rfl
  | pass _ _ ih => exact (size_foldl_add _ bound _ _).trans ih

/-! ### Setting off -/

/-- A computation at its beginning: the sources wait, and their weights have not been passed on. -/
structure Unspent (n : Nat) (sources : Nat → W) (r : Relaxation W) : Prop extends Tidy n r where
  residue_eq : r.residue = r.distance
  distance_eq : ∀ s, r.distance.getD s 0 = sources s
  eq_zero : ∀ s ∉ r.queue, sources s = 0

theorem unspent_init (n : Nat) : Unspent n (fun _ => 0) (init n : Relaxation W) where
  size_distance := Array.size_replicate
  size_residue := Array.size_replicate
  size_waiting := Array.size_replicate
  nodup := List.nodup_nil
  queue_lt s hs := by cases hs
  waiting_iff s hs := by
    show (Array.replicate n false).getD s true = true ↔ s ∈ []
    simp [Array.getD_eq_getD_getElem?, hs]
  residue_eq := rfl
  distance_eq s := by
    show (Array.replicate n 0).getD s 0 = 0
    rw [Array.getD_eq_getD_getElem?, Array.getElem?_replicate]
    split <;> rfl
  eq_zero _ _ := rfl

theorem Unspent.source {sources : Nat → W} (h : Unspent n sources r) (hs : s < n) (hnew : s ∉ r.queue) (w : W) :
    Unspent n (Function.update sources s w) (r.source s w) where
  size_distance := (Array.size_setIfInBounds ..).trans h.size_distance
  size_residue := (Array.size_setIfInBounds ..).trans h.size_residue
  size_waiting := (Array.size_setIfInBounds ..).trans h.size_waiting
  nodup := List.nodup_append.2 ⟨h.nodup, List.nodup_singleton s, by
    intro t ht u hu
    rw [List.mem_singleton.1 hu]
    exact fun heq => hnew (heq ▸ ht)⟩
  queue_lt t ht := by
    rcases List.mem_append.1 ht with ht | ht
    · exact h.queue_lt t ht
    · exact List.mem_singleton.1 ht ▸ hs
  waiting_iff t ht := by
    show (r.waiting.setIfInBounds s true).getD t true = true ↔ t ∈ r.queue ++ [s]
    rw [List.mem_append, List.mem_singleton, ← h.waiting_iff t ht, getD_setIfInBounds (h.size_waiting ▸ hs)]
    split
    · next heq => simp [heq]
    · next hne => simp [hne]
  residue_eq := by
    show r.residue.setIfInBounds s w = r.distance.setIfInBounds s w
    rw [h.residue_eq]
  distance_eq t := by
    show (r.distance.setIfInBounds s w).getD t 0 = _
    rw [getD_setIfInBounds (h.size_distance ▸ hs), h.distance_eq, Function.update_apply]
  eq_zero t ht := by
    have ht : t ∉ r.queue ∧ t ≠ s := by
      simpa [Relaxation.source, not_or] using ht
    rw [Function.update_of_ne ht.2]
    exact h.eq_zero t ht.1

end Relaxation

namespace Automaton

open Relaxation

variable {W D : Type} [Weight W] {a : Automaton W}

/-- The edges along which distances are passed on. -/
def edges (a : Automaton W) : Direction → Array (List (Nat × W))
  | .forward => a.outgoing
  | .backward => a.incoming

/-- The weights that the computation sets off with. -/
def sources (a : Automaton W) : Direction → Nat → W
  | .forward, s => if a.start = some s then 1 else 0
  | .backward, s => (a.final? s).getD 0

/-- The computation before its first pass. -/
def outset (a : Automaton W) : Direction → Relaxation W
  | .forward => a.start.toList.foldl (fun r s => r.source s 1) (Relaxation.init a.size)
  | .backward => (List.range a.size).foldl
      (fun r s => match a.final? s with
        | some weight => r.source s weight
        | none => r)
      (Relaxation.init a.size)

theorem distances_eq [Tolerance W D] (a : Automaton W) (direction : Direction) (bound : D) (limit : Nat) :
    a.distances direction bound limit = (a.outset direction).run (a.edges direction) bound limit := by
  cases direction <;> rfl

/-- Setting off from the final ones of the first states. -/
theorem unspent_foldl {f : Relaxation W → Nat → Relaxation W}
    (hsome : ∀ r s weight, a.final? s = some weight → f r s = r.source s weight)
    (hnone : ∀ r s, a.final? s = none → f r s = r) {k : Nat} (hk : k ≤ a.size) :
    Unspent a.size (fun s => if s < k then (a.final? s).getD 0 else 0) ((List.range k).foldl f (Relaxation.init a.size)) ∧
      ∀ s ∈ ((List.range k).foldl f (Relaxation.init a.size)).queue, s < k := by
  induction k with
  | zero => exact ⟨unspent_init a.size, fun s hs => by cases hs⟩
  | succ k ih =>
    obtain ⟨h, hlt⟩ := ih (Nat.le_of_succ_le hk)
    rw [List.range_succ, List.foldl_append, List.foldl_cons, List.foldl_nil]
    have hlast : (fun s => if s < k + 1 then (a.final? s).getD 0 else 0) =
        Function.update (fun s => if s < k then (a.final? s).getD 0 else 0) k ((a.final? k).getD 0) := by
      funext s
      rw [Function.update_apply]
      by_cases hs : s = k
      · simp [hs]
      · have hiff : s < k + 1 ↔ s < k := by omega
        simp only [hiff, hs, if_false]
    rw [hlast]
    cases hf : a.final? k with
    | some weight =>
      rw [hsome _ _ _ hf]
      refine ⟨h.source hk (fun hmem => absurd (hlt k hmem) (lt_irrefl k)) weight, fun s hs => ?_⟩
      rcases List.mem_append.1 hs with hs | hs
      · exact Nat.lt_succ_of_lt (hlt s hs)
      · exact List.mem_singleton.1 hs ▸ Nat.lt_succ_self k
    | none =>
      rw [hnone _ _ hf]
      have hsame : Function.update (fun s => if s < k then (a.final? s).getD 0 else 0) k ((none : Option W).getD 0) =
          fun s => if s < k then (a.final? s).getD 0 else 0 :=
        Function.update_eq_self_iff.2 (by simp)
      rw [hsame]
      exact ⟨h, fun s hs => Nat.lt_succ_of_lt (hlt s hs)⟩

/-- Forward, the computation sets off from the start. -/
theorem unspent_forward (hstart : ∀ s, a.start = some s → s < a.size) :
    Unspent a.size (a.sources .forward) (a.outset .forward) := by
  unfold outset sources
  cases hs : a.start with
  | none => simpa using unspent_init a.size
  | some start =>
    have hsource : (fun s => if some start = some s then (1 : W) else 0) = Function.update (fun _ => 0) start 1 := by
      funext s
      rw [Function.update_apply]
      simp [eq_comm]
    rw [hsource]
    exact (unspent_init a.size).source (hstart start hs) List.not_mem_nil 1

/-- Backward, it sets off from the final states. -/
theorem unspent_backward (a : Automaton W) : Unspent a.size (a.sources .backward) (a.outset .backward) := by
  have hall : a.sources .backward = fun s => if s < a.size then (a.final? s).getD 0 else 0 := by
    funext s
    show (a.final? s).getD 0 = _
    split
    · rfl
    · next hs =>
      rw [final?_eq_none (not_lt.1 hs)]
      rfl
  rw [hall]
  refine (unspent_foldl (fun r s weight hf => ?_) (fun r s hf => ?_) le_rfl).1
  · rw [hf]
  · rw [hf]

/-- It sets off like that unless the start does not exist. -/
theorem unspent_outset (a : Automaton W) (direction : Direction) :
    Unspent a.size (a.sources direction) (a.outset direction) ∨
      direction = .forward ∧ ∃ start, a.start = some start ∧ a.size ≤ start := by
  cases direction with
  | backward => exact .inl a.unspent_backward
  | forward =>
    by_cases hstart : ∀ s, a.start = some s → s < a.size
    · exact .inl (unspent_forward hstart)
    · simp only [not_forall, not_lt] at hstart
      obtain ⟨start, hfirst, hle⟩ := hstart
      exact .inr ⟨rfl, start, hfirst, hle⟩

theorem size_outset (a : Automaton W) (direction : Direction) : (a.outset direction).distance.size = a.size := by
  cases direction with
  | forward =>
    unfold outset
    cases a.start with
    | none => exact Array.size_replicate
    | some start => exact Array.size_setIfInBounds.trans Array.size_replicate
  | backward => exact a.unspent_backward.size_distance

theorem size_of_passes [Tolerance W D] {direction : Direction} {bound : D} {k : Nat} {r : Relaxation W}
    (h : Passes (a.edges direction) bound (a.outset direction) k r) : r.distance.size = a.size :=
  h.size_distance.trans (a.size_outset direction)

theorem size_of_distances [Tolerance W D] {direction : Direction} {bound : D} {limit : Nat} {d : Array W}
    (h : a.distances direction bound limit = some d) : d.size = a.size := by
  rw [distances_eq] at h
  obtain ⟨k, r, hr, -, rfl⟩ := exists_passes_of_run h .none
  exact size_of_passes hr

omit [Weight W] in
theorem size_outgoing (a : Automaton W) : a.outgoing.size = a.size := Array.size_map

omit [Weight W] in
theorem getD_outgoing (a : Automaton W) (s : Nat) :
    a.outgoing.getD s [] = (a.arcsAt s).toList.map fun arc => (arc.target, arc.weight) := by
  rw [outgoing, Array.getD_eq_getD_getElem?, Array.getElem?_map, arcsAt]
  cases a.states[s]? <;> rfl

/-- From a start that does not exist there is nothing to pass on. -/
theorem passes_of_size_le [Tolerance W D] {start k : Nat} {bound : D} {r : Relaxation W} (hstart : a.start = some start)
    (hle : a.size ≤ start) (h : Passes (a.edges .forward) bound (a.outset .forward) k r) :
    k ≤ 1 ∧ r.distance = Array.replicate a.size 0 := by
  have hstays : r.distance = Array.replicate a.size 0 ∧ (k = 0 ∧ r.queue = [start] ∨ k = 1 ∧ r.queue = []) := by
    induction h with
    | none =>
      unfold outset
      rw [hstart]
      refine ⟨?_, .inl ⟨rfl, rfl⟩⟩
      exact Array.setIfInBounds_eq_of_size_le (Array.size_replicate.trans_le hle)
    | @pass k r s _ hs ih =>
      obtain ⟨hdistance, ⟨rfl, hqueue⟩ | ⟨-, hqueue⟩⟩ := ih
      · obtain rfl : s = start := List.mem_singleton.1 (hqueue ▸ hs)
        have hnone : (a.edges .forward).getD s [] = [] := by
          show a.outgoing.getD s [] = []
          rw [getD_outgoing, arcsAt_eq_empty hle]
          rfl
        rw [pass_eq, hnone, List.foldl_nil]
        refine ⟨hdistance, .inr ⟨rfl, ?_⟩⟩
        show r.queue.erase s = []
        rw [hqueue, List.erase_cons_head]
      · rw [hqueue] at hs
        cases hs
  exact ⟨by omega, hstays.1⟩

end Automaton

end Transducer
