import Mathlib
import Transducer.Proofs.Graph.Search

/-!
# Searching without the way back

To find what some vertices reach, no way back is needed: it is enough to keep the vertices that have been reached and
wait for their edges to be followed. `Flood` is the state of such a search. Whether the vertex that is taken next is
the one that came last (`Waiting.stack`) or the one that came first (`Waiting.queue`), the search finds the same
vertices, each of them once, and they are those that a depth-first search finds (`seen_flood`).
-/

namespace Transducer.Graph

open Relation

/-- Which of the vertices that wait is next. -/
inductive Waiting where
  /-- The one that came last. -/
  | stack
  /-- The one that came first. -/
  | queue

/-- One more vertex waits. -/
def Waiting.add : Waiting → Nat → List Nat → List Nat
  | stack, v, waiting => v :: waiting
  | queue, v, waiting => waiting ++ [v]

theorem Waiting.perm_add (order : Waiting) (v : Nat) (waiting : List Nat) :
    (order.add v waiting).Perm (v :: waiting) := by
  cases order with
  | stack => exact .refl _
  | queue => exact List.perm_append_singleton v waiting

/-- The state of a search for what some vertices reach. -/
structure Flood where
  seen : Array Bool
  /-- The vertices whose edges have not been followed, the next one first. -/
  waiting : List Nat := []
  /-- The vertices whose edges have been followed, the last one first. -/
  done : List Nat := []

namespace Flood

variable {next : Nat → List Nat} {size : Nat} {order : Waiting} {t : Flood} {roots : List Nat} {v w : Nat}

/-- Reaches a vertex, unless it has been reached or does not exist. -/
def reach (order : Waiting) (t : Flood) (v : Nat) : Flood :=
  if t.seen.getD v true then t
  else { t with seen := t.seen.setIfInBounds v true, waiting := order.add v t.waiting }

/-- How many vertices have not been reached, and how many wait. -/
def pending (t : Flood) : Nat := t.seen.count false + t.waiting.length

theorem getD_eq_false_iff {seen : Array Bool} : seen.getD v true = false ↔ seen[v]? = some false := by
  rw [Array.getD_eq_getD_getElem?]
  cases seen[v]? <;> simp

theorem reach_of_new (order : Waiting) (h : t.seen[v]? = some false) :
    t.reach order v = { t with seen := t.seen.setIfInBounds v true, waiting := order.add v t.waiting } := by
  rw [reach, getD_eq_false_iff.2 h]
  rfl

theorem reach_of_seen (order : Waiting) (h : t.seen[v]? ≠ some false) : t.reach order v = t := by
  rw [reach, if_pos (by rw [← Bool.not_eq_false, getD_eq_false_iff]; exact h)]

/-- Of the vertices that have not been reached, one waits now. -/
theorem pending_reach (order : Waiting) (t : Flood) (v : Nat) : (t.reach order v).pending = t.pending := by
  by_cases h : t.seen[v]? = some false
  · obtain ⟨hv, hfalse⟩ := Array.getElem?_eq_some_iff.1 h
    have hpos : 0 < t.seen.count false := Array.count_pos_iff.2 (hfalse ▸ Array.getElem_mem hv)
    have hcount : (t.seen.setIfInBounds v true).count false = t.seen.count false - 1 := by
      rw [Array.setIfInBounds, dif_pos hv, Array.count_set hv, hfalse]
      rfl
    rw [reach_of_new order h, pending, pending, hcount, (order.perm_add v t.waiting).length_eq, List.length_cons]
    omega
  · rw [reach_of_seen order h]

theorem pending_foldl_reach (order : Waiting) (vertices : List Nat) (t : Flood) :
    (vertices.foldl (reach order) t).pending = t.pending := by
  induction vertices generalizing t with
  | nil => rfl
  | cons v vertices ih => exact (ih _).trans (pending_reach order t v)

/-- Follows the edges of one vertex after another until none waits. -/
def run (next : Nat → List Nat) (order : Waiting) (t : Flood) : Flood :=
  match _h : t.waiting with
  | [] => t
  | v :: waiting => run next order ((next v).foldl (reach order) { t with waiting, done := v :: t.done })
termination_by t.pending
decreasing_by
  rw [pending_foldl_reach, pending, pending, _h]
  exact Nat.lt_succ_self _

theorem run_of_nil (h : t.waiting = []) : t.run next order = t := by
  unfold run
  split
  · rfl
  · next hcons => simp [h] at hcons

theorem run_of_cons {waiting : List Nat} (h : t.waiting = v :: waiting) : t.run next order =
    ((next v).foldl (reach order) { t with waiting, done := v :: t.done }).run next order := by
  rw [run]
  split
  · next hnil => simp [h] at hnil
  · next hcons =>
    obtain ⟨rfl, rfl⟩ := List.cons.inj (h.symm.trans hcons)
    rfl

/-! ### What holds all the time -/

/-- The vertex has been reached. -/
def Seen (t : Flood) (v : Nat) : Prop := t.seen[v]? = some true

/-- What a search from some roots has reached waits or is done, and nothing twice. -/
structure Sound (next : Nat → List Nat) (size : Nat) (roots : List Nat) (t : Flood) : Prop where
  size_eq : t.seen.size = size
  seen_iff : ∀ v, t.Seen v ↔ v ∈ t.waiting ++ t.done
  nodup : (t.waiting ++ t.done).Nodup
  reached : ∀ v ∈ t.waiting ++ t.done, ∃ r ∈ roots, r < size ∧ Reaches next size r v

theorem sound_replicate (next : Nat → List Nat) (size : Nat) (roots : List Nat) :
    Sound next size roots { seen := Array.replicate size false } where
  size_eq := Array.size_replicate
  seen_iff v := by
    rw [Seen, Array.getElem?_replicate]
    split <;> simp
  nodup := List.nodup_nil
  reached := nofun

/-- Everything that is done leads to what has been reached. -/
def Closed (next : Nat → List Nat) (size : Nat) (t : Flood) : Prop :=
  ∀ v ∈ t.done, ∀ w, Edge next size v w → t.Seen w

namespace Sound

theorem seen_of_ne (h : Sound next size roots t) (hlt : v < size) (hne : t.seen[v]? ≠ some false) : t.Seen v := by
  have hsize : v < t.seen.size := h.size_eq.symm ▸ hlt
  have hget : t.seen[v]? = some t.seen[v] := Array.getElem?_eq_getElem hsize
  rw [Seen, hget]
  rw [hget] at hne
  exact congrArg some (Bool.not_eq_false _ ▸ fun heq => hne (congrArg some heq))

/-- A vertex is reached that a root reaches. -/
theorem reach (h : Sound next size roots t) (order : Waiting)
    (hv : v < size → ∃ r ∈ roots, r < size ∧ Reaches next size r v) : Sound next size roots (t.reach order v) := by
  by_cases hnew : t.seen[v]? = some false
  · obtain ⟨hlt, hfalse⟩ := Array.getElem?_eq_some_iff.1 hnew
    have hperm : (order.add v t.waiting ++ t.done).Perm (v :: (t.waiting ++ t.done)) :=
      (order.perm_add v t.waiting).append_right t.done
    rw [reach_of_new order hnew]
    refine ⟨(Array.size_setIfInBounds ..).trans h.size_eq, fun w => ?_, hperm.nodup_iff.2 ?_, fun w hw => ?_⟩
    · rw [hperm.mem_iff, List.mem_cons, ← h.seen_iff, Seen, Seen, Array.getElem?_setIfInBounds]
      split
      · next heq => simp [← heq, hlt]
      · next hne => simp [Ne.symm hne]
    · refine List.nodup_cons.2 ⟨?_, h.nodup⟩
      rw [← h.seen_iff, Seen, hnew]
      nofun
    · rcases List.mem_cons.1 (hperm.mem_iff.1 hw) with rfl | hw
      · exact hv (h.size_eq ▸ hlt)
      · exact h.reached w hw
  · rw [reach_of_seen order hnew]
    exact h

/-- After some vertices have been reached, nothing is forgotten, and those of them that exist are there. -/
theorem foldl_reach (h : Sound next size roots t) (order : Waiting) (vertices : List Nat)
    (hvertices : ∀ v ∈ vertices, v < size → ∃ r ∈ roots, r < size ∧ Reaches next size r v) :
    Sound next size roots (vertices.foldl (Flood.reach order) t) ∧
      (vertices.foldl (Flood.reach order) t).done = t.done ∧
      (∀ v, t.Seen v → (vertices.foldl (Flood.reach order) t).Seen v) ∧
      ∀ v ∈ vertices, v < size → (vertices.foldl (Flood.reach order) t).Seen v := by
  induction vertices generalizing t with
  | nil => exact ⟨h, rfl, fun _ => id, nofun⟩
  | cons v vertices ih =>
    obtain ⟨hv, hvertices⟩ := List.forall_mem_cons.1 hvertices
    obtain ⟨hsound, hdone, hmono, hseen⟩ := ih (h.reach order hv) hvertices
    have hstep : (t.reach order v).done = t.done ∧ (∀ w, t.Seen w → (t.reach order v).Seen w) ∧
        (v < size → (t.reach order v).Seen v) := by
      by_cases hnew : t.seen[v]? = some false
      · have hlt := (Array.getElem?_eq_some_iff.1 hnew).1
        rw [reach_of_new order hnew]
        refine ⟨rfl, fun w hw => ?_, fun _ => ?_⟩
        · rw [Seen, Array.getElem?_setIfInBounds]
          split
          · rfl
          · exact hw
        · rw [Seen, Array.getElem?_setIfInBounds]
          simp [hlt]
      · rw [reach_of_seen order hnew]
        exact ⟨rfl, fun _ => id, fun hlt => h.seen_of_ne hlt hnew⟩
    exact ⟨hsound, hdone.trans hstep.1, fun w hw => hmono w (hstep.2.1 w hw),
      List.forall_mem_cons.2 ⟨fun hlt => hmono v (hstep.2.2 hlt), hseen⟩⟩

/-- In the end nothing waits, and the edges of everything that has been reached have been followed. -/
theorem run (h : Sound next size roots t) (hclosed : t.Closed next size) (order : Waiting) :
    Sound next size roots (t.run next order) ∧ (t.run next order).Closed next size ∧
      (t.run next order).waiting = [] ∧ ∀ v, t.Seen v → (t.run next order).Seen v := by
  induction t using Flood.run.induct next order with
  | case1 t hnil =>
    rw [run_of_nil hnil]
    exact ⟨h, hclosed, hnil, fun _ => id⟩
  | case2 t v waiting hcons ih =>
    have hmove : (t.waiting ++ t.done).Perm (waiting ++ v :: t.done) := by
      rw [hcons]
      exact List.perm_middle.symm
    have htake : Sound next size roots { t with waiting, done := v :: t.done } :=
      ⟨h.size_eq, fun w => (h.seen_iff w).trans hmove.mem_iff, hmove.nodup_iff.1 h.nodup,
        fun w hw => h.reached w (hmove.mem_iff.2 hw)⟩
    obtain ⟨hsound, hdone, hmono, hseen⟩ := htake.foldl_reach order (next v) fun w hw hlt => by
      obtain ⟨r, hr, hlt', hreaches⟩ := h.reached v (hmove.mem_iff.2 (by simp))
      exact ⟨r, hr, hlt', hreaches.tail ⟨hw, hlt⟩⟩
    have hclosed' : ((next v).foldl (Flood.reach order) { t with waiting, done := v :: t.done }).Closed next size := by
      intro u hu w e
      rw [hdone] at hu
      rcases List.mem_cons.1 hu with rfl | hu
      · exact hseen w e.1 e.2
      · exact hmono w (hclosed u hu w e)
    obtain ⟨hsound, hclosed, hnil, hmono'⟩ := ih hsound hclosed'
    rw [run_of_cons hcons]
    exact ⟨hsound, hclosed, hnil, fun w hw => hmono' w (hmono w hw)⟩

end Sound

end Flood

/-- The search from some vertices, with an array of marks to begin with. -/
def floodFrom (order : Waiting) (next : Nat → List Nat) (seen : Array Bool) (roots : List Nat) : Flood :=
  (roots.foldl (Flood.reach order) { seen }).run next order

/-- The search from some vertices of a graph with `size` vertices. -/
def flood (order : Waiting) (next : Nat → List Nat) (size : Nat) (roots : List Nat) : Flood :=
  floodFrom order next (Array.replicate size false) roots

variable {next : Nat → List Nat} {size : Nat} {roots : List Nat} {v : Nat}

theorem sound_flood (order : Waiting) (next : Nat → List Nat) (size : Nat) (roots : List Nat) :
    (flood order next size roots).Sound next size roots ∧ (flood order next size roots).Closed next size ∧
      (flood order next size roots).waiting = [] ∧ ∀ r ∈ roots, r < size → (flood order next size roots).Seen r := by
  obtain ⟨hsound, hdone, -, hroots⟩ := (Flood.sound_replicate next size roots).foldl_reach order roots
    fun r hr hlt => ⟨r, hr, hlt, .refl⟩
  obtain ⟨hsound, hclosed, hnil, hmono⟩ := hsound.run (fun v hv => absurd (hdone ▸ hv) List.not_mem_nil) order
  exact ⟨hsound, hclosed, hnil, fun r hr hlt => hmono r (hroots r hr hlt)⟩

/-- The search is done with exactly what its roots reach. -/
theorem mem_done_flood (order : Waiting) :
    v ∈ (flood order next size roots).done ↔ ∃ r ∈ roots, r < size ∧ Reaches next size r v := by
  obtain ⟨hsound, hclosed, hnil, hroots⟩ := sound_flood order next size roots
  have hseen := hsound.seen_iff
  have hreached := hsound.reached
  rw [hnil, List.nil_append] at hreached
  simp only [hnil, List.nil_append] at hseen
  refine ⟨hreached v, ?_⟩
  rintro ⟨r, hr, hlt, hreaches⟩
  induction hreaches with
  | refl => exact (hseen r).1 (hroots r hr hlt)
  | tail _ e ih => exact (hseen _).1 (hclosed _ ih _ e)

theorem nodup_done_flood (order : Waiting) : (flood order next size roots).done.Nodup := by
  obtain ⟨hsound, -, hnil, -⟩ := sound_flood order next size roots
  have hnodup := hsound.nodup
  rwa [hnil, List.nil_append] at hnodup

theorem seen_iff_mem_done_flood (order : Waiting) :
    (flood order next size roots).Seen v ↔ v ∈ (flood order next size roots).done := by
  obtain ⟨hsound, -, hnil, -⟩ := sound_flood order next size roots
  rw [hsound.seen_iff, hnil, List.nil_append]

/-- The search marks what a depth-first search marks. -/
theorem seen_flood (order : Waiting) (next : Nat → List Nat) (size : Nat) (roots : List Nat) :
    (flood order next size roots).seen = reachable next size roots := by
  have hsize := (sound_flood order next size roots).1.size_eq
  refine Array.ext (hsize.trans (size_reachable roots).symm) fun v hv hv' => ?_
  have hseen : (flood order next size roots).Seen v ↔ _ := (seen_iff_mem_done_flood order).trans (mem_done_flood order)
  rw [← reachable_iff, Flood.Seen, Array.getElem?_eq_getElem hv, Option.some_inj, Array.getD_eq_getD_getElem?,
    Array.getElem?_eq_getElem hv', Option.getD_some] at hseen
  exact Bool.eq_iff_iff.2 hseen

end Transducer.Graph
