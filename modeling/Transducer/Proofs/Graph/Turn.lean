import Mathlib
import Transducer.Proofs.Graph.LowLink

/-!
# Every turn of the search for components

`Sound` is what holds of Tarjan's search at every turn, and `Sound.turn` the step: an edge leads to a new vertex
(`enters`), back to the stack (`returns`) or to a component that has been found (`passes`), or a vertex is left, and
waits above its caller (`merges`) or makes a component with what waits above it (`closes`). In that case the vertices
above it are exactly its component (`Sound.mem_iff_linked`).

`Sound.stays_or_settles` tells what a turn does to the components, and `Sound.exists_turn` that it can be taken.
-/

namespace Transducer.Graph

variable {next : Nat → List Nat} {size : Nat}

namespace Tarjan

variable {t t' : Tarjan} {v w x i j passed : Nat} {inner below : List Nat} {calls : List (Nat × Nat)}

/-! ### The whole state -/

/-- What holds of a search at every turn. -/
structure Sound (next : Nat → List Nat) (size : Nat) (t : Tarjan) : Prop where
  size_index : t.index.size = size
  size_low : t.low.size = size
  size_onStack : t.onStack.size = size
  size_number : t.number.size = size
  index_lt : ∀ {v i}, t.HasIndex v i → i < t.counter
  reached : ∀ v ∈ t.stack, t.Reached v
  onStack_iff : ∀ v, t.onStack.getD v false = true ↔ v ∈ t.stack
  later : t.stack.Pairwise t.Later
  frames : Frames next size t t.calls t.stack
  numbers : Numbers next size t.Settled (t.number.getD · 0) t.count

theorem not_hasIndex_init : ¬ (init size).HasIndex v i := by
  rw [HasIndex, init, Array.getElem?_replicate]
  split <;> simp

theorem sound_init (next : Nat → List Nat) (size : Nat) : Sound next size (init size) where
  size_index := Array.size_replicate
  size_low := Array.size_replicate
  size_onStack := Array.size_replicate
  size_number := Array.size_replicate
  index_lt h := absurd h not_hasIndex_init
  reached v hv := by cases hv
  onStack_iff v := by
    rw [init, Array.getD_eq_getD_getElem?, Array.getElem?_replicate]
    split <;> simp
  later := .nil
  frames := rfl
  numbers := by
    have hnot : ∀ {v}, ¬ (init size).Settled v := fun h => not_hasIndex_init h.1.choose_spec
    exact ⟨fun h => absurd h hnot, fun h => absurd h hnot, fun h => absurd h hnot, fun h => absurd h hnot,
      fun k hk => absurd hk (Nat.not_lt_zero k)⟩

/-- The component of `v` gets the next number. -/
structure Settles (next : Nat → List Nat) (size v : Nat) (t t' : Tarjan) : Prop where
  count_eq : t'.count = t.count + 1
  settled_iff : ∀ x, t'.Settled x ↔ t.Settled x ∨ Linked next size v x
  number_of_settled : ∀ {x}, t.Settled x → t'.number.getD x 0 = t.number.getD x 0
  number_of_linked : ∀ {x}, Linked next size v x → t'.number.getD x 0 = t.count

/-- Settled are the same vertices with the same numbers. -/
structure Stays (t t' : Tarjan) : Prop where
  settled_iff : ∀ x, t'.Settled x ↔ t.Settled x
  number_eq : t'.number = t.number
  count_eq : t'.count = t.count

namespace Sound

theorem nodup (h : Sound next size t) : t.stack.Nodup := h.later.imp Later.ne

theorem lt_size_of_mem_stack (h : Sound next size t) (hx : x ∈ t.stack) : x < size := by
  obtain ⟨i, hi⟩ := h.reached x hx
  exact h.size_index ▸ hi.lt_size

/-- What is known at the vertex where the search is. -/
theorem exists_frame (h : Sound next size t) (hcalls : t.calls = (v, passed) :: calls) :
    ∃ inner below, t.stack = inner ++ v :: below ∧ Frame next size t v passed inner below ∧
      (∀ c ∈ calls.head?, Edge next size c.1 v) ∧ Frames next size t calls below := by
  have hframes := h.frames
  rwa [hcalls] at hframes

theorem mem_stack (h : Sound next size t) {c : Nat × Nat} (hc : c ∈ t.calls) : c.1 ∈ t.stack := h.frames.mem_stack hc

/-! ### Passing an edge -/

/-- What has been reached and has no component yet is not the new vertex. -/
theorem ne_of_mem_stack (h : Sound next size t) (hnone : t.index[w]? = some none) (hx : x ∈ t.stack) : x ≠ w := by
  rintro rfl
  obtain ⟨i, hi⟩ := h.reached x hx
  cases hnone.symm.trans hi

/-- A new vertex is reached, after an edge has been passed that leads there. -/
theorem enter (h : Sound next size t) (hnone : t.index[w]? = some none)
    (hframes : Frames next size (t.enter w) calls t.stack) (hedge : ∀ c ∈ calls.head?, Edge next size c.1 w) :
    Sound next size (({ t with calls } : Tarjan).enter w) where
  size_index := (Array.size_setIfInBounds ..).trans h.size_index
  size_low := (Array.size_setIfInBounds ..).trans h.size_low
  size_onStack := (Array.size_setIfInBounds ..).trans h.size_onStack
  size_number := h.size_number
  index_lt {v i} hi := by
    rcases (hasIndex_enter hnone).1 hi with ⟨-, rfl⟩ | hi
    · exact Nat.lt_succ_self t.counter
    · exact Nat.lt_succ_of_lt (h.index_lt hi)
  reached v hv := by
    rcases List.mem_cons.1 hv with rfl | hv
    · exact ⟨t.counter, hasIndex_enter_self hnone⟩
    · exact (h.reached v hv).imp fun i hi => (keeps_enter hnone).hasIndex hi
  onStack_iff v := by
    have hw : w < t.onStack.size := by
      rw [h.size_onStack, ← h.size_index]
      exact (Array.getElem?_eq_some_iff.1 hnone).1
    have := h.onStack_iff v
    simp only [Tarjan.enter, List.mem_cons, Array.getD_eq_getD_getElem?, Array.getElem?_setIfInBounds, hw, if_true,
      eq_comm (a := w)] at this ⊢
    split
    · next heq => simp [heq]
    · next hne => simpa [hne] using this
  later := by
    refine List.pairwise_cons.2 ⟨fun v hv => ?_, h.later.imp ?_⟩
    · obtain ⟨i, hi⟩ := h.reached v hv
      exact ⟨t.counter, i, hasIndex_enter_self hnone, (keeps_enter hnone).hasIndex hi, h.index_lt hi⟩
    · rintro v x ⟨i, j, hi, hj, hlt⟩
      exact ⟨i, j, (keeps_enter hnone).hasIndex hi, (keeps_enter hnone).hasIndex hj, hlt⟩
  frames := by
    have hindex : (t.enter w).HasIndex w t.counter := hasIndex_enter_self hnone
    have hlow : (t.enter w).lowOf w = t.counter := by
      rw [lowOf_enter (h.size_low.symm ▸ h.size_index ▸ (Array.getElem?_eq_some_iff.1 hnone).1), if_pos rfl]
    exact ⟨[], t.stack, rfl,
      ⟨by simp, ⟨t.counter, hindex, hlow.le⟩, ⟨w, List.mem_cons_self, hlow.symm ▸ hindex, .refl⟩,
        by simp [Passed]⟩, hedge, hframes.keep ⟨id, fun _ h => h⟩ fun _ _ => rfl⟩
  numbers := by
    have hsettled : (({ t with calls } : Tarjan).enter w).Settled = t.Settled :=
      funext fun x => propext (settled_enter hnone)
    rw [hsettled]
    exact h.numbers

theorem edge_of_hasIndex (h : Sound next size t) (hw : (next v)[passed]? = some w) (hi : t.HasIndex w i) :
    Edge next size v w := ⟨List.mem_of_getElem? hw, h.size_index ▸ hi.lt_size⟩

/-- An edge leads to a new vertex. -/
theorem enters (h : Sound next size t) (hcalls : t.calls = (v, passed) :: calls) (hw : (next v)[passed]? = some w)
    (hnone : t.index[w]? = some none) :
    Sound next size (({ t with calls := (v, passed + 1) :: calls } : Tarjan).enter w) := by
  obtain ⟨inner, below, hstack, hframe, hedge, hbelow⟩ := h.exists_frame hcalls
  have hsize : w < size := h.size_index ▸ (Array.getElem?_eq_some_iff.1 hnone).1
  have hstill : ∀ c ∈ t.calls, (t.enter w).lowOf c.1 = t.lowOf c.1 := fun c hc => by
    rw [lowOf_enter (h.size_low.symm ▸ hsize), if_neg (h.ne_of_mem_stack hnone (h.mem_stack hc))]
  rw [hcalls] at hstill
  have hv : (t.enter w).lowOf v = t.lowOf v := hstill (v, passed) List.mem_cons_self
  refine h.enter hnone ?_ fun c hc => ?_
  · refine ⟨inner, below, hstack, (hframe.keep (keeps_enter hnone) hv).pass hw (hasIndex_enter_self hnone) fun _ => ?_,
      hedge, hbelow.keep (keeps_enter hnone) fun c hc => hstill c (List.mem_cons_of_mem _ hc)⟩
    obtain ⟨i, hi, hle⟩ := hframe.low_le
    rw [hv]
    exact hle.trans (h.index_lt hi).le
  · obtain rfl : (v, passed + 1) = c := Option.some.inj hc
    exact ⟨List.mem_of_getElem? hw, hsize⟩

/-- An edge leads to a vertex that has a component. -/
theorem passes (h : Sound next size t) (hcalls : t.calls = (v, passed) :: calls) (hw : (next v)[passed]? = some w)
    (hi : t.HasIndex w i) (hnot : w ∉ t.stack) :
    Sound next size { t with calls := (v, passed + 1) :: calls } := by
  obtain ⟨inner, below, hstack, hframe, hedge, hbelow⟩ := h.exists_frame hcalls
  have hk : Keeps t { t with calls := (v, passed + 1) :: calls } := ⟨id, fun _ h => h⟩
  exact { h with
    frames := ⟨inner, below, hstack, (hframe.pass hw hi fun hs => absurd hs hnot).keep hk rfl, hedge,
      hbelow.keep hk fun _ _ => rfl⟩ }

/-- The vertices where the search is are below the last one. -/
theorem ne_of_mem_calls (h : Sound next size t) (hstack : t.stack = inner ++ v :: below)
    (hbelow : Frames next size t calls below) {c : Nat × Nat} (hc : c ∈ calls) : c.1 ≠ v := by
  have hnodup := h.nodup
  rw [hstack] at hnodup
  rintro heq
  exact (List.nodup_cons.1 (List.nodup_append.1 hnodup).2.1).1 (heq ▸ hbelow.mem_stack hc)

/-- An edge leads back to a vertex on the stack. -/
theorem returns (h : Sound next size t) (hcalls : t.calls = (v, passed) :: calls)
    (hw : (next v)[passed]? = some w) (hi : t.HasIndex w i) (hmem : w ∈ t.stack) :
    Sound next size (({ t with calls := (v, passed + 1) :: calls } : Tarjan).lower v i) := by
  obtain ⟨inner, below, hstack, hframe, hedge, hbelow⟩ := h.exists_frame hcalls
  have hk : Keeps t (({ t with calls := (v, passed + 1) :: calls } : Tarjan).lower v i) := ⟨id, fun _ h => h⟩
  have hlower : Frame next size (({ t with calls := (v, passed + 1) :: calls } : Tarjan).lower v i) v passed inner
      below :=
    (hframe.lower (hstack ▸ h.later) (hstack ▸ hmem) hi (h.edge_of_hasIndex hw hi)).keep ⟨id, fun _ h => h⟩ rfl
  have hle : (({ t with calls := (v, passed + 1) :: calls } : Tarjan).lower v i).lowOf v ≤ i := by
    rw [lowOf_lower, if_pos rfl]
    exact min_le_right ..
  refine { h with
    size_low := (Array.size_modify ..).trans h.size_low
    frames := ⟨inner, below, hstack, hlower.pass hw hi fun _ => hle, hedge, hbelow.keep hk ?_⟩ }
  intro c hc
  rw [lowOf_lower, if_neg (h.ne_of_mem_calls hstack hbelow hc)]
  rfl

/-! ### Leaving a vertex that leads further back -/

/-- A vertex that leads further back is left to wait above its caller. -/
theorem merges (h : Sound next size t) (hcalls : t.calls = (v, passed) :: calls) (hend : (next v)[passed]? = none)
    (hi : t.HasIndex v i) (hlt : t.lowOf v < i) : Sound next size (({ t with calls } : Tarjan).report v) := by
  obtain ⟨inner, below, hstack, hframe, hedge, hbelow⟩ := h.exists_frame hcalls
  cases calls with
  | nil =>
    -- there is nothing below the first vertex of all that it could lead back to
    obtain rfl : below = [] := hbelow
    obtain ⟨x, hx, hlow, -⟩ := hframe.exists_low
    obtain rfl := List.mem_singleton.1 hx
    exact absurd (hlow.unique hi) hlt.ne
  | cons c calls =>
    obtain ⟨u, passed'⟩ := c
    rw [report_cons]
    have hlinked : Linked next size u v :=
      ⟨.single (hedge (u, passed') rfl), hframe.reaches_caller hbelow hi hlt⟩
    obtain ⟨inner', below', rfl, hframe', hedge', hbelow'⟩ := hbelow
    have hstack' : t.stack = (inner ++ v :: inner') ++ u :: below' := by
      rw [hstack]
      simp
    have hk : Keeps t (({ t with calls := (u, passed') :: calls } : Tarjan).lower u (t.lowOf v)) :=
      ⟨id, fun _ h => h⟩
    have hmerge : Frame next size (({ t with calls := (u, passed') :: calls } : Tarjan).lower u (t.lowOf v)) u passed'
        (inner ++ v :: inner') below' :=
      (hframe.merge hframe' (hstack ▸ h.later) hend hlinked).keep ⟨id, fun _ h => h⟩ rfl
    refine { h with
      size_low := (Array.size_modify ..).trans h.size_low
      frames := ⟨inner ++ v :: inner', below', hstack', hmerge, hedge', hbelow'.keep hk fun c hc => ?_⟩ }
    rw [lowOf_lower, if_neg (h.ne_of_mem_calls hstack' hbelow' hc)]
    rfl

/-! ### Leaving the first vertex of a component -/

/-- From a component an edge leads to the component, or to one that has been found. -/
theorem mem_or_settled (h : Sound next size t) (hstack : t.stack = inner ++ v :: below)
    (hframe : Frame next size t v passed inner below) (hend : (next v)[passed]? = none)
    (hroot : t.HasIndex v (t.lowOf v)) {u : Nat} (hu : u ∈ v :: inner) (e : Edge next size u x) :
    x ∈ v :: inner ∨ t.Settled x := by
  have hpassed : Passed next v passed inner x := by
    rcases List.mem_cons.1 hu with rfl | hu
    · exact .inl (by rw [List.take_of_length_le (List.getElem?_eq_none_iff.1 hend)]; exact e.1)
    · exact .inr ⟨u, hu, e.1⟩
  obtain ⟨i, hi, hle⟩ := hframe.passed x hpassed
  by_cases hx : x ∈ t.stack
  · have hlow := hle hx
    rw [hstack] at hx
    rcases List.mem_append.1 hx with hx | hx
    · exact .inl (List.mem_cons_of_mem _ hx)
    · rcases List.mem_cons.1 hx with rfl | hx
      · exact .inl List.mem_cons_self
      · exact absurd (lt_of_mem_below (hstack ▸ h.later) hx hi hroot) hlow.not_gt
  · exact .inr ⟨⟨i, hi⟩, hx⟩

/-- A vertex that leads to nothing below it has its component above it. -/
theorem mem_iff_linked (h : Sound next size t) (hstack : t.stack = inner ++ v :: below)
    (hframe : Frame next size t v passed inner below) (hend : (next v)[passed]? = none)
    (hroot : t.HasIndex v (t.lowOf v)) : x ∈ v :: inner ↔ Linked next size v x := by
  constructor
  · intro hx
    rcases List.mem_cons.1 hx with rfl | hx
    · exact .refl x
    · exact hframe.linked x hx
  · rintro ⟨hto, hback⟩
    induction hto with
    | refl => exact List.mem_cons_self
    | @tail u x _ e ih =>
      rcases h.mem_or_settled hstack hframe hend hroot (ih (.head e hback)) e with hx | hx
      · exact hx
      · -- what has its component leads only to what has one, and so not back here
        refine absurd ?_ (h.numbers.settled_of_reaches hx hback).2
        rw [hstack]
        simp

/-- The first vertex of a component tells its caller nothing new. -/
theorem lowOf_report (h : Sound next size t) (hstack : t.stack = inner ++ v :: below)
    (hbelow : Frames next size t calls below) (hroot : t.HasIndex v (t.lowOf v)) (x : Nat) :
    (({ t with calls } : Tarjan).report v).lowOf x = t.lowOf x := by
  cases calls with
  | nil => rfl
  | cons c calls =>
    have hmem := hbelow.mem_stack List.mem_cons_self
    obtain ⟨inner', below', rfl, hframe', -, -⟩ := hbelow
    obtain ⟨i, hi, hle⟩ := hframe'.low_le
    have hlt := lt_of_mem_below (hstack ▸ h.later) hmem hi hroot
    rw [report_cons, lowOf_lower]
    split
    · next heq =>
      subst heq
      exact min_eq_left (hle.trans hlt.le)
    · rfl

theorem settles_pop (h : Sound next size t) (hstack : t.stack = inner ++ v :: below)
    (hmem : ∀ x, x ∈ inner ++ [v] ↔ Linked next size v x) (low : Array Nat) :
    Settles next size v t (({ t with calls, low } : Tarjan).pop (inner ++ [v]) below) := by
  have hparts : t.stack = (inner ++ [v]) ++ below := hstack.trans (List.append_cons ..)
  have hnumber : ∀ x, (({ t with calls, low } : Tarjan).pop (inner ++ [v]) below).number.getD x 0 =
      if x ∈ inner ++ [v] then t.count else t.number.getD x 0 := fun x =>
    getD_foldl_setIfInBounds fun u hu =>
      h.size_number.symm ▸ h.lt_size_of_mem_stack (hparts ▸ List.mem_append_left _ hu)
  refine ⟨rfl, fun x => ?_, fun {x} hx => ?_, fun {x} hx => ?_⟩
  · rw [← hmem]
    constructor
    · rintro ⟨hreached, hx⟩
      by_cases hs : x ∈ t.stack
      · rw [hparts] at hs
        exact .inr ((List.mem_append.1 hs).resolve_right hx)
      · exact .inl ⟨hreached, hs⟩
    · rintro (⟨hreached, hx⟩ | hx)
      · exact ⟨hreached, fun hs => hx (hparts ▸ List.mem_append_right _ hs)⟩
      · have hnodup := h.nodup
        rw [hparts] at hnodup
        exact ⟨h.reached x (hparts ▸ List.mem_append_left _ hx), List.disjoint_of_nodup_append hnodup hx⟩
  · rw [hnumber, if_neg fun hs => hx.2 (hparts ▸ List.mem_append_left _ hs)]
  · rw [hnumber, if_pos ((hmem x).2 hx)]

/-- Leaving the first vertex of a component takes the component from the stack. -/
theorem exists_pop (h : Sound next size t) (hcalls : t.calls = (v, passed) :: calls)
    (hroot : t.HasIndex v (t.lowOf v)) :
    ∃ inner below low, t.stack = inner ++ v :: below ∧ Frame next size t v passed inner below ∧
      Frames next size t calls below ∧ low.size = t.low.size ∧ (∀ x, low.getD x 0 = t.lowOf x) ∧
      (({ t with calls } : Tarjan).report v).close v = ({ t with calls, low } : Tarjan).pop (inner ++ [v]) below := by
  obtain ⟨inner, below, hstack, hframe, -, hbelow⟩ := h.exists_frame hcalls
  have hlow := h.lowOf_report hstack hbelow hroot
  obtain ⟨low, hreport, hsize⟩ := exists_report ({ t with calls } : Tarjan) v
  rw [hreport] at hlow ⊢
  have hv : v ∉ inner := fun hv =>
    List.disjoint_of_nodup_append (hstack ▸ h.nodup) hv List.mem_cons_self
  have hroot' : ({ t with calls, low } : Tarjan).HasIndex v (({ t with calls, low } : Tarjan).lowOf v) := by
    rw [hlow v]
    exact hroot
  exact ⟨inner, below, low, hstack, hframe, hbelow, hsize, hlow, close_eq hroot' hstack hv⟩

/-- A vertex that leads to nothing below it is left together with its component. -/
theorem settles (h : Sound next size t) (hcalls : t.calls = (v, passed) :: calls) (hend : (next v)[passed]? = none)
    (hroot : t.HasIndex v (t.lowOf v)) :
    Settles next size v t ((({ t with calls } : Tarjan).report v).close v) := by
  obtain ⟨inner, below, low, hstack, hframe, -, -, -, heq⟩ := h.exists_pop hcalls hroot
  rw [heq]
  refine h.settles_pop hstack (fun x => ?_) low
  rw [← h.mem_iff_linked hstack hframe hend hroot, List.mem_append, List.mem_singleton, List.mem_cons, or_comm]

theorem closes (h : Sound next size t) (hcalls : t.calls = (v, passed) :: calls) (hend : (next v)[passed]? = none)
    (hroot : t.HasIndex v (t.lowOf v)) : Sound next size ((({ t with calls } : Tarjan).report v).close v) := by
  have hsettles := h.settles hcalls hend hroot
  obtain ⟨inner, below, low, hstack, hframe, hbelow, hsize, hlow, heq⟩ := h.exists_pop hcalls hroot
  rw [heq] at hsettles ⊢
  have hparts : t.stack = (inner ++ [v]) ++ below := hstack.trans (List.append_cons ..)
  have hsub : ∀ {x}, x ∈ below → x ∈ t.stack := fun hx => hparts ▸ List.mem_append_right _ hx
  have hmem : ∀ {x}, x ∈ v :: inner ↔ Linked next size v x := h.mem_iff_linked hstack hframe hend hroot
  constructor
  · exact h.size_index
  · exact hsize.trans h.size_low
  · exact (size_foldl_setIfInBounds ..).trans h.size_onStack
  · exact (size_foldl_setIfInBounds ..).trans h.size_number
  · exact h.index_lt
  · exact fun x hx => h.reached x (hsub hx)
  · intro x
    have hentry : (({ t with calls, low } : Tarjan).pop (inner ++ [v]) below).onStack.getD x false =
        if x ∈ inner ++ [v] then false else t.onStack.getD x false :=
      getD_foldl_setIfInBounds fun u hu =>
        h.size_onStack.symm ▸ h.lt_size_of_mem_stack (hparts ▸ List.mem_append_left _ hu)
    rw [hentry]
    split
    · next hx => exact iff_of_false Bool.false_ne_true (List.disjoint_of_nodup_append (hparts ▸ h.nodup) hx)
    · next hx =>
      rw [h.onStack_iff, hparts, List.mem_append]
      exact or_iff_right hx
  · exact (List.pairwise_append.1 (hparts ▸ h.later)).2.1
  · exact hbelow.keep ⟨id, fun _ hx => hsub hx⟩ fun c _ => hlow c.1
  · rw [show (({ t with calls, low } : Tarjan).pop (inner ++ [v]) below).count = t.count + 1 from rfl]
    refine h.numbers.add (v := v) ?_ hsettles.settled_iff (fun hx e => ?_) hsettles.number_of_settled
      hsettles.number_of_linked
    · exact fun hv => hv.2 (by rw [hstack]; simp)
    · rw [← hmem]
      exact (h.mem_or_settled hstack hframe hend hroot (hmem.2 hx) e).symm

/-! ### A turn -/

/-- The vertex where the search is has its own index for a low link, or a lower one. -/
theorem hasIndex_or_lt (h : Sound next size t) (hcalls : t.calls = (v, passed) :: calls) :
    t.HasIndex v (t.lowOf v) ∨ ∃ i, t.HasIndex v i ∧ t.lowOf v < i := by
  obtain ⟨inner, below, -, hframe, -⟩ := h.exists_frame hcalls
  obtain ⟨i, hi, hle⟩ := hframe.low_le
  rcases hle.eq_or_lt with heq | hlt
  · exact .inl (heq ▸ hi)
  · exact .inr ⟨i, hi, hlt⟩

/-- What holds of a search at every turn holds after the turn. -/
theorem turn (h : Sound next size t) (hcalls : t.calls = (v, passed) :: calls)
    (hturn : t.turn next v passed calls = some t') : Sound next size t' := by
  cases turned_of_turn hturn with
  | enters hw hnone => exact h.enters hcalls hw hnone
  | returns hw hi hstack => exact h.returns hcalls hw hi ((h.onStack_iff _).1 hstack)
  | passes hw hi hstack =>
    exact h.passes hcalls hw hi fun hmem => Bool.false_ne_true (hstack.symm.trans ((h.onStack_iff _).2 hmem))
  | leaves hend =>
    rcases h.hasIndex_or_lt hcalls with hroot | ⟨i, hi, hlt⟩
    · exact h.closes hcalls hend hroot
    · rw [close_report hi hlt]
      exact h.merges hcalls hend hi hlt

/-- Only a vertex that is left settles anything, and then it settles its component. -/
theorem stays_or_settles (h : Sound next size t) (hcalls : t.calls = (v, passed) :: calls)
    (hturn : t.turn next v passed calls = some t') :
    Stays t t' ∨ (next v)[passed]? = none ∧ Settles next size v t t' := by
  cases turned_of_turn hturn with
  | enters hw hnone => exact .inl ⟨fun x => settled_enter hnone, rfl, rfl⟩
  | returns hw hi hstack => exact .inl ⟨fun x => Iff.rfl, rfl, rfl⟩
  | passes hw hi hstack => exact .inl ⟨fun x => Iff.rfl, rfl, rfl⟩
  | leaves hend =>
    rcases h.hasIndex_or_lt hcalls with hroot | ⟨i, hi, hlt⟩
    · exact .inr ⟨hend, h.settles hcalls hend hroot⟩
    · obtain ⟨low, heq, -⟩ := exists_report ({ t with calls } : Tarjan) v
      rw [close_report hi hlt, heq]
      exact .inl ⟨fun x => Iff.rfl, rfl, rfl⟩

/-- A turn can be taken if all edges lead to vertices that exist. -/
theorem exists_turn (h : Sound next size t) (hcalls : t.calls = (v, passed) :: calls)
    (hnext : ∀ v < size, ∀ w ∈ next v, w < size) : ∃ t', t.turn next v passed calls = some t' := by
  have hv : v < size := h.lt_size_of_mem_stack (h.mem_stack (c := (v, passed)) (hcalls ▸ List.mem_cons_self))
  unfold Tarjan.turn
  split
  · next w hw =>
    have hlt : w < t.index.size := h.size_index.symm ▸ hnext v hv w (List.mem_of_getElem? hw)
    dsimp only
    rw [Array.getElem?_eq_getElem hlt]
    split
    · next hnone => cases hnone
    · exact ⟨_, rfl⟩
    · exact ⟨_, rfl⟩
  · exact ⟨_, rfl⟩

end Sound

end Tarjan

end Transducer.Graph
