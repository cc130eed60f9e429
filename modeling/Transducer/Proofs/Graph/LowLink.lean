import Mathlib
import Transducer.Proofs.Graph.Component
import Transducer.Proofs.Graph.Tarjan

/-!
# Low links

The stack of Tarjan's search falls into parts, one for each vertex where the search is: that vertex, and above it
those reached from it that are finished and wait for their component. `Frame` says that these are linked with it, and
what its low link is: the index of something that it reaches further down, and no more than the index of anything on
the stack that an edge passed so far leads to. `Frame.pass`, `Frame.lower` and `Frame.merge` say what becomes of a part
when one more edge has been passed, when it leads back to the stack, and when the vertex above is left.

`Numbers` is what holds of the components that have been taken from the stack; `Numbers.add` gives one more component
the next number.
-/

namespace Transducer.Graph

variable {next : Nat → List Nat} {size : Nat}

namespace Tarjan

variable {t t' : Tarjan} {v w x i j passed : Nat} {inner below : List Nat} {calls : List (Nat × Nat)}

/-! ### What a state tells of a vertex -/

/-- The vertex has been reached, and this many before it. -/
def HasIndex (t : Tarjan) (v i : Nat) : Prop := t.index[v]? = some (some i)

/-- The vertex has been reached. -/
def Reached (t : Tarjan) (v : Nat) : Prop := ∃ i, t.HasIndex v i

/-- The low link of a vertex. -/
def lowOf (t : Tarjan) (v : Nat) : Nat := t.low.getD v 0

/-- The vertex has its component. -/
def Settled (t : Tarjan) (v : Nat) : Prop := t.Reached v ∧ v ∉ t.stack

/-- The first vertex has been reached after the second. -/
def Later (t : Tarjan) (v w : Nat) : Prop := ∃ i j, t.HasIndex v i ∧ t.HasIndex w j ∧ j < i

theorem HasIndex.unique (h : t.HasIndex v i) (h' : t.HasIndex v j) : i = j :=
  Option.some.inj (Option.some.inj (h.symm.trans h'))

theorem HasIndex.lt_size (h : t.HasIndex v i) : v < t.index.size := (Array.getElem?_eq_some_iff.1 h).1

theorem getD_index_eq_some_iff : t.index.getD v none = some i ↔ t.HasIndex v i := by
  rw [HasIndex, Array.getD_eq_getD_getElem?]
  cases t.index[v]? <;> simp

theorem Later.ne (h : t.Later v w) : v ≠ w := by
  rintro rfl
  obtain ⟨i, j, hi, hj, hlt⟩ := h
  exact hlt.ne (hj.unique hi)

@[simp] theorem lowOf_lower (t : Tarjan) (v i x : Nat) :
    (t.lower v i).lowOf x = if x = v then min (t.lowOf v) i else t.lowOf x := by
  simp only [lowOf, lower, Array.getD_eq_getD_getElem?, Array.getElem?_modify, eq_comm (a := v)]
  split
  · next h =>
    subst h
    cases t.low[x]? <;> simp
  · rfl

theorem lowOf_enter (hw : w < t.low.size) : (t.enter w).lowOf x = if x = w then t.counter else t.lowOf x := by
  simp only [lowOf, enter, Array.getD_eq_getD_getElem?, Array.getElem?_setIfInBounds, eq_comm (a := w), hw, if_true]
  split <;> rfl

/-- What leads back from a vertex leads back from its caller. -/
theorem report_cons {c : Nat × Nat} :
    ({ t with calls := c :: calls } : Tarjan).report v =
      ({ t with calls := c :: calls } : Tarjan).lower c.1 (t.lowOf v) := rfl

theorem exists_report (t : Tarjan) (v : Nat) : ∃ low, t.report v = { t with low } ∧ low.size = t.low.size := by
  unfold report
  split
  · exact ⟨_, rfl, Array.size_modify ..⟩
  · exact ⟨t.low, rfl, rfl⟩

theorem lowOf_report_le (t : Tarjan) (v x : Nat) : (t.report v).lowOf x ≤ t.lowOf x := by
  unfold report
  split
  · rw [lowOf_lower]
    split
    · next heq =>
      subst heq
      exact min_le_left ..
    · exact le_rfl
  · exact le_rfl

/-- A new vertex gets the next index. -/
theorem hasIndex_enter (h : t.index[w]? = some none) :
    (t.enter w).HasIndex x i ↔ (x = w ∧ i = t.counter) ∨ t.HasIndex x i := by
  have hw := (Array.getElem?_eq_some_iff.1 h).1
  simp only [HasIndex, enter, Array.getElem?_setIfInBounds, eq_comm (a := w), hw, if_true]
  split
  · next heq =>
    subst heq
    simp [h, eq_comm]
  · next hne => simp [hne]

theorem hasIndex_enter_self (h : t.index[w]? = some none) : (t.enter w).HasIndex w t.counter :=
  (hasIndex_enter h).2 (.inl ⟨rfl, rfl⟩)

/-! ### The stack -/

/-- On a stack with what was reached later on top, what has no higher index than a vertex is not above it. -/
theorem mem_of_hasIndex_le (h : (inner ++ v :: below).Pairwise t.Later) (hx : x ∈ inner ++ v :: below)
    (hi : t.HasIndex x i) (hj : t.HasIndex v j) (hle : i ≤ j) : x ∈ v :: below := by
  rcases List.mem_append.1 hx with hx | hx
  · obtain ⟨i', j', hi', hj', hlt⟩ := (List.pairwise_append.1 h).2.2 x hx v List.mem_cons_self
    have := hi.unique hi'
    have := hj.unique hj'
    omega
  · exact hx

/-- What is below a vertex has a lower index. -/
theorem lt_of_mem_below (h : (inner ++ v :: below).Pairwise t.Later) (hx : x ∈ below) (hi : t.HasIndex x i)
    (hj : t.HasIndex v j) : i < j := by
  obtain ⟨j', i', hj', hi', hlt⟩ := (List.pairwise_cons.1 (List.pairwise_append.1 h).2.1).1 x hx
  rwa [hi.unique hi', hj.unique hj']

/-- The search has passed an edge to `x`: one of the first edges of `v`, or one of a vertex that is finished. -/
def Passed (next : Nat → List Nat) (v passed : Nat) (inner : List Nat) (x : Nat) : Prop :=
  x ∈ (next v).take passed ∨ ∃ u ∈ inner, x ∈ next u

/-- What is known at a vertex where the search is, with `inner` above it and `below` under it. -/
structure Frame (next : Nat → List Nat) (size : Nat) (t : Tarjan) (v passed : Nat) (inner below : List Nat) :
    Prop where
  linked : ∀ u ∈ inner, Linked next size v u
  low_le : ∃ i, t.HasIndex v i ∧ t.lowOf v ≤ i
  exists_low : ∃ x ∈ v :: below, t.HasIndex x (t.lowOf v) ∧ Reaches next size v x
  passed : ∀ x, Passed next v passed inner x → ∃ i, t.HasIndex x i ∧ (x ∈ t.stack → t.lowOf v ≤ i)

/-- The stack falls into the parts of the vertices where the search is, each of which led to the next. -/
def Frames (next : Nat → List Nat) (size : Nat) (t : Tarjan) : List (Nat × Nat) → List Nat → Prop
  | [], stack => stack = []
  | (v, passed) :: calls, stack =>
    ∃ inner below, stack = inner ++ v :: below ∧ Frame next size t v passed inner below ∧
      (∀ c ∈ calls.head?, Edge next size c.1 v) ∧ Frames next size t calls below

/-- From one state to the other nothing that has been reached is forgotten or comes back to the stack. -/
structure Keeps (t t' : Tarjan) : Prop where
  hasIndex : ∀ {x i}, t.HasIndex x i → t'.HasIndex x i
  mem_stack : ∀ {x}, t.Reached x → x ∈ t'.stack → x ∈ t.stack

theorem keeps_enter (hnone : t.index[w]? = some none) : Keeps t (t.enter w) where
  hasIndex h := (hasIndex_enter hnone).2 (.inr h)
  mem_stack := by
    rintro x ⟨i, hi⟩ hx
    rcases List.mem_cons.1 hx with rfl | hx
    · cases hnone.symm.trans hi
    · exact hx

theorem settled_enter (hnone : t.index[w]? = some none) : (t.enter w).Settled x ↔ t.Settled x := by
  constructor
  · rintro ⟨⟨i, hi⟩, hx⟩
    rcases (hasIndex_enter hnone).1 hi with ⟨rfl, -⟩ | hi
    · exact absurd List.mem_cons_self hx
    · exact ⟨⟨i, hi⟩, fun hs => hx (List.mem_cons_of_mem _ hs)⟩
  · rintro ⟨⟨i, hi⟩, hx⟩
    exact ⟨⟨i, (keeps_enter hnone).hasIndex hi⟩, fun hs => hx ((keeps_enter hnone).mem_stack ⟨i, hi⟩ hs)⟩

theorem Frame.keep (h : Frame next size t v passed inner below) (hk : Keeps t t')
    (hlow : t'.lowOf v = t.lowOf v) : Frame next size t' v passed inner below where
  linked := h.linked
  low_le := by
    obtain ⟨i, hi, hle⟩ := h.low_le
    exact ⟨i, hk.hasIndex hi, hlow ▸ hle⟩
  exists_low := by
    obtain ⟨x, hx, hi, hr⟩ := h.exists_low
    exact ⟨x, hx, hlow ▸ hk.hasIndex hi, hr⟩
  passed x hx := by
    obtain ⟨i, hi, hle⟩ := h.passed x hx
    exact ⟨i, hk.hasIndex hi, fun hs => hlow ▸ hle (hk.mem_stack ⟨i, hi⟩ hs)⟩

theorem Frames.keep {stack : List Nat} (h : Frames next size t calls stack) (hk : Keeps t t')
    (hlow : ∀ c ∈ calls, t'.lowOf c.1 = t.lowOf c.1) : Frames next size t' calls stack := by
  induction calls generalizing stack with
  | nil => exact h
  | cons c calls ih =>
    obtain ⟨inner, below, rfl, hframe, hedge, hbelow⟩ := h
    exact ⟨inner, below, rfl, hframe.keep hk (hlow c List.mem_cons_self), hedge,
      ih hbelow fun c' hc' => hlow c' (List.mem_cons_of_mem _ hc')⟩

/-- One more edge has been passed. -/
theorem Frame.pass (h : Frame next size t v passed inner below) (hw : (next v)[passed]? = some w)
    (hi : t.HasIndex w i) (hle : w ∈ t.stack → t.lowOf v ≤ i) : Frame next size t v (passed + 1) inner below := by
  refine { h with passed := fun x hx => ?_ }
  rcases hx with hx | hx
  · rw [List.take_add_one, hw, List.mem_append, Option.mem_toList] at hx
    rcases hx with hx | hx
    · exact h.passed x (.inl hx)
    · obtain rfl := Option.some.inj hx
      exact ⟨i, hi, hle⟩
  · exact h.passed x (.inr hx)

/-- The vertices where the search is are on the stack. -/
theorem Frames.mem_stack {stack : List Nat} (h : Frames next size t calls stack) {c : Nat × Nat} (hc : c ∈ calls) :
    c.1 ∈ stack := by
  induction calls generalizing stack with
  | nil => cases hc
  | cons c' calls ih =>
    obtain ⟨inner, below, rfl, -, -, hbelow⟩ := h
    rcases List.mem_cons.1 hc with rfl | hc
    · simp
    · exact List.mem_append_right _ (List.mem_cons_of_mem _ (ih hbelow hc))

/-- All that is on the stack leads to the vertex where the search is. -/
theorem Frames.reaches {stack : List Nat} {c : Nat × Nat} (h : Frames next size t (c :: calls) stack)
    (hx : x ∈ stack) : Reaches next size x c.1 := by
  induction calls generalizing stack c with
  | nil =>
    obtain ⟨inner, below, rfl, hframe, -, hbelow⟩ := h
    obtain rfl : below = [] := hbelow
    rcases List.mem_append.1 hx with hx | hx
    · exact (hframe.linked x hx).2
    · obtain rfl := List.mem_singleton.1 hx
      exact .refl
  | cons c' calls ih =>
    obtain ⟨inner, below, rfl, hframe, hedge, hbelow⟩ := h
    rcases List.mem_append.1 hx with hx | hx
    · exact (hframe.linked x hx).2
    · rcases List.mem_cons.1 hx with rfl | hx
      · exact .refl
      · exact .tail (ih hbelow hx) (hedge c' rfl)

/-- A vertex with a low link below its index leads to the vertex that led to it. -/
theorem Frame.reaches_caller {c : Nat × Nat} (h : Frame next size t v passed inner below)
    (hbelow : Frames next size t (c :: calls) below) (hi : t.HasIndex v i) (hlt : t.lowOf v < i) :
    Reaches next size v c.1 := by
  obtain ⟨x, hx, hlow, hr⟩ := h.exists_low
  rcases List.mem_cons.1 hx with rfl | hx
  · exact absurd (hlow.unique hi) hlt.ne
  · exact hr.trans (hbelow.reaches hx)

/-- An edge leads back to something on the stack. -/
theorem Frame.lower (h : Frame next size t v passed inner below) (hlater : (inner ++ v :: below).Pairwise t.Later)
    (hmem : w ∈ inner ++ v :: below) (hi : t.HasIndex w i) (e : Edge next size v w) :
    Frame next size (t.lower v i) v passed inner below := by
  have hlow : (t.lower v i).lowOf v = min (t.lowOf v) i := by rw [lowOf_lower, if_pos rfl]
  refine ⟨h.linked, ?_, ?_, fun x hx => ?_⟩
  · obtain ⟨j, hj, hle⟩ := h.low_le
    exact ⟨j, hj, hlow ▸ (min_le_left ..).trans hle⟩
  · rcases le_or_gt (t.lowOf v) i with hle | hlt
    · rw [hlow, min_eq_left hle]
      exact h.exists_low
    · obtain ⟨j, hj, hle⟩ := h.low_le
      rw [hlow, min_eq_right hlt.le]
      exact ⟨w, mem_of_hasIndex_le hlater hmem hi hj (hlt.le.trans hle), hi, .single e⟩
  · obtain ⟨j, hj, hle⟩ := h.passed x hx
    exact ⟨j, hj, fun hs => hlow ▸ (min_le_left ..).trans (hle hs)⟩

/-- When a vertex that leads to its caller is left, what has waited above it waits above its caller. -/
theorem Frame.merge {u passed' : Nat} {inner' below' : List Nat}
    (h : Frame next size t v passed inner (inner' ++ u :: below')) (h' : Frame next size t u passed' inner' below')
    (hlater : (inner ++ v :: (inner' ++ u :: below')).Pairwise t.Later) (hend : (next v)[passed]? = none)
    (hlinked : Linked next size u v) :
    Frame next size (t.lower u (t.lowOf v)) u passed' (inner ++ v :: inner') below' := by
  have hlow : (t.lower u (t.lowOf v)).lowOf u = min (t.lowOf u) (t.lowOf v) := by rw [lowOf_lower, if_pos rfl]
  have hparts : inner ++ v :: (inner' ++ u :: below') = (inner ++ v :: inner') ++ u :: below' := by simp
  refine ⟨fun x hx => ?_, ?_, ?_, fun x hx => ?_⟩
  · rcases List.mem_append.1 hx with hx | hx
    · exact hlinked.trans (h.linked x hx)
    · rcases List.mem_cons.1 hx with rfl | hx
      · exact hlinked
      · exact h'.linked x hx
  · obtain ⟨i, hi, hle⟩ := h'.low_le
    exact ⟨i, hi, hlow ▸ (min_le_left ..).trans hle⟩
  -- the lower of the two low links is the index of something below the caller
  · rcases le_or_gt (t.lowOf u) (t.lowOf v) with hle | hlt
    · rw [hlow, min_eq_left hle]
      exact h'.exists_low
    · obtain ⟨x, hx, hi, hr⟩ := h.exists_low
      obtain ⟨j, hj, hle⟩ := h'.low_le
      rw [hlow, min_eq_right hlt.le]
      exact ⟨x, mem_of_hasIndex_le (hparts ▸ hlater) (hparts ▸ List.mem_append_right _ hx) hi hj (hlt.le.trans hle), hi,
        hlinked.1.trans hr⟩
  · have hlead : Passed next v passed inner x ∨ Passed next u passed' inner' x := by
      rcases hx with hx | ⟨w, hw, hx⟩
      · exact .inr (.inl hx)
      · rcases List.mem_append.1 hw with hw | hw
        · exact .inl (.inr ⟨w, hw, hx⟩)
        · rcases List.mem_cons.1 hw with rfl | hw
          · exact .inl (.inl (by rwa [List.take_of_length_le (List.getElem?_eq_none_iff.1 hend)]))
          · exact .inr (.inr ⟨w, hw, hx⟩)
    rcases hlead with hx | hx
    · obtain ⟨j, hj, hle⟩ := h.passed x hx
      exact ⟨j, hj, fun hs => hlow ▸ (min_le_right ..).trans (hle hs)⟩
    · obtain ⟨j, hj, hle⟩ := h'.passed x hx
      exact ⟨j, hj, fun hs => hlow ▸ (min_le_left ..).trans (hle hs)⟩

/-! ### The components -/

/-- The vertices that have a component have those numbers, in an order in which edges lead down. -/
structure Numbers (next : Nat → List Nat) (size : Nat) (settled : Nat → Prop) (number : Nat → Nat) (count : Nat) :
    Prop where
  settled_of_edge : ∀ {v w}, settled v → Edge next size v w → settled w
  number_lt : ∀ {v}, settled v → number v < count
  number_eq_iff : ∀ {v w}, settled v → settled w → (number v = number w ↔ Linked next size v w)
  number_le : ∀ {v w}, settled v → Edge next size v w → number w ≤ number v
  exists_number : ∀ k < count, ∃ v, settled v ∧ number v = k

section Numbers

variable {settled settled' : Nat → Prop} {number number' : Nat → Nat} {count : Nat}

theorem Numbers.settled_of_reaches (h : Numbers next size settled number count) (hv : settled v)
    (hr : Reaches next size v w) : settled w := by
  induction hr with
  | refl => exact hv
  | tail _ e ih => exact h.settled_of_edge ih e

/-- A component that leads only to those before it gets the next number. -/
theorem Numbers.add (h : Numbers next size settled number count) (hfresh : ¬ settled v)
    (hsettled : ∀ x, settled' x ↔ settled x ∨ Linked next size v x)
    (hedge : ∀ {x w}, Linked next size v x → Edge next size x w → settled w ∨ Linked next size v w)
    (hold : ∀ {x}, settled x → number' x = number x) (hnew : ∀ {x}, Linked next size v x → number' x = count) :
    Numbers next size settled' number' (count + 1) := by
  -- what has its component does not lead to the new one
  have hapart : ∀ {x w}, settled x → Linked next size v w → ¬ Linked next size x w :=
    fun hx hw hl => hfresh (h.settled_of_reaches hx (hl.trans hw.symm).1)
  constructor
  · intro x w hx e
    rcases (hsettled x).1 hx with hx | hx
    · exact (hsettled w).2 (.inl (h.settled_of_edge hx e))
    · exact (hsettled w).2 (hedge hx e)
  · intro x hx
    rcases (hsettled x).1 hx with hx | hx
    · rw [hold hx]
      exact Nat.lt_succ_of_lt (h.number_lt hx)
    · rw [hnew hx]
      exact Nat.lt_succ_self count
  · intro x w hx hw
    rcases (hsettled x).1 hx with hx | hx <;> rcases (hsettled w).1 hw with hw | hw
    · rw [hold hx, hold hw]
      exact h.number_eq_iff hx hw
    · rw [hold hx, hnew hw]
      exact iff_of_false (h.number_lt hx).ne (hapart hx hw)
    · rw [hnew hx, hold hw]
      exact iff_of_false (h.number_lt hw).ne' fun hl => hapart hw hx hl.symm
    · rw [hnew hx, hnew hw]
      exact iff_of_true rfl (hx.symm.trans hw)
  · intro x w hx e
    rcases (hsettled x).1 hx with hx | hx
    · rw [hold hx, hold (h.settled_of_edge hx e)]
      exact h.number_le hx e
    · rw [hnew hx]
      rcases hedge hx e with hw | hw
      · rw [hold hw]
        exact (h.number_lt hw).le
      · rw [hnew hw]
  · intro k hk
    rcases Nat.lt_succ_iff_lt_or_eq.1 hk with hk | rfl
    · obtain ⟨x, hx, hnumber⟩ := h.exists_number k hk
      exact ⟨x, (hsettled x).2 (.inl hx), (hold hx).trans hnumber⟩
    · exact ⟨v, (hsettled v).2 (.inr (.refl v)), hnew (.refl v)⟩

end Numbers

/-- The vertices `members`, which lie on the stack above `below`, become the next component. -/
def pop (t : Tarjan) (members below : List Nat) : Tarjan :=
  { t with
    stack := below
    onStack := members.foldl (fun onStack u => onStack.setIfInBounds u false) t.onStack
    number := members.foldl (fun number u => number.setIfInBounds u t.count) t.number
    count := t.count + 1 }

theorem unstack_append (hv : v ∉ inner) (t : Tarjan) :
    unstack v (inner ++ v :: below) t = { t.pop (inner ++ [v]) below with count := t.count } := by
  induction inner generalizing t with
  | nil =>
    rw [List.nil_append, unstack, if_pos rfl]
    rfl
  | cons u inner ih =>
    obtain ⟨hne, hv⟩ := not_or.1 (mt List.mem_cons.2 hv)
    rw [List.cons_append, unstack, if_neg (Ne.symm hne)]
    exact ih hv _

/-- A vertex that leads back to nothing below it makes a component with what is above it. -/
theorem close_eq (hroot : t.HasIndex v (t.lowOf v)) (hstack : t.stack = inner ++ v :: below) (hv : v ∉ inner) :
    t.close v = t.pop (inner ++ [v]) below := by
  have hlow : t.index.getD v none = some (t.low.getD v 0) := getD_index_eq_some_iff.2 hroot
  rw [close, if_pos hlow, hstack, unstack_append hv]
  rfl

/-- A vertex that leads back to something below it stays where it is. -/
theorem close_report (hi : t.HasIndex v i) (hlt : t.lowOf v < i) :
    (({ t with calls } : Tarjan).report v).close v = ({ t with calls } : Tarjan).report v := by
  have hle : (({ t with calls } : Tarjan).report v).lowOf v ≤ t.lowOf v := lowOf_report_le ..
  rw [close, if_neg fun hlow => ?_]
  have hindex : (({ t with calls } : Tarjan).report v).HasIndex v ((({ t with calls } : Tarjan).report v).lowOf v) :=
    getD_index_eq_some_iff.1 hlow
  rw [HasIndex, index_report] at hindex
  have := hi.unique hindex
  omega

end Tarjan

end Transducer.Graph
