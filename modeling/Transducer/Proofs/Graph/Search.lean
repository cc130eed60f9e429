import Mathlib
import Transducer.Graph.Search

/-!
# What a depth-first search reaches

A search from some roots reaches exactly the vertices that some way of edges leads to, and the order in
which it finishes them is `LastFirst`: what stands right after a vertex was finished while the search was
at that vertex and is reached from it, and what stands further back was finished before the search came
there, so that no edge of it leads into the part before.

`Explores` collects what one part of a search does. It is stated for a list of roots, composes
(`Explores.trans`), and holds of `visit` as soon as the depth is at least the number of vertices that
have not been reached.
-/

namespace Transducer.Graph

open Relation

variable {next : Nat → List Nat} {size : Nat}

/-- An edge to a vertex that exists. -/
def Edge (next : Nat → List Nat) (size v w : Nat) : Prop := w ∈ next v ∧ w < size

/-- Some way of edges leads from one vertex to the other. -/
def Reaches (next : Nat → List Nat) (size : Nat) : Nat → Nat → Prop := ReflTransGen (Edge next size)

theorem Reaches.lt_size {v w : Nat} (h : Reaches next size v w) (hv : v < size) : w < size := by
  induction h with
  | refl => exact hv
  | tail _ e _ => exact e.2

/-- Of the vertices after `v`, the first ones are reached from `v`, and no edge leads from the others
to `v` or to one of these. -/
def LastFirst (next : Nat → List Nat) (size : Nat) (order : List Nat) : Prop :=
  ∀ before v after, order = before ++ v :: after →
    ∃ inner outer, after = inner ++ outer ∧ (∀ u ∈ inner, Reaches next size v u) ∧
      ∀ u ∈ outer, ∀ w, Edge next size u w → w ∉ v :: inner

namespace Search

variable {S S₁ S₂ : Search} {roots roots₁ roots₂ found found₁ found₂ : List Nat} {v w : Nat}

/-- The search has reached the vertex. -/
def Seen (S : Search) (v : Nat) : Prop := S.seen[v]? = some true

instance (S : Search) (v : Nat) : Decidable (S.Seen v) := inferInstanceAs (Decidable (_ = _))

theorem Seen.lt_size (h : S.Seen v) : v < S.seen.size := by
  by_contra hv
  rw [Seen, Array.getElem?_eq_none (Nat.le_of_not_lt hv)] at h
  cases h

theorem skips_eq_false_iff : S.skips v = false ↔ v < S.seen.size ∧ ¬ S.Seen v := by
  rw [skips, Seen, Array.getD_eq_getD_getElem?]
  by_cases hv : v < S.seen.size
  · simp [hv]
  · simp [hv]

theorem seen_of_skips (h : S.skips v = true) (hv : v < S.seen.size) : S.Seen v := by
  by_contra hs
  rw [skips_eq_false_iff.2 ⟨hv, hs⟩] at h
  cases h

theorem seen_mark (hv : v < S.seen.size) : (S.mark v).Seen w ↔ S.Seen w ∨ w = v := by
  rw [Seen, Seen, mark, Array.getElem?_setIfInBounds]
  by_cases h : v = w
  · subst h; simp [hv]
  · simp [h, Ne.symm h]

theorem not_seen_init : ¬ (init size).Seen v := by
  rw [Seen, init, Array.getElem?_replicate]
  split <;> simp

/-- How many vertices the search has not reached. -/
def unseen (S : Search) : Nat := ((Finset.range S.seen.size).filter fun v => ¬ S.Seen v).card

theorem unseen_le (S : Search) : S.unseen ≤ S.seen.size :=
  (Finset.card_filter_le _ _).trans (Finset.card_range _).le

theorem unseen_mark_lt (hv : v < S.seen.size) (hs : ¬ S.Seen v) : (S.mark v).unseen < S.unseen := by
  refine Finset.card_lt_card (Finset.ssubset_iff_of_subset (fun w hw => ?_) |>.2 ⟨v, ?_, ?_⟩)
  · rw [Finset.mem_filter, size_mark, seen_mark hv] at hw
    exact Finset.mem_filter.2 ⟨hw.1, fun h => hw.2 (.inl h)⟩
  · exact Finset.mem_filter.2 ⟨Finset.mem_range.2 hv, hs⟩
  · rw [Finset.mem_filter, seen_mark hv]
    exact fun h => h.2 (.inr rfl)

/-- From `S` to `S₁` the search has gone to the roots and has finished the vertices `found`, the last one
first. -/
structure Explores (next : Nat → List Nat) (size : Nat) (roots : List Nat) (S S₁ : Search)
    (found : List Nat) : Prop where
  size_eq : S₁.seen.size = S.seen.size
  finished_eq : S₁.finished = found ++ S.finished
  seen_iff : ∀ {v}, S₁.Seen v ↔ S.Seen v ∨ v ∈ found
  fresh : ∀ v ∈ found, ¬ S.Seen v
  nodup : found.Nodup
  covered : ∀ r ∈ roots, r < size → S₁.Seen r
  closed : ∀ v ∈ found, ∀ w, Edge next size v w → S₁.Seen w
  reached : ∀ v ∈ found, ∃ r ∈ roots, r ∈ found ∧
    ReflTransGen (fun u w => Edge next size u w ∧ w ∈ found) r v
  lastFirst : LastFirst next size found

namespace Explores

/-- Nothing is left to do at the roots. -/
theorem refl (h : ∀ r ∈ roots, r < size → S.Seen r) : Explores next size roots S S [] where
  size_eq := rfl
  finished_eq := rfl
  seen_iff := by simp
  fresh := by simp
  nodup := List.nodup_nil
  covered := h
  closed := by simp
  reached := by simp
  lastFirst before v after h := by simp at h

theorem unseen_le (h : Explores next size roots S S₁ found) : S₁.unseen ≤ S.unseen := by
  refine Finset.card_le_card fun w hw => ?_
  rw [Finset.mem_filter, h.size_eq] at hw
  exact Finset.mem_filter.2 ⟨hw.1, fun hs => hw.2 (h.seen_iff.2 (.inl hs))⟩

/-- Two parts of a search, one after the other. -/
theorem trans (h₁ : Explores next size roots₁ S S₁ found₁)
    (h₂ : Explores next size roots₂ S₁ S₂ found₂) :
    Explores next size (roots₁ ++ roots₂) S S₂ (found₂ ++ found₁) where
  size_eq := h₂.size_eq.trans h₁.size_eq
  finished_eq := by rw [h₂.finished_eq, h₁.finished_eq, List.append_assoc]
  seen_iff := by
    intro v
    rw [h₂.seen_iff, h₁.seen_iff, List.mem_append, or_assoc, or_comm (a := v ∈ found₂)]
  fresh v hv := by
    rcases List.mem_append.1 hv with hv | hv
    · exact fun hs => h₂.fresh v hv (h₁.seen_iff.2 (.inl hs))
    · exact h₁.fresh v hv
  nodup := by
    refine List.nodup_append.2 ⟨h₂.nodup, h₁.nodup, fun v hv w hw heq => ?_⟩
    subst heq
    exact h₂.fresh v hv (h₁.seen_iff.2 (.inr hw))
  covered r hr hlt := by
    rcases List.mem_append.1 hr with hr | hr
    · exact h₂.seen_iff.2 (.inl (h₁.covered r hr hlt))
    · exact h₂.covered r hr hlt
  closed v hv w e := by
    rcases List.mem_append.1 hv with hv | hv
    · exact h₂.closed v hv w e
    · exact h₂.seen_iff.2 (.inl (h₁.closed v hv w e))
  reached v hv := by
    rcases List.mem_append.1 hv with hv | hv
    · obtain ⟨r, hr, hf, hp⟩ := h₂.reached v hv
      exact ⟨r, List.mem_append_right _ hr, List.mem_append_left _ hf,
        ReflTransGen.mono (fun u w h => ⟨h.1, List.mem_append_left _ h.2⟩) _ _ hp⟩
    · obtain ⟨r, hr, hf, hp⟩ := h₁.reached v hv
      exact ⟨r, List.mem_append_left _ hr, List.mem_append_right _ hf,
        ReflTransGen.mono (fun u w h => ⟨h.1, List.mem_append_right _ h.2⟩) _ _ hp⟩
  lastFirst before v after heq := by
    rcases List.append_eq_append_iff.1 heq with ⟨rest, rfl, hf⟩ | ⟨rest, hf, hafter⟩
    · exact h₁.lastFirst rest v after hf
    · cases rest with
      | nil => exact h₁.lastFirst [] v after (by simpa using hafter.symm)
      | cons x rest =>
        obtain ⟨rfl, rfl⟩ := List.cons.inj hafter
        obtain ⟨inner, outer, rfl, hin, hout⟩ := h₂.lastFirst before v rest hf
        refine ⟨inner, outer ++ found₁, List.append_assoc .., hin, fun u hu w e => ?_⟩
        rcases List.mem_append.1 hu with hu | hu
        · exact hout u hu w e
        · -- all that the first part leads to was reached before the second one began
          intro hw
          refine h₂.fresh w ?_ (h₁.closed u hu w e)
          rw [hf]
          rcases List.mem_cons.1 hw with rfl | hw
          · simp
          · simp [hw]

/-- A vertex is reached, then all that it leads to is explored, then the vertex is finished. -/
theorem visit (hsize : S.seen.size = size) (hv : v < size) (hs : ¬ S.Seen v)
    (h : Explores next size (next v) (S.mark v) S₁ found) :
    Explores next size [v] S (S₁.finish v) (v :: found) := by
  have hlt : v < S.seen.size := hsize ▸ hv
  have hnot : v ∉ found := fun hf => h.fresh v hf ((seen_mark hlt).2 (.inr rfl))
  have hreach : ∀ u ∈ found, ReflTransGen (fun u w => Edge next size u w ∧ w ∈ v :: found) v u := by
    intro u hu
    obtain ⟨r, hr, hf, hp⟩ := h.reached u hu
    have hr' : r < size := by
      have := (h.seen_iff.2 (.inr hf)).lt_size
      rwa [h.size_eq, size_mark, hsize] at this
    exact .head ⟨⟨hr, hr'⟩, List.mem_cons_of_mem _ hf⟩
      (ReflTransGen.mono (fun _ _ h => ⟨h.1, List.mem_cons_of_mem _ h.2⟩) _ _ hp)
  refine ⟨h.size_eq.trans (size_mark S v), ?_, ?_, ?_, ?_, ?_, ?_, ?_, ?_⟩
  · change v :: S₁.finished = _
    rw [h.finished_eq]
    rfl
  · intro w
    change S₁.Seen w ↔ _
    rw [h.seen_iff, seen_mark hlt, List.mem_cons, or_assoc]
  · intro w hw
    rcases List.mem_cons.1 hw with rfl | hw
    · exact hs
    · exact fun hseen => h.fresh w hw ((seen_mark hlt).2 (.inl hseen))
  · exact List.nodup_cons.2 ⟨hnot, h.nodup⟩
  · intro r hr _
    obtain rfl := List.mem_singleton.1 hr
    exact h.seen_iff.2 (.inl ((seen_mark hlt).2 (.inr rfl)))
  · intro u hu w e
    rcases List.mem_cons.1 hu with rfl | hu
    · exact h.covered w e.1 e.2
    · exact h.closed u hu w e
  · intro u hu
    refine ⟨v, List.mem_singleton.2 rfl, List.mem_cons_self, ?_⟩
    rcases List.mem_cons.1 hu with rfl | hu
    · exact .refl
    · exact hreach u hu
  · intro before x after heq
    cases before with
    | nil =>
      obtain ⟨rfl, rfl⟩ := List.cons.inj heq
      exact ⟨found, [], by simp, fun u hu => ReflTransGen.mono (fun _ _ h => h.1) _ _ (hreach u hu), by simp⟩
    | cons y before =>
      obtain ⟨-, rfl⟩ := List.cons.inj heq
      exact h.lastFirst before x after rfl

end Explores

/-- Visiting vertices one after another explores them all, if each visit does. -/
theorem explores_foldl {depth : Nat}
    (visits : ∀ (S : Search) (v : Nat), S.seen.size = size → S.unseen ≤ depth →
      ∃ found, Explores next size [v] S (visit next depth S v) found)
    (roots : List Nat) (S : Search) (hsize : S.seen.size = size) (hd : S.unseen ≤ depth) :
    ∃ found, Explores next size roots S (roots.foldl (visit next depth) S) found := by
  induction roots generalizing S with
  | nil => exact ⟨[], .refl (by simp)⟩
  | cons r roots ih =>
    obtain ⟨found₁, h₁⟩ := visits S r hsize hd
    obtain ⟨found₂, h₂⟩ := ih _ (h₁.size_eq.trans hsize) (h₁.unseen_le.trans hd)
    exact ⟨found₂ ++ found₁, h₁.trans h₂⟩

/-- A visit explores its vertex if its depth is not less than the number of vertices left. -/
theorem explores_visit (next : Nat → List Nat) (depth : Nat) (S : Search) (v : Nat) (hsize : S.seen.size = size)
    (hd : S.unseen ≤ depth) : ∃ found, Explores next size [v] S (visit next depth S v) found := by
  induction depth generalizing S v with
  | zero =>
    refine ⟨[], .refl fun r hr hlt => ?_⟩
    obtain rfl := List.mem_singleton.1 hr
    by_contra hs
    have := unseen_mark_lt (hsize ▸ hlt) hs
    omega
  | succ depth ih =>
    unfold visit
    split
    · next hskip =>
      refine ⟨[], .refl fun r hr hlt => ?_⟩
      obtain rfl := List.mem_singleton.1 hr
      exact seen_of_skips hskip (hsize ▸ hlt)
    · next hskip =>
      obtain ⟨hv, hs⟩ := skips_eq_false_iff.1 (Bool.not_eq_true _ ▸ hskip)
      have hlt := unseen_mark_lt hv hs
      obtain ⟨found, h⟩ := explores_foldl ih (next v) (S.mark v) ((size_mark S v).trans hsize) (by omega)
      exact ⟨v :: found, h.visit hsize (hsize ▸ hv) hs⟩

theorem explores_run (next : Nat → List Nat) (size : Nat) (roots : List Nat) :
    ∃ found, Explores next size roots (.init size) (run next size roots (.init size)) found := by
  have hsize : (init size).seen.size = size := Array.size_replicate
  exact explores_foldl (fun S v => explores_visit next size S v) roots _ hsize
    ((unseen_le _).trans hsize.le)

/-! ### The depth of a search -/

theorem visit_of_skips {depth : Nat} (h : S.skips v = true) : visit next depth S v = S := by
  cases depth with
  | zero => rfl
  | succ depth => rw [visit, if_pos h]

/-- Visits of two depths agree one after another, if each of them does. -/
theorem foldl_visit_congr {depth depth' : Nat}
    (visits : ∀ (S : Search) (v : Nat), S.seen.size = size → S.unseen ≤ depth → S.unseen ≤ depth' →
      visit next depth S v = visit next depth' S v)
    (roots : List Nat) (S : Search) (hsize : S.seen.size = size) (hd : S.unseen ≤ depth) (hd' : S.unseen ≤ depth') :
    roots.foldl (visit next depth) S = roots.foldl (visit next depth') S := by
  induction roots generalizing S with
  | nil => rfl
  | cons r roots ih =>
    obtain ⟨found, h⟩ := explores_visit next depth S r hsize hd
    rw [List.foldl_cons, List.foldl_cons, ← visits S r hsize hd hd']
    exact ih _ (h.size_eq.trans hsize) (h.unseen_le.trans hd) (h.unseen_le.trans hd')

/-- Every depth that is enough gives the same. -/
theorem visit_congr {depth depth' : Nat} (S : Search) (v : Nat) (hsize : S.seen.size = size)
    (hd : S.unseen ≤ depth) (hd' : S.unseen ≤ depth') : visit next depth S v = visit next depth' S v := by
  induction depth generalizing depth' S v with
  | zero =>
    have hskip : S.skips v = true := by
      by_contra hskip
      obtain ⟨hv, hs⟩ := skips_eq_false_iff.1 (Bool.not_eq_true _ ▸ hskip)
      have := unseen_mark_lt hv hs
      omega
    rw [visit_of_skips hskip, visit_of_skips hskip]
  | succ depth ih =>
    by_cases hskip : S.skips v = true
    · rw [visit_of_skips hskip, visit_of_skips hskip]
    · obtain ⟨hv, hs⟩ := skips_eq_false_iff.1 (Bool.not_eq_true _ ▸ hskip)
      have hlt := unseen_mark_lt hv hs
      obtain ⟨depth', rfl⟩ := Nat.exists_eq_succ_of_ne_zero (show depth' ≠ 0 by omega)
      rw [visit, visit, if_neg hskip, if_neg hskip]
      exact congrArg (finish · v) (foldl_visit_congr (fun S v => ih S v) (next v) (S.mark v)
        ((size_mark S v).trans hsize) (by omega) (by omega))

/-- A vertex that has not been reached is marked, then all that it leads to is visited, then it is finished. -/
theorem visit_of_not_skips (S : Search) (v : Nat) (hsize : S.seen.size = size) (hskip : S.skips v = false) :
    visit next size S v = ((next v).foldl (visit next size) (S.mark v)).finish v := by
  obtain ⟨hv, hs⟩ := skips_eq_false_iff.1 hskip
  have hlt := unseen_mark_lt hv hs
  have hle := hsize ▸ S.unseen_le
  obtain ⟨depth, rfl⟩ := Nat.exists_eq_succ_of_ne_zero (show size ≠ 0 by omega)
  rw [visit, if_neg (Bool.not_eq_true _ ▸ hskip)]
  refine congrArg (finish · v) (foldl_visit_congr (fun S v => visit_congr S v) (next v) (S.mark v)
    ((size_mark S v).trans hsize) ?_ ?_)
  · omega
  · omega

end Search

/-! ### The results of a search -/

@[simp] theorem size_reachable (roots : List Nat) : (reachable next size roots).size = size := by
  obtain ⟨found, h⟩ := Search.explores_run next size roots
  exact h.size_eq.trans Array.size_replicate

/-- A search marks exactly what its roots reach. -/
theorem reachable_iff {roots : List Nat} {v : Nat} :
    (reachable next size roots).getD v false = true ↔
      ∃ r ∈ roots, r < size ∧ Reaches next size r v := by
  obtain ⟨found, h⟩ := Search.explores_run next size roots
  have hseen : ∀ w, (reachable next size roots).getD w false = true ↔ w ∈ found := by
    intro w
    have := h.seen_iff (v := w)
    simp only [Search.not_seen_init, false_or] at this
    rw [← this, Search.Seen, Array.getD_eq_getD_getElem?, reachable]
    cases (Search.run next size roots (.init size)).seen[w]? <;> simp
  rw [hseen]
  constructor
  · intro hv
    obtain ⟨r, hr, hf, hp⟩ := h.reached v hv
    refine ⟨r, hr, ?_, ReflTransGen.mono (fun _ _ h => h.1) _ _ hp⟩
    have := (h.seen_iff.2 (.inr hf)).lt_size
    rwa [h.size_eq, Search.init, Array.size_replicate] at this
  · rintro ⟨r, hr, hlt, hp⟩
    induction hp with
    | refl => exact (h.seen_iff.1 (h.covered r hr hlt)).resolve_left Search.not_seen_init
    | tail _ e ih => exact (h.seen_iff.1 (h.closed _ ih _ e)).resolve_left Search.not_seen_init

theorem explores_finishOrder (next : Nat → List Nat) (size : Nat) :
    Search.Explores next size (List.range size) (.init size)
      (Search.run next size (List.range size) (.init size)) (finishOrder next size) := by
  obtain ⟨found, h⟩ := Search.explores_run next size (List.range size)
  have heq : finishOrder next size = found := h.finished_eq.trans (List.append_nil found)
  exact heq ▸ h

theorem lastFirst_finishOrder : LastFirst next size (finishOrder next size) :=
  (explores_finishOrder next size).lastFirst

theorem mem_finishOrder {v : Nat} : v ∈ finishOrder next size ↔ v < size := by
  have h := explores_finishOrder next size
  constructor
  · intro hv
    have := (h.seen_iff.2 (.inr hv)).lt_size
    rwa [h.size_eq, Search.init, Array.size_replicate] at this
  · intro hv
    exact (h.seen_iff.1 (h.covered v (List.mem_range.2 hv) hv)).resolve_left Search.not_seen_init

/-! ### Arrays that are written at some vertices -/

theorem getElem?_foldl_setIfInBounds {α : Type} (vertices : List Nat) (x : α) (entries : Array α) (v : Nat) :
    (vertices.foldl (fun entries v => entries.setIfInBounds v x) entries)[v]? =
      entries[v]?.map fun entry => if v ∈ vertices then x else entry := by
  induction vertices generalizing entries with
  | nil => simp
  | cons u vertices ih =>
    rw [List.foldl_cons, ih, Array.getElem?_setIfInBounds]
    by_cases h : u = v
    · subst h
      by_cases hlt : u < entries.size
      · simp [hlt]
      · simp [hlt]
    · simp [h, Ne.symm h]

/-- An array that is as before but for some vertices, and is as before there when these are written again. -/
theorem foldl_setIfInBounds_eq_replicate {α : Type} {vertices : List Nat} {x : α} {entries : Array α}
    (hrest : ∀ v < entries.size, v ∉ vertices → entries[v]? = some x) :
    vertices.foldl (fun entries v => entries.setIfInBounds v x) entries = Array.replicate entries.size x := by
  refine Array.ext_getElem? fun v => ?_
  rw [getElem?_foldl_setIfInBounds, Array.getElem?_replicate]
  by_cases hv : v < entries.size
  · by_cases hmem : v ∈ vertices
    · simp [hv, hmem]
    · rw [hrest v hv hmem, if_pos hv]
      simp
  · simp [hv]

/-! ### Graphs turned round -/

/-- Puts a vertex before the predecessors of some others. -/
theorem mem_foldl_modify {v w : Nat} (targets : List Nat) (before : Array (List Nat)) (x : Nat) :
    x ∈ (targets.foldl (fun before w => before.modify w (v :: ·)) before).getD w [] ↔
      x ∈ before.getD w [] ∨ (x = v ∧ w ∈ targets ∧ w < before.size) := by
  induction targets generalizing before with
  | nil => simp
  | cons t targets ih =>
    rw [List.foldl_cons, ih, Array.size_modify]
    simp only [Array.getD_eq_getD_getElem?, Array.getElem?_modify]
    by_cases h : t = w
    · subst h
      by_cases hlt : t < before.size
      · simp [hlt]; tauto
      · simp [hlt]
    · simp [h, Ne.symm h]

theorem size_foldl_modify {v : Nat} (targets : List Nat) (before : Array (List Nat)) :
    (targets.foldl (fun before w => before.modify w (v :: ·)) before).size = before.size := by
  induction targets generalizing before with
  | nil => rfl
  | cons t targets ih => rw [List.foldl_cons, ih, Array.size_modify]

/-- The turned graph has the edges of the graph, from their ends to their beginnings. -/
theorem mem_reverse {v w : Nat} :
    v ∈ (reverse next size).getD w [] ↔ v < size ∧ Edge next size v w := by
  have key : ∀ (vertices : List Nat) (x y : Nat),
      ((vertices.foldr
        (fun v before => (next v).foldl (fun before w => before.modify w (v :: ·)) before)
        (Array.replicate size [])).size = size) ∧
      (x ∈ (vertices.foldr
        (fun v before => (next v).foldl (fun before w => before.modify w (v :: ·)) before)
        (Array.replicate size [])).getD y [] ↔ x ∈ vertices ∧ Edge next size x y) := by
    intro vertices x y
    induction vertices with
    | nil =>
      simp only [List.foldr_nil, Array.size_replicate, Array.getD_eq_getD_getElem?,
        Array.getElem?_replicate, List.not_mem_nil, false_and, iff_false, true_and]
      split <;> simp
    | cons u vertices ih =>
      rw [List.foldr_cons, size_foldl_modify, mem_foldl_modify, ih.1, ih.2, List.mem_cons, Edge]
      refine ⟨rfl, ?_⟩
      constructor
      · rintro (⟨hx, e⟩ | ⟨rfl, e⟩)
        · exact ⟨.inr hx, e⟩
        · exact ⟨.inl rfl, e⟩
      · rintro ⟨rfl | hx, e⟩
        · exact .inr ⟨rfl, e⟩
        · exact .inl ⟨hx, e⟩
  rw [reverse, (key (List.range size) v w).2, List.mem_range]

theorem edge_reverse {v w : Nat} :
    Edge (fun v => (reverse next size).getD v []) size v w ↔ w < size ∧ Edge next size w v := by
  rw [Edge, mem_reverse]
  exact ⟨fun h => h.1, fun h => ⟨h, h.1⟩⟩

/-- What the turned graph reaches is what leads there. -/
theorem reaches_reverse {v w : Nat} (hv : v < size) :
    Reaches (fun v => (reverse next size).getD v []) size v w ↔ w < size ∧ Reaches next size w v := by
  constructor
  · intro h
    induction h with
    | refl => exact ⟨hv, .refl⟩
    | tail _ e ih =>
      obtain ⟨hlt, e⟩ := edge_reverse.1 e
      exact ⟨hlt, .head e ih.2⟩
  · rintro ⟨hw, h⟩
    induction h using ReflTransGen.head_induction_on with
    | refl => exact .refl
    | head e _ ih => exact .tail (ih e.2) (edge_reverse.2 ⟨hw, e⟩)

end Transducer.Graph
