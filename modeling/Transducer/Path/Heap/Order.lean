import Transducer.Path.Heap

/-!
# The order of a heap

With a relation that puts entries in order, a heap stays ordered: no entry comes before one above it.
`ordered_push` and `ordered_of_pop?` say so, and by `first_of_pop?` no entry of an ordered heap comes
before the one that is taken next.
-/

namespace Transducer.Heap

/-- A relation that puts entries in order: two never come before each other, and if one does not come
before another nor that before a third, then neither does the first before the third. -/
structure StrictWeakOrder {α : Type} (before : α → α → Bool) : Prop where
  asymm : ∀ {x y : α}, before x y = true → before y x = false
  passed : ∀ {x y z : α}, before x y = false → before y z = false → before x z = false

namespace Tree

variable {α : Type} {before : α → α → Bool}

/-- No entry comes before one above it. -/
def Ordered (before : α → α → Bool) : Tree α → Prop
  | leaf => True
  | node x l r =>
    (∀ y ∈ l.toList ++ r.toList, before y x = false) ∧ l.Ordered before ∧ r.Ordered before

theorem Ordered.shift {t : Tree α} (h : t.Ordered before) {x : α}
    (hx : ∀ y ∈ t.toList, before y x = false) (way : List Bool) : (t.shift x way).Ordered before := by
  induction t generalizing x way with
  | leaf => exact ⟨by simp, trivial, trivial⟩
  | node y l r ihl ihr =>
    obtain ⟨hy, hl, hr⟩ := h
    unfold Tree.shift
    split
    · refine ⟨fun z hz => hx z ?_, hl, ihr hr (fun z hz => hy z (List.mem_append_right _ hz)) _⟩
      simpa [(toList_shift y way.tail r).mem_iff, or_left_comm] using hz
    · refine ⟨fun z hz => hx z ?_, ihl hl (fun z hz => hy z (List.mem_append_left _ hz)) _, hr⟩
      simpa [(toList_shift y way.tail l).mem_iff, or_assoc] using hz

theorem mem_of_mem_along {t : Tree α} {way : List Bool} {x : α} (h : x ∈ t.along way) :
    x ∈ t.toList := by
  induction t generalizing way with
  | leaf => exact h
  | node y l r ihl ihr =>
    unfold along at h
    split at h
    · rcases List.mem_cons.1 h with rfl | h
      · simp
      · simp [ihr h]
    · rcases List.mem_cons.1 h with rfl | h
      · simp
      · simp [ihl h]

theorem mem_of_mem_descent {t : Tree α} {x : α} (h : x ∈ t.descent before) : x ∈ t.toList := by
  induction t with
  | leaf => exact h
  | node y l r ihl ihr =>
    unfold descent at h
    split at h
    · rcases List.mem_cons.1 h with rfl | h
      · simp
      · simp [ihr h]
    · rcases List.mem_cons.1 h with rfl | h
      · simp
      · simp [ihl h]

/-- An entry that comes before the top entry comes before all. -/
theorem StrictWeakOrder.all (o : StrictWeakOrder before) {x y : α} {ys : List α} (hxy : before x y = true)
    (h : ∀ z ∈ ys, before z y = false) : (y :: ys).all (before x) = true := by
  refine List.all_eq_true.2 fun z hz => ?_
  rcases List.mem_cons.1 hz with rfl | hz
  · exact hxy
  · cases hxz : before x z with
    | true => rfl
    | false => exact absurd (o.passed hxz (h z hz)) (by simp [hxy])

theorem Ordered.insert (o : StrictWeakOrder before) {t : Tree α} (h : t.Ordered before) (x : α)
    (way : List Bool) : (t.insert before x way).Ordered before := by
  induction t generalizing way with
  | leaf => exact ⟨by simp, trivial, trivial⟩
  | node y l r ihl ihr =>
    have h' := h
    obtain ⟨hy, hl, hr⟩ := h
    unfold Tree.insert
    split
    · next hx =>
      refine h'.shift (fun z hz => ?_) way
      have hxy : before x y = true := by
        unfold along at hx
        simp only [List.all_cons, Bool.and_eq_true] at hx
        exact hx.1
      rcases List.mem_cons.1 hz with rfl | hz
      · exact o.asymm hxy
      · exact o.passed (hy z hz) (o.asymm hxy)
    · next hx =>
      have hxy : before x y = false := by
        cases hxy : before x y with
        | false => rfl
        | true =>
          refine absurd (StrictWeakOrder.all o hxy fun z hz => ?_) hx
          refine hy z ?_
          split at hz
          · exact List.mem_append_right _ (mem_of_mem_along hz)
          · exact List.mem_append_left _ (mem_of_mem_along hz)
      split
      · refine ⟨fun z hz => ?_, hl, ihr hr _⟩
        rcases List.mem_append.1 hz with hz | hz
        · exact hy z (List.mem_append_left _ hz)
        · rcases List.mem_cons.1 ((toList_insert before x _ r).mem_iff.1 hz) with rfl | hz
          · exact hxy
          · exact hy z (List.mem_append_right _ hz)
      · refine ⟨fun z hz => ?_, ihl hl _, hr⟩
        rcases List.mem_append.1 hz with hz | hz
        · rcases List.mem_cons.1 ((toList_insert before x _ l).mem_iff.1 hz) with rfl | hz
          · exact hxy
          · exact hy z (List.mem_append_left _ hz)
        · exact hy z (List.mem_append_right _ hz)

theorem Ordered.removeLast? {t rest : Tree α} {way : List Bool} {last : α} (h : t.Ordered before)
    (hr : t.removeLast? way = some (last, rest)) : rest.Ordered before := by
  induction t generalizing way rest with
  | leaf => simp [Tree.removeLast?] at hr
  | node x l r ihl ihr =>
    obtain ⟨hx, hl, hr'⟩ := h
    rcases removeLast?_eq_some hr with ⟨r', heq, rfl⟩ | ⟨l', heq, rfl⟩ | ⟨rfl, rfl, rfl, rfl⟩
    · refine ⟨fun z hz => hx z ?_, hl, ihr hr' heq⟩
      rw [List.mem_append] at hz ⊢
      exact hz.imp_right fun hz => (toList_of_removeLast? heq).mem_iff.2 (List.mem_cons_of_mem _ hz)
    · refine ⟨fun z hz => hx z ?_, ihl hl heq, hr'⟩
      rw [List.mem_append] at hz ⊢
      exact hz.imp_left fun hz => (toList_of_removeLast? heq).mem_iff.2 (List.mem_cons_of_mem _ hz)
    · trivial

theorem before_top_eq_false (o : StrictWeakOrder before) {x y : α} {l r : Tree α}
    (h : (node y l r).Ordered before) (hx : x ∈ (node y l r).toList) : before x y = false := by
  rcases List.mem_cons.1 hx with rfl | hx
  · cases hb : before x x with
    | false => rfl
    | true => exact hb.symm.trans (o.asymm hb)
  · exact h.1 x hx

/-- The entry to which a gap sinks first comes before the others. -/
theorem first_of_descent (o : StrictWeakOrder before) {l r : Tree α} (hl : l.Ordered before)
    (hr : r.Ordered before) {y : α} {ys : List α}
    (h : (if sinksRight before l r then r else l).descent before = y :: ys) :
    ∀ z ∈ l.toList ++ r.toList, before z y = false := by
  intro z hz
  cases l with
  | leaf =>
    cases r with
    | leaf => simp at hz
    | node b rl rr =>
      obtain rfl : b = y := by simpa [sinksRight, descent] using (List.cons.inj h).1
      exact before_top_eq_false o hr (by simpa using hz)
  | node a ll lr =>
    cases r with
    | leaf =>
      obtain rfl : a = y := by simpa [sinksRight, descent] using (List.cons.inj h).1
      exact before_top_eq_false o hl (by simpa using hz)
    | node b rl rr =>
      cases hab : before a b with
      | false =>
        simp only [sinksRight, hab, Bool.not_false, if_true, descent] at h
        obtain rfl : b = y := (List.cons.inj h).1
        rcases List.mem_append.1 hz with hz | hz
        · exact o.passed (before_top_eq_false o hl hz) hab
        · exact before_top_eq_false o hr hz
      | true =>
        simp only [sinksRight, hab, Bool.not_true, Bool.false_eq_true, if_false, descent] at h
        obtain rfl : a = y := (List.cons.inj h).1
        rcases List.mem_append.1 hz with hz | hz
        · exact before_top_eq_false o hl hz
        · exact o.passed (before_top_eq_false o hr hz) (o.asymm hab)

theorem eq_leaf_of_descent {l r : Tree α}
    (h : (if sinksRight before l r then r else l).descent before = []) : l = leaf ∧ r = leaf := by
  cases l <;> cases r <;> simp [sinksRight, descent] at h ⊢
  split at h <;> simp [descent] at h

theorem ordered_replaceTop (o : StrictWeakOrder before) {t : Tree α} (h : t.Ordered before) (x : α) :
    (t.replaceTop before x).Ordered before := by
  induction t with
  | leaf => exact ⟨by simp, trivial, trivial⟩
  | node z l r ihl ihr =>
    obtain ⟨-, hl, hr⟩ := h
    unfold replaceTop
    dsimp only
    split
    · next heq =>
      obtain ⟨rfl, rfl⟩ := eq_leaf_of_descent heq
      exact ⟨by simp, trivial, trivial⟩
    · next y ys heq =>
      have first := first_of_descent o hl hr heq
      split
      · next hx =>
        simp only [List.all_cons, Bool.and_eq_true] at hx
        exact ⟨fun w hw => o.passed (first w hw) (o.asymm hx.1), hl, hr⟩
      · next hx =>
        have hxy : before x y = false := by
          cases hxy : before x y with
          | false => rfl
          | true =>
            refine absurd (StrictWeakOrder.all o hxy fun w hw => first w ?_) hx
            have hw : w ∈ (if sinksRight before l r then r else l).descent before :=
              heq ▸ List.mem_cons_of_mem y hw
            split at hw
            · exact List.mem_append_right _ (mem_of_mem_descent hw)
            · exact List.mem_append_left _ (mem_of_mem_descent hw)
        split
        · refine ⟨fun w hw => ?_, hl, ihr hr⟩
          rcases List.mem_append.1 hw with hw | hw
          · exact first w (List.mem_append_left _ hw)
          · rcases List.mem_cons.1 ((toList_replaceTop before x r).mem_iff.1 hw) with rfl | hw
            · exact hxy
            · exact first w (List.mem_append_right _ (List.mem_of_mem_tail hw))
        · refine ⟨fun w hw => ?_, ihl hl, hr⟩
          rcases List.mem_append.1 hw with hw | hw
          · rcases List.mem_cons.1 ((toList_replaceTop before x l).mem_iff.1 hw) with rfl | hw
            · exact hxy
            · exact first w (List.mem_append_left _ (List.mem_of_mem_tail hw))
          · exact first w (List.mem_append_right _ hw)

end Tree

variable {α : Type} {before : α → α → Bool}

/-- No entry comes before one above it. -/
def Ordered (before : α → α → Bool) (h : Heap α) : Prop := h.tree.Ordered before

theorem ordered_empty : (empty : Heap α).Ordered before := trivial

theorem ordered_push (o : StrictWeakOrder before) {h : Heap α} (hh : h.Ordered before) (x : α) :
    (h.push before x).Ordered before :=
  Tree.Ordered.insert o hh x _

theorem ordered_of_pop? (o : StrictWeakOrder before) {h rest : Heap α} {x : α} (hh : h.Ordered before)
    (hp : h.pop? before = some (x, rest)) : rest.Ordered before := by
  obtain ⟨⟨last, t⟩, hr, heq⟩ := Option.map_eq_some_iff.1 hp
  have ht := Tree.Ordered.removeLast? hh hr
  cases t with
  | leaf =>
    obtain ⟨rfl, rfl⟩ := Prod.mk.inj heq
    exact trivial
  | node top l r =>
    obtain ⟨rfl, rfl⟩ := Prod.mk.inj heq
    exact Tree.ordered_replaceTop o ht last

/-- No entry of an ordered heap comes before the one that is taken. -/
theorem first_of_pop? (o : StrictWeakOrder before) {h rest : Heap α} {x : α} (hh : h.Ordered before)
    (hp : h.pop? before = some (x, rest)) : ∀ y ∈ h.toList, before y x = false := by
  obtain ⟨⟨last, t⟩, hr, heq⟩ := Option.map_eq_some_iff.1 hp
  obtain ⟨size, tree⟩ := h
  cases tree with
  | leaf => simp [Tree.removeLast?] at hr
  | node y l r =>
    have hxy : x = y := by
      rcases Tree.removeLast?_eq_some hr with ⟨r', -, rfl⟩ | ⟨l', -, rfl⟩ | ⟨-, -, rfl, rfl⟩
      · exact (Prod.mk.inj heq).1.symm
      · exact (Prod.mk.inj heq).1.symm
      · exact (Prod.mk.inj heq).1.symm
    subst hxy
    exact fun z hz => Tree.before_top_eq_false o hh hz

end Transducer.Heap
