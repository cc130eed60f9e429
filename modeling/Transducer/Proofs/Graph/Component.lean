import Mathlib
import Transducer.Graph.Component
import Transducer.Proofs.Graph.Search

/-!
# Strongly connected components are found

`numberOf_eq_iff` says that two vertices get the same number if and only if each of them reaches the other,
and `numberOf_le_of_edge` that no edge leads to a higher number.

The search for components takes the vertices in the reverse of the order in which they were finished.
`Collects` is what holds after some of them: the components of these vertices have been found, and all
that leads into them has been found earlier. One more vertex adds exactly its component
(`mem_iff_linked`): what it finds leads to it, and the order of finishing shows that it leads back.
-/

namespace Transducer.Graph

open Relation

variable {next : Nat → List Nat} {size : Nat}

/-- Each of the vertices reaches the other. -/
def Linked (next : Nat → List Nat) (size v w : Nat) : Prop := Reaches next size v w ∧ Reaches next size w v

theorem Linked.refl (v : Nat) : Linked next size v v := ⟨.refl, .refl⟩

theorem Linked.symm {v w : Nat} (h : Linked next size v w) : Linked next size w v := ⟨h.2, h.1⟩

theorem Linked.trans {u v w : Nat} (h : Linked next size u v) (h' : Linked next size v w) :
    Linked next size u w := ⟨h.1.trans h'.1, h'.2.trans h.2⟩

/-! ### One component -/

/-- What a search of the turned graph finds from a vertex is the component of that vertex, if the vertices
before it in the order of finishing were found together with all that leads to them. -/
theorem mem_iff_linked {S S₁ : Search} {found done rest : List Nat} {r : Nat}
    (h : Search.Explores (fun v => (reverse next size).getD v []) size [r] S S₁ found) (hr : r < size)
    (hs : ¬ S.Seen r) (horder : LastFirst next size (done ++ r :: rest))
    (hall : ∀ v, v ∈ done ++ r :: rest ↔ v < size) (hdone : ∀ v ∈ done, S.Seen v)
    (hlinked : ∀ v w, S.Seen v → Linked next size v w → S.Seen w) (v : Nat) :
    v ∈ found ↔ Linked next size r v := by
  have hrf : r ∈ found :=
    (h.seen_iff.1 (h.covered r (List.mem_singleton.2 rfl) hr)).resolve_left hs
  obtain ⟨inner, outer, rfl, hin, hout⟩ := horder done r rest rfl
  constructor
  · intro hv
    obtain ⟨r', hr', -, hp⟩ := h.reached v hv
    obtain rfl := List.mem_singleton.1 hr'
    have hback : Reaches next size v r' ∧ v ∈ r' :: inner := by
      clear hv
      induction hp with
      | refl => exact ⟨.refl, List.mem_cons_self⟩
      | @tail u w _ e ih =>
        obtain ⟨hw, e'⟩ := edge_reverse.1 e.1
        obtain ⟨hu, hmem⟩ := ih
        refine ⟨.head e' hu, ?_⟩
        -- it was finished after the root, and what was finished earlier does not lead there
        rcases List.mem_append.1 ((hall w).2 hw) with hw | hw
        · exact absurd (hdone w hw) (h.fresh w e.2)
        · rcases List.mem_cons.1 hw with rfl | hw
          · exact List.mem_cons_self
          · rcases List.mem_append.1 hw with hw | hw
            · exact List.mem_cons_of_mem _ hw
            · exact absurd hmem (hout w hw u e')
    refine ⟨?_, hback.1⟩
    rcases List.mem_cons.1 hback.2 with rfl | hv
    · exact .refl
    · exact hin v hv
  · intro hl
    obtain ⟨hrv, hvr⟩ := hl
    induction hvr using ReflTransGen.head_induction_on with
    | refl => exact hrf
    | @head v w e hwr ih =>
      have hv : v < size := hrv.lt_size hr
      have hseen := h.closed w (ih (.tail hrv e)) v (edge_reverse.2 ⟨hv, e⟩)
      rcases h.seen_iff.1 hseen with hold | hfound
      · exact absurd (hlinked v r hold ⟨.head e hwr, hrv⟩) hs
      · exact hfound

/-! ### The collection -/

/-- The values along a list come up from zero one after another: what is less than a value is a value further
forward. -/
def Ascends (place : Nat → Nat) (order : List Nat) : Prop :=
  ∀ before v after, order = before ++ v :: after → ∀ k < place v, ∃ u ∈ before, place u = k

theorem ascends_nil {place : Nat → Nat} : Ascends place [] := fun before v after h => by simp at h

/-- One more value is at most the next one. -/
theorem Ascends.concat {place place' : Nat → Nat} {order : List Nat} {r : Nat} (h : Ascends place order)
    (heq : ∀ u ∈ order, place' u = place u) (hr : ∀ k < place' r, ∃ u ∈ order, place u = k) :
    Ascends place' (order ++ [r]) := by
  intro before v after horder k hk
  rcases List.eq_nil_or_concat after with rfl | ⟨after, r', rfl⟩
  · obtain ⟨rfl, hv⟩ := List.append_inj' horder rfl
    obtain rfl := List.singleton_inj.1 hv
    obtain ⟨u, hu, hplace⟩ := hr k hk
    exact ⟨u, hu, (heq u hu).trans hplace⟩
  · have hinit : order ++ [r] = (before ++ v :: after) ++ [r'] := by
      rw [horder]
      simp
    obtain ⟨rfl, -⟩ := List.append_inj' hinit rfl
    rw [heq v (by simp)] at hk
    obtain ⟨u, hu, hplace⟩ := h before v after rfl k hk
    exact ⟨u, hu, (heq u (List.mem_append_left _ hu)).trans hplace⟩

/-- The components of the vertices `done` have been collected, and each got a place after those that lead
to it. -/
structure Collects (next : Nat → List Nat) (size : Nat) (done : List Nat) (c : Collection) : Prop where
  size_seen : c.search.seen.size = size
  size_place : c.place.size = size
  seen_iff : ∀ v, c.search.Seen v ↔ ∃ u ∈ done, Linked next size u v
  seen_of_edge : ∀ {v w}, Edge next size v w → v < size → c.search.Seen w → c.search.Seen v
  place_lt : ∀ {v}, c.search.Seen v → c.place.getD v 0 < c.count
  place_eq_iff : ∀ {v w}, c.search.Seen v → c.search.Seen w →
    (c.place.getD v 0 = c.place.getD w 0 ↔ Linked next size v w)
  place_le : ∀ {v w}, Edge next size v w → c.search.Seen v → c.search.Seen w →
    c.place.getD v 0 ≤ c.place.getD w 0
  exists_place : ∀ k < c.count, ∃ v, c.search.Seen v ∧ c.place.getD v 0 = k
  ascends : Ascends (c.place.getD · 0) done

theorem collects_nil : Collects next size []
    { search := .init size, place := Array.replicate size 0, count := 0 } where
  size_seen := Array.size_replicate
  size_place := Array.size_replicate
  seen_iff v := by simp [Search.not_seen_init]
  seen_of_edge _ _ h := absurd h Search.not_seen_init
  place_lt h := absurd h Search.not_seen_init
  place_eq_iff h := absurd h Search.not_seen_init
  place_le _ h := absurd h Search.not_seen_init
  exists_place k h := absurd h (Nat.not_lt_zero k)
  ascends := ascends_nil

section Entries

variable {α : Type*} {entry default : α} {place : Array α} {found : List Nat} {v : Nat}

/-- Entering one number for several vertices. -/
theorem getD_foldl_setIfInBounds (h : ∀ v ∈ found, v < place.size) :
    (found.foldl (fun place v => place.setIfInBounds v entry) place).getD v default =
      if v ∈ found then entry else place.getD v default := by
  induction found generalizing place with
  | nil => simp
  | cons u found ih =>
    have hu := h u List.mem_cons_self
    rw [List.foldl_cons, ih fun v hv => by simpa using h v (List.mem_cons_of_mem _ hv)]
    simp only [Array.getD_eq_getD_getElem?, Array.getElem?_setIfInBounds, hu, if_true, List.mem_cons]
    by_cases hv : v ∈ found
    · simp [hv]
    · by_cases huv : u = v
      · simp [huv]
      · simp [hv, huv, Ne.symm huv]

theorem size_foldl_setIfInBounds (found : List Nat) (place : Array α) (entry : α) :
    (found.foldl (fun place v => place.setIfInBounds v entry) place).size = place.size := by
  induction found generalizing place with
  | nil => rfl
  | cons u found ih => rw [List.foldl_cons, ih, Array.size_setIfInBounds]

end Entries

variable {c c' : Collection} {done : List Nat} {r : Nat}

/-- Every place is that of a vertex from which something was collected. -/
theorem Collects.exists_mem_place (h : Collects next size done c) {k : Nat} (hk : k < c.count) :
    ∃ u ∈ done, c.place.getD u 0 = k := by
  obtain ⟨v, hv, rfl⟩ := h.exists_place k hk
  obtain ⟨u, hu, hl⟩ := (h.seen_iff v).1 hv
  exact ⟨u, hu, (h.place_eq_iff ((h.seen_iff u).2 ⟨u, hu, .refl u⟩) hv).2 hl⟩

/-- A vertex whose component has been collected adds nothing. -/
theorem Collects.skip (h : Collects next size done c) (hr : c.search.Seen r) :
    Collects next size (done ++ [r]) c := by
  refine { h with
    seen_iff := fun v => ?_
    ascends := h.ascends.concat (fun _ _ => rfl) fun k hk => h.exists_mem_place (hk.trans (h.place_lt hr)) }
  obtain ⟨u, hu, hur⟩ := (h.seen_iff r).1 hr
  rw [h.seen_iff v]
  constructor
  · rintro ⟨w, hw, hl⟩
    exact ⟨w, List.mem_append_left _ hw, hl⟩
  · rintro ⟨w, hw, hl⟩
    rcases List.mem_append.1 hw with hw | hw
    · exact ⟨w, hw, hl⟩
    · obtain rfl := List.mem_singleton.1 hw
      exact ⟨u, hu, hur.trans hl⟩

/-- The component of `r`, of which nothing had been found, gets the next place. -/
structure Adds (next : Nat → List Nat) (size r : Nat) (c c' : Collection) : Prop where
  size_seen : c'.search.seen.size = size
  size_place : c'.place.size = size
  count_eq : c'.count = c.count + 1
  seen_iff : ∀ v, c'.search.Seen v ↔ c.search.Seen v ∨ Linked next size r v
  fresh : ∀ {v}, Linked next size r v → ¬ c.search.Seen v
  seen_of_edge : ∀ {v w}, Edge next size v w → v < size → Linked next size r w → c'.search.Seen v
  place_of_seen : ∀ {v}, c.search.Seen v → c'.place.getD v 0 = c.place.getD v 0
  place_of_linked : ∀ {v}, Linked next size r v → c'.place.getD v 0 = c.count

theorem Adds.place_lt (ha : Adds next size r c c') (h : Collects next size done c) {v : Nat}
    (hv : c'.search.Seen v) : c'.place.getD v 0 < c'.count := by
  rw [ha.count_eq]
  rcases (ha.seen_iff v).1 hv with hv | hv
  · rw [ha.place_of_seen hv]
    exact Nat.lt_succ_of_lt (h.place_lt hv)
  · rw [ha.place_of_linked hv]
    exact Nat.lt_succ_self c.count

/-- What is found now has the new place, which nothing had before. -/
theorem Adds.place_eq_iff (ha : Adds next size r c c') (h : Collects next size done c) {v w : Nat}
    (hv : c'.search.Seen v) (hw : c'.search.Seen w) :
    c'.place.getD v 0 = c'.place.getD w 0 ↔ Linked next size v w := by
  rcases (ha.seen_iff v).1 hv with hv | hv <;> rcases (ha.seen_iff w).1 hw with hw | hw
  · rw [ha.place_of_seen hv, ha.place_of_seen hw]
    exact h.place_eq_iff hv hw
  · rw [ha.place_of_seen hv, ha.place_of_linked hw]
    exact iff_of_false (h.place_lt hv).ne fun hl => ha.fresh (hw.trans hl.symm) hv
  · rw [ha.place_of_linked hv, ha.place_of_seen hw]
    exact iff_of_false (h.place_lt hw).ne' fun hl => ha.fresh (hv.trans hl) hw
  · rw [ha.place_of_linked hv, ha.place_of_linked hw]
    exact iff_of_true rfl (hv.symm.trans hw)

theorem Adds.place_le (ha : Adds next size r c c') (h : Collects next size done c) {v w : Nat}
    (e : Edge next size v w) (hr : r < size) (hv : c'.search.Seen v) (hw : c'.search.Seen w) :
    c'.place.getD v 0 ≤ c'.place.getD w 0 := by
  rcases (ha.seen_iff v).1 hv with hv | hv <;> rcases (ha.seen_iff w).1 hw with hw | hw
  · rw [ha.place_of_seen hv, ha.place_of_seen hw]
    exact h.place_le e hv hw
  · rw [ha.place_of_seen hv, ha.place_of_linked hw]
    exact (h.place_lt hv).le
  · exact absurd (h.seen_of_edge e (hv.1.lt_size hr) hw) (ha.fresh hv)
  · rw [ha.place_of_linked hv, ha.place_of_linked hw]

theorem Adds.exists_place (ha : Adds next size r c c') (h : Collects next size done c) {k : Nat}
    (hk : k < c'.count) : ∃ v, c'.search.Seen v ∧ c'.place.getD v 0 = k := by
  rw [ha.count_eq] at hk
  rcases Nat.lt_succ_iff_lt_or_eq.1 hk with hk | rfl
  · obtain ⟨v, hv, heq⟩ := h.exists_place k hk
    exact ⟨v, (ha.seen_iff v).2 (.inl hv), (ha.place_of_seen hv).trans heq⟩
  · have hl : Linked next size r r := .refl r
    exact ⟨r, (ha.seen_iff r).2 (.inr hl), ha.place_of_linked hl⟩

theorem Collects.add (h : Collects next size done c) (hr : r < size) (ha : Adds next size r c c') :
    Collects next size (done ++ [r]) c' where
  size_seen := ha.size_seen
  size_place := ha.size_place
  seen_iff v := by
    rw [ha.seen_iff, h.seen_iff]
    constructor
    · rintro (⟨u, hu, hl⟩ | hl)
      · exact ⟨u, List.mem_append_left _ hu, hl⟩
      · exact ⟨r, by simp, hl⟩
    · rintro ⟨u, hu, hl⟩
      rcases List.mem_append.1 hu with hu | hu
      · exact .inl ⟨u, hu, hl⟩
      · obtain rfl := List.mem_singleton.1 hu
        exact .inr hl
  seen_of_edge {v w} e hv hw := by
    rcases (ha.seen_iff w).1 hw with hw | hw
    · exact (ha.seen_iff v).2 (.inl (h.seen_of_edge e hv hw))
    · exact ha.seen_of_edge e hv hw
  place_lt := ha.place_lt h
  place_eq_iff := ha.place_eq_iff h
  place_le e := ha.place_le h e hr
  exists_place _ := ha.exists_place h
  ascends := by
    refine h.ascends.concat (fun u hu => ha.place_of_seen ((h.seen_iff u).2 ⟨u, hu, .refl u⟩)) fun k hk => ?_
    exact h.exists_mem_place (ha.place_of_linked (.refl r) ▸ hk)

/-- The search backward from a vertex that has no component yet finds its component. -/
theorem Collects.adds_visit {rest : List Nat} (h : Collects next size done c)
    (horder : LastFirst next size (done ++ r :: rest)) (hall : ∀ v, v ∈ done ++ r :: rest ↔ v < size)
    (hs : ¬ c.search.Seen r) {S : Search}
    (hS : Search.visit (fun v => (reverse next size).getD v []) size { c.search with finished := [] } r = S) :
    Adds next size r c
      { search := S
        place := S.finished.foldl (fun place v => place.setIfInBounds v c.count) c.place
        count := c.count + 1 } := by
  have hr : r < size := (hall r).1 (by simp)
  obtain ⟨found, hx⟩ := Search.explores_visit (fun v => (reverse next size).getD v []) size
    { c.search with finished := [] } r h.size_seen ((Search.unseen_le _).trans h.size_seen.le)
  rw [hS] at hx
  have hmem := mem_iff_linked hx hr hs horder hall
    (fun v hv => (h.seen_iff v).2 ⟨v, hv, .refl v⟩)
    (fun v w hv hl => by
      obtain ⟨u, hu, huv⟩ := (h.seen_iff v).1 hv
      exact (h.seen_iff w).2 ⟨u, hu, huv.trans hl⟩)
  have hfinished : S.finished = found := hx.finished_eq.trans (List.append_nil found)
  have hseen : ∀ v, S.Seen v ↔ c.search.Seen v ∨ Linked next size r v := by
    intro v
    rw [← hmem]
    exact hx.seen_iff
  have hfresh : ∀ {v}, Linked next size r v → ¬ c.search.Seen v := fun hl => hx.fresh _ ((hmem _).2 hl)
  have hplace : ∀ v, (S.finished.foldl (fun place v => place.setIfInBounds v c.count) c.place).getD v 0 =
      if v ∈ found then c.count else c.place.getD v 0 := by
    intro v
    rw [hfinished]
    refine getD_foldl_setIfInBounds fun w hw => ?_
    rw [h.size_place]
    exact ((hmem w).1 hw).1.lt_size hr
  refine ⟨hx.size_eq.trans h.size_seen, ?_, rfl, hseen, hfresh, ?_, ?_, ?_⟩
  · exact (size_foldl_setIfInBounds ..).trans h.size_place
  · intro v w e hv hw
    exact hx.closed w ((hmem w).2 hw) v (edge_reverse.2 ⟨hv, e⟩)
  · intro v hv
    rw [hplace, if_neg fun hf => hfresh ((hmem v).1 hf) hv]
  · intro v hl
    rw [hplace, if_pos ((hmem v).2 hl)]

/-- The next vertex adds its component, unless this has been found before. -/
theorem Collects.collect {rest : List Nat} (h : Collects next size done c)
    (horder : LastFirst next size (done ++ r :: rest)) (hall : ∀ v, v ∈ done ++ r :: rest ↔ v < size) :
    Collects next size (done ++ [r])
      (Collection.collect (fun v => (reverse next size).getD v []) size c r) := by
  have hr : r < size := (hall r).1 (by simp)
  unfold Collection.collect
  split
  · next hskip => exact h.skip (Search.seen_of_skips hskip (h.size_seen.symm ▸ hr))
  · next hskip =>
    obtain ⟨-, hs⟩ := Search.skips_eq_false_iff.1 (Bool.not_eq_true _ ▸ hskip)
    exact h.add hr (h.adds_visit horder hall hs rfl)

/-! ### The components -/

theorem collects_components (next : Nat → List Nat) (size : Nat) :
    Collects next size (finishOrder next size) ((finishOrder next size).foldl
      (Collection.collect (fun v => (reverse next size).getD v []) size)
      { search := .init size, place := Array.replicate size 0, count := 0 }) := by
  have key : ∀ (rest done : List Nat) (c : Collection), done ++ rest = finishOrder next size →
      Collects next size done c → Collects next size (done ++ rest)
        (rest.foldl (Collection.collect (fun v => (reverse next size).getD v []) size) c) := by
    intro rest
    induction rest with
    | nil =>
      intro done c _ h
      simpa using h
    | cons r rest ih =>
      intro done c heq h
      have horder : LastFirst next size (done ++ r :: rest) := heq ▸ lastFirst_finishOrder
      have h' := h.collect horder fun v => heq ▸ mem_finishOrder
      have := ih (done ++ [r]) _ (by simpa using heq) h'
      simpa using this
  exact key _ [] _ rfl collects_nil

section Components

variable {v w : Nat}

/-- The number of the component of a vertex. -/
def numberOf (next : Nat → List Nat) (size v : Nat) : Nat := (components next size).number.getD v 0

theorem size_number : (components next size).number.size = size := by
  simpa [components] using (collects_components next size).size_place

/-- The components are those of a collection that is complete, numbered from the last one on. -/
theorem exists_collection (next : Nat → List Nat) (size : Nat) :
    ∃ c, Collects next size (finishOrder next size) c ∧ (components next size).count = c.count ∧
      ∀ v < size, c.search.Seen v ∧ numberOf next size v = c.count - 1 - c.place.getD v 0 := by
  obtain ⟨c, h, heq⟩ : ∃ c, Collects next size (finishOrder next size) c ∧
      components next size =
        { number := c.place.map fun place => c.count - 1 - place, count := c.count } :=
    ⟨_, collects_components next size, rfl⟩
  refine ⟨c, h, by rw [heq], fun v hv => ⟨(h.seen_iff v).2 ⟨v, mem_finishOrder.2 hv, .refl v⟩, ?_⟩⟩
  have hlt : v < c.place.size := h.size_place.symm ▸ hv
  rw [numberOf, heq]
  simp [Array.getD_eq_getD_getElem?, hlt]

theorem numberOf_lt (hv : v < size) : numberOf next size v < (components next size).count := by
  obtain ⟨c, h, hcount, hc⟩ := exists_collection next size
  obtain ⟨hs, heq⟩ := hc v hv
  have := h.place_lt hs
  omega

/-- Vertices have the same number if each of them reaches the other. -/
theorem numberOf_eq_iff (hv : v < size) (hw : w < size) :
    numberOf next size v = numberOf next size w ↔ Linked next size v w := by
  obtain ⟨c, h, -, hc⟩ := exists_collection next size
  obtain ⟨hsv, hnv⟩ := hc v hv
  obtain ⟨hsw, hnw⟩ := hc w hw
  have hlv := h.place_lt hsv
  have hlw := h.place_lt hsw
  rw [← h.place_eq_iff hsv hsw, hnv, hnw]
  omega

/-- An edge leads to a number that is not higher. -/
theorem numberOf_le_of_edge (e : Edge next size v w) (hv : v < size) :
    numberOf next size w ≤ numberOf next size v := by
  obtain ⟨c, h, -, hc⟩ := exists_collection next size
  obtain ⟨hsv, hnv⟩ := hc v hv
  obtain ⟨hsw, hnw⟩ := hc w e.2
  have := h.place_le e hsv hsw
  omega

/-- So does a way. -/
theorem numberOf_le_of_reaches (h : Reaches next size v w) (hv : v < size) :
    numberOf next size w ≤ numberOf next size v := by
  induction h with
  | refl => exact le_rfl
  | tail h e ih => exact (numberOf_le_of_edge e (Reaches.lt_size h hv)).trans ih

/-- Every number is that of some vertex. -/
theorem exists_numberOf_eq {k : Nat} (hk : k < (components next size).count) :
    ∃ v < size, numberOf next size v = k := by
  obtain ⟨c, h, hcount, hc⟩ := exists_collection next size
  obtain ⟨v, hs, heq⟩ := h.exists_place (c.count - 1 - k) (by omega)
  have hv : v < size := h.size_seen ▸ hs.lt_size
  exact ⟨v, hv, by rw [(hc v hv).2, heq]; omega⟩

end Components

end Transducer.Graph
