import Mathlib
import Transducer.Proofs.Graph.Turn

/-!
# One search finds the components in order

`tarjan_eq_components`: Tarjan's search comes to its end, and finds the same components with the same numbers as
`components`, which goes through the graph twice.

Both go by the same depth-first search. Tarjan's search keeps the vertices where it is in a list of its own, and
`resume` tells what the recursive search has still to do there, which no turn changes. So a vertex is finished by the
one when it is finished by the other. A component gets its number when its first vertex is finished (`Descends`), and
in the order in which vertices are finished, read from the last one on, `components` gives the places in the same way
(`Ascends`): which vertices have the same place then leaves no choice of the places (`Ascends.eq_of_iff`).
-/

namespace Transducer.Graph

variable {next : Nat → List Nat} {size : Nat}

/-- Values that come up one after another are known if it is known which of them are the same. -/
theorem Ascends.eq_of_iff {place place' : Nat → Nat} {order : List Nat} (h : Ascends place order)
    (h' : Ascends place' order) (hiff : ∀ u ∈ order, ∀ v ∈ order, place u = place v ↔ place' u = place' v) :
    ∀ v ∈ order, place v = place' v := by
  have key : ∀ before after, order = before ++ after → ∀ v ∈ before, place v = place' v := by
    intro before
    induction before using List.reverseRecOn with
    | nil => simp
    | append_singleton before v ih =>
      intro after horder
      have heq : order = before ++ v :: after := by rw [horder, List.append_assoc, List.singleton_append]
      have hbefore : ∀ u ∈ before, place u = place' u := ih (v :: after) heq
      have hmem : ∀ u ∈ before, u ∈ order := fun u hu => heq ▸ List.mem_append_left _ hu
      have hv : v ∈ order := by simp [heq]
      intro u hu
      rcases List.mem_append.1 hu with hu | hu
      · exact hbefore u hu
      · obtain rfl := List.mem_singleton.1 hu
        -- the lower of two different values would have come up before, and both ways
        rcases lt_trichotomy (place u) (place' u) with hlt | heq' | hlt
        · obtain ⟨w, hw, hplace⟩ := h' before u after heq (place u) hlt
          have hsame : place' w = place' u := (hiff w (hmem w hw) u hv).1 ((hbefore w hw).trans hplace)
          exact hplace.symm.trans hsame
        · exact heq'
        · obtain ⟨w, hw, hplace⟩ := h before u after heq (place' u) hlt
          have hsame : place w = place u := (hiff w (hmem w hw) u hv).2 ((hbefore w hw).symm.trans hplace)
          exact hsame.symm.trans hplace
  exact key order [] (List.append_nil order).symm

namespace Tarjan

variable {t t' : Tarjan} {S goal : Search} {v w passed : Nat} {calls : List (Nat × Nat)} {finished : List Nat}

/-! ### The same depth-first search -/

/-- The state of the plain search that has reached the same vertices. -/
def search (t : Tarjan) (finished : List Nat) : Search := { seen := t.index.map Option.isSome, finished }

/-- What the plain search still does when it is at several vertices, the last one first. -/
def resume (next : Nat → List Nat) (size : Nat) : List (Nat × Nat) → Search → Search
  | [], S => S
  | (v, passed) :: calls, S =>
    resume next size calls ((((next v).drop passed).foldl (Search.visit next size) S).finish v)

theorem skips_search : (t.search finished).skips v = false ↔ t.index[v]? = some none := by
  rw [Search.skips, search, Array.getD_eq_getD_getElem?, Array.getElem?_map]
  rcases t.index[v]? with _ | _ | i <;> simp

theorem search_enter : (t.enter w).search finished = (t.search finished).mark w := by
  simp [search, enter, Search.mark, Array.map_setIfInBounds]

theorem skips_of_hasIndex {i : Nat} (hi : t.HasIndex w i) : (t.search finished).skips w = true := by
  by_contra hskip
  cases hi.symm.trans (skips_search.1 (Bool.not_eq_true _ ▸ hskip))

/-- The next thing to do at a vertex is to visit the end of the next edge. -/
theorem resume_of_getElem? (hw : (next v)[passed]? = some w) :
    resume next size ((v, passed) :: calls) S =
      resume next size ((v, passed + 1) :: calls) (Search.visit next size S w) := by
  obtain ⟨hlt, rfl⟩ := List.getElem?_eq_some_iff.1 hw
  rw [resume, List.drop_eq_getElem_cons hlt, resume]
  rfl

/-- When no edge is left the vertex is finished. -/
theorem resume_of_none (hend : (next v)[passed]? = none) :
    resume next size ((v, passed) :: calls) S = resume next size calls (S.finish v) := by
  rw [resume, List.drop_eq_nil_of_le (List.getElem?_eq_none_iff.1 hend)]
  rfl

/-- To visit a new vertex is to be there before its first edge. -/
theorem resume_visit (hsize : S.seen.size = size) (hskip : S.skips w = false) :
    resume next size calls (Search.visit next size S w) = resume next size ((w, 0) :: calls) (S.mark w) := by
  rw [Search.visit_of_not_skips S w hsize hskip]
  rfl

/-- The vertices finished after a turn. -/
def finishedBy (next : Nat → List Nat) (v passed : Nat) (finished : List Nat) : List Nat :=
  if (next v)[passed]? = none then v :: finished else finished

/-- A turn is one thing that the plain search does. -/
theorem resume_turn (hsize : t.index.size = size) (hcalls : t.calls = (v, passed) :: calls)
    (hturn : t.turn next v passed calls = some t') (finished : List Nat) :
    resume next size t'.calls (t'.search (finishedBy next v passed finished)) =
      resume next size t.calls (t.search finished) := by
  rw [hcalls]
  cases turned_of_turn hturn with
  | enters hw hnone =>
    rw [finishedBy, if_neg (by simp [hw]), resume_of_getElem? hw, search_enter]
    exact (resume_visit ((Array.size_map ..).trans hsize) (skips_search.2 hnone)).symm
  | returns hw hi _ =>
    rw [finishedBy, if_neg (by simp [hw]), resume_of_getElem? hw, Search.visit_of_skips (skips_of_hasIndex hi)]
    rfl
  | passes hw hi _ =>
    rw [finishedBy, if_neg (by simp [hw]), resume_of_getElem? hw, Search.visit_of_skips (skips_of_hasIndex hi)]
    rfl
  | leaves hend =>
    rw [finishedBy, if_pos hend, resume_of_none hend, calls_close, calls_report, search, index_close, index_report]
    rfl

/-! ### The order of the components -/

/-- Of the vertices finished, the last one first, one that has its component comes after some vertex of each component
with a higher number. -/
def Descends (t : Tarjan) (finished : List Nat) : Prop :=
  ∀ before v after, finished = before ++ v :: after → t.Settled v →
    ∀ k, t.number.getD v 0 < k → k < t.count → ∃ u ∈ before, t.Settled u ∧ t.number.getD u 0 = k

theorem Descends.stay (h : Descends t finished) (hs : Stays t t') : Descends t' finished := by
  intro before v after heq hv k hk hlt
  rw [hs.number_eq] at hk ⊢
  rw [hs.count_eq] at hlt
  obtain ⟨u, hu, hsettled, hnumber⟩ := h before v after heq ((hs.settled_iff v).1 hv) k hk hlt
  exact ⟨u, hu, (hs.settled_iff u).2 hsettled, hnumber⟩

/-- A vertex is finished and has to wait for its component. -/
theorem Descends.cons (h : Descends t finished) (hv : ¬ t.Settled v) : Descends t (v :: finished) := by
  intro before w after heq hw k hk hlt
  cases before with
  | nil =>
    obtain ⟨rfl, -⟩ := List.cons.inj heq
    exact absurd hw hv
  | cons x before =>
    obtain ⟨-, rfl⟩ := List.cons.inj heq
    obtain ⟨u, hu, hrest⟩ := h before w after rfl hw k hk hlt
    exact ⟨u, List.mem_cons_of_mem _ hu, hrest⟩

/-- A vertex is finished, and its component has the highest number. -/
theorem Descends.settle (h : Descends t finished) (hs : Settles next size v t t') :
    Descends t' (v :: finished) := by
  intro before w after heq hw k hk hlt
  rw [hs.count_eq] at hlt
  rcases (hs.settled_iff w).1 hw with hold | hl
  · cases before with
    | nil =>
      obtain ⟨rfl, -⟩ := List.cons.inj heq
      rw [hs.number_of_linked (.refl v)] at hk
      omega
    | cons x before =>
      obtain ⟨rfl, rfl⟩ := List.cons.inj heq
      rw [hs.number_of_settled hold] at hk
      rcases Nat.lt_succ_iff_lt_or_eq.1 hlt with hlt | rfl
      · obtain ⟨u, hu, hsettled, hnumber⟩ := h before w after rfl hold k hk hlt
        exact ⟨u, List.mem_cons_of_mem _ hu, (hs.settled_iff u).2 (.inl hsettled),
          (hs.number_of_settled hsettled).trans hnumber⟩
      · exact ⟨v, List.mem_cons_self, (hs.settled_iff v).2 (.inr (.refl v)), hs.number_of_linked (.refl v)⟩
  · rw [hs.number_of_linked hl] at hk
    omega

/-- Counted from the last one on, the numbers of the components come up one after another. -/
theorem Descends.ascends (h : Descends t finished) (hs : ∀ v ∈ finished, t.Settled v) :
    Ascends (fun v => t.count - 1 - t.number.getD v 0) finished := by
  intro before v after heq k hk
  dsimp only at hk ⊢
  obtain ⟨u, hu, -, hnumber⟩ := h before v after heq (hs v (by simp [heq])) (t.count - 1 - k) (by omega) (by omega)
  exact ⟨u, hu, by omega⟩

/-! ### The whole search -/

/-- The search is on its way to where the plain search comes to. -/
structure Follows (next : Nat → List Nat) (size : Nat) (goal : Search) (t : Tarjan) : Prop where
  sound : Sound next size t
  exists_finished : ∃ finished, resume next size t.calls (t.search finished) = goal ∧ Descends t finished

theorem Follows.turn (h : Follows next size goal t) (hcalls : t.calls = (v, passed) :: calls)
    (hturn : t.turn next v passed calls = some t') : Follows next size goal t' := by
  obtain ⟨finished, hresume, hdescends⟩ := h.exists_finished
  refine ⟨h.sound.turn hcalls hturn, finishedBy next v passed finished, ?_, ?_⟩
  · rw [resume_turn h.sound.size_index hcalls hturn, hresume]
  · rcases h.sound.stays_or_settles hcalls hturn with hstays | ⟨hend, hsettles⟩
    · unfold finishedBy
      split
      · have hv : v ∈ t.stack := h.sound.mem_stack (c := (v, passed)) (by simp [hcalls])
        exact (hdescends.cons fun hs => hs.2 hv).stay hstays
      · exact hdescends.stay hstays
    · rw [finishedBy, if_pos hend]
      exact hdescends.settle hsettles

/-- A new root is where the plain search goes next. -/
theorem Follows.enter {root : Nat} (h : Follows next size S t) (hcalls : t.calls = [])
    (hnone : t.index[root]? = some none) : Follows next size (Search.visit next size S root) (t.enter root) := by
  obtain ⟨finished, rfl, hdescends⟩ := h.exists_finished
  have hframes : Frames next size (t.enter root) t.calls t.stack := hcalls ▸ h.sound.frames
  refine ⟨h.sound.enter hnone hframes (by simp [hcalls]), finished, ?_, ?_⟩
  · have hskip : (t.search finished).skips root = false := skips_search.2 hnone
    rw [search_enter, Tarjan.enter, hcalls, ← resume_visit ((Array.size_map ..).trans h.sound.size_index) hskip,
      resume, resume]
  · exact hdescends.stay ⟨fun x => settled_enter hnone, rfl, rfl⟩

/-- Searching from a root comes to an end, where the plain search is. -/
theorem Follows.exists_visit (hnext : ∀ v < size, ∀ w ∈ next v, w < size) (h : Follows next size S t)
    (hcalls : t.calls = []) (root : Nat) :
    ∃ t', t.visit next root = some t' ∧ t'.calls = [] ∧ Follows next size (Search.visit next size S root) t' := by
  unfold visit
  split
  · next hnone =>
    refine exists_run (fun {t v passed calls} ht hc => ?_) (h.enter hcalls hnone)
    obtain ⟨t', ht'⟩ := ht.sound.exists_turn hc hnext
    exact ⟨t', ht', ht.turn hc ht'⟩
  · next hne =>
    obtain ⟨finished, rfl, -⟩ := h.exists_finished
    have hskip : (t.search finished).skips root = true := by
      by_contra hskip
      exact hne (skips_search.1 (Bool.not_eq_true _ ▸ hskip))
    have hstay : Search.visit next size (resume next size t.calls (t.search finished)) root =
        resume next size t.calls (t.search finished) := by rw [hcalls, resume, Search.visit_of_skips hskip]
    exact ⟨t, rfl, hcalls, hstay.symm ▸ h⟩

/-- So does searching from one root after another. -/
theorem Follows.exists_foldlM (hnext : ∀ v < size, ∀ w ∈ next v, w < size) (roots : List Nat)
    (h : Follows next size S t) (hcalls : t.calls = []) :
    ∃ t', roots.foldlM (visit next) t = some t' ∧ t'.calls = [] ∧
      Follows next size (roots.foldl (Search.visit next size) S) t' := by
  induction roots generalizing S t with
  | nil => exact ⟨t, rfl, hcalls, h⟩
  | cons root roots ih =>
    obtain ⟨t', ht', hcalls', h'⟩ := h.exists_visit hnext hcalls root
    obtain ⟨t'', ht'', hrest⟩ := ih h' hcalls'
    exact ⟨t'', by rw [List.foldlM_cons, ht']; exact ht'', hrest⟩

/-- The search has come to its end: all vertices have their components, and are finished in the order of the plain
search. -/
structure Ended (next : Nat → List Nat) (size : Nat) (t : Tarjan) : Prop where
  sound : Sound next size t
  settled_iff : ∀ v, t.Settled v ↔ v < size
  descends : Descends t (finishOrder next size)

theorem exists_ended (hnext : ∀ v < size, ∀ w ∈ next v, w < size) :
    ∃ t, (List.range size).foldlM (visit next) (init size) = some t ∧ Ended next size t := by
  have hinit : Follows next size (.init size) (init size) := by
    refine ⟨sound_init next size, [], ?_, fun before v after heq => by simp at heq⟩
    simp [init, resume, search, Search.init]
  obtain ⟨t, ht, hcalls, h⟩ := hinit.exists_foldlM hnext (List.range size) rfl
  obtain ⟨finished, hsearch, hdescends⟩ := h.exists_finished
  rw [hcalls, resume] at hsearch
  have hfinished : finished = finishOrder next size := congrArg Search.finished hsearch
  have hframes := h.sound.frames
  rw [hcalls] at hframes
  have hstack : t.stack = [] := hframes
  refine ⟨t, ht, h.sound, fun v => ⟨?_, fun hv => ⟨?_, by simp [hstack]⟩⟩, hfinished ▸ hdescends⟩
  · rintro ⟨⟨i, hi⟩, -⟩
    exact h.sound.size_index ▸ hi.lt_size
  · have hseen : (t.search finished).Seen v := by
      rw [hsearch]
      exact (explores_finishOrder next size).covered v (List.mem_range.2 hv) hv
    rw [Search.Seen, search, Array.getElem?_map, Option.map_eq_some_iff] at hseen
    obtain ⟨o, ho, hsome⟩ := hseen
    obtain ⟨i, rfl⟩ := Option.isSome_iff_exists.1 hsome
    exact ⟨i, ho⟩

/-! ### The components -/

section

variable {c : Collection}

theorem Ended.number_lt (h : Ended next size t) (hv : v < size) : t.number.getD v 0 < t.count :=
  h.sound.numbers.number_lt ((h.settled_iff v).2 hv)

theorem Ended.number_eq_iff (h : Ended next size t) (hv : v < size) (hw : w < size) :
    t.number.getD v 0 = t.number.getD w 0 ↔ Linked next size v w :=
  h.sound.numbers.number_eq_iff ((h.settled_iff v).2 hv) ((h.settled_iff w).2 hw)

theorem Ended.exists_number (h : Ended next size t) {k : Nat} (hk : k < t.count) :
    ∃ v < size, t.number.getD v 0 = k := by
  obtain ⟨v, hs, hnumber⟩ := h.sound.numbers.exists_number k hk
  exact ⟨v, (h.settled_iff v).1 hs, hnumber⟩

/-- Counted from the last one on, the components have the places in which the second search collects them. -/
theorem Ended.place_eq (h : Ended next size t) (hc : Collects next size (finishOrder next size) c) (hv : v < size) :
    t.count - 1 - t.number.getD v 0 = c.place.getD v 0 := by
  have hseen : ∀ u ∈ finishOrder next size, c.search.Seen u := fun u hu => (hc.seen_iff u).2 ⟨u, hu, .refl u⟩
  refine (h.descends.ascends fun u hu => (h.settled_iff u).2 (mem_finishOrder.1 hu)).eq_of_iff hc.ascends
    (fun u hu w hw => ?_) v (mem_finishOrder.2 hv)
  rw [hc.place_eq_iff (hseen u hu) (hseen w hw), ← h.number_eq_iff (mem_finishOrder.1 hu) (mem_finishOrder.1 hw)]
  have := h.number_lt (mem_finishOrder.1 hu)
  have := h.number_lt (mem_finishOrder.1 hw)
  omega

theorem Ended.count_eq (h : Ended next size t) (hc : Collects next size (finishOrder next size) c) :
    t.count = c.count := by
  rcases lt_trichotomy t.count c.count with hless | heq | hless
  · obtain ⟨v, hv, heq⟩ := hc.exists_mem_place hless
    have := h.place_eq hc (mem_finishOrder.1 hv)
    have := h.number_lt (mem_finishOrder.1 hv)
    omega
  · exact heq
  · obtain ⟨v, hv, heq⟩ := h.exists_number (show t.count - 1 - c.count < t.count by omega)
    have := h.place_eq hc hv
    have := hc.place_lt ((hc.seen_iff v).2 ⟨v, mem_finishOrder.2 hv, .refl v⟩)
    omega

theorem Ended.number_eq (h : Ended next size t) : t.number = (components next size).number := by
  obtain ⟨c, hc, -, hplace⟩ := exists_collection next size
  refine Array.ext (h.sound.size_number.trans size_number.symm) fun v hlt hlt' => ?_
  have hv : v < size := h.sound.size_number ▸ hlt
  have heq : t.number.getD v 0 = numberOf next size v := by
    have := h.place_eq hc hv
    have := h.count_eq hc
    have := h.number_lt hv
    rw [(hplace v hv).2]
    omega
  simpa [numberOf, Array.getD_eq_getD_getElem?, hlt, hlt'] using heq

end

end Tarjan

/-- Both searches give the same components the same numbers. -/
theorem tarjan_eq_components (hnext : ∀ v < size, ∀ w ∈ next v, w < size) :
    tarjan next size = some (components next size) := by
  obtain ⟨t, ht, hended⟩ := Tarjan.exists_ended hnext
  obtain ⟨c, hc, hcount, -⟩ := exists_collection next size
  rw [tarjan, ht, Option.map_some, hended.number_eq, hended.count_eq hc, ← hcount]

/-- If every edge leads to a vertex that exists, Tarjan's search comes to its end with the components: two vertices
have the same number if and only if each of them reaches the other, the numbers are those below the number of
components, and no edge leads to a higher number. -/
theorem exists_tarjan_eq_some (next : Nat → List Nat) (size : Nat) (hnext : ∀ v < size, ∀ w ∈ next v, w < size) :
    ∃ number count, tarjan next size = some { number, count } ∧ components next size = { number, count } ∧
      number.size = size ∧
      (∀ v < size, ∀ w < size, number.getD v 0 = number.getD w 0 ↔
        Reaches next size v w ∧ Reaches next size w v) ∧
      (∀ k, k < count ↔ ∃ v < size, number.getD v 0 = k) ∧
      ∀ v < size, ∀ w ∈ next v, number.getD w 0 ≤ number.getD v 0 := by
  obtain ⟨t, ht, hended⟩ := Tarjan.exists_ended hnext
  have htarjan : tarjan next size = some { number := t.number, count := t.count } := by rw [tarjan, ht, Option.map_some]
  refine ⟨t.number, t.count, htarjan, Option.some.inj ((tarjan_eq_components hnext).symm.trans htarjan),
    hended.sound.size_number, fun v hv w hw => hended.number_eq_iff hv hw, fun k => ⟨hended.exists_number, ?_⟩,
    fun v hv w hw => ?_⟩
  · rintro ⟨v, hv, rfl⟩
    exact hended.number_lt hv
  · exact hended.sound.numbers.number_le ((hended.settled_iff v).2 hv) ⟨hw, hnext v hv w hw⟩

/-- A vertex with an edge to itself leads to a circle of two, from which one more vertex is reached; the last vertex
comes too late for any of them. -/
def tributaries : Nat → List Nat
  | 0 => [0, 1]
  | 1 => [2]
  | 2 => [1, 3]
  | 4 => [3, 0]
  | _ => []

theorem exists_tarjan_eq_some_tributaries :
    (∀ v < 5, ∀ w ∈ tributaries v, w < 5) ∧
      tarjan tributaries 5 = some { number := #[2, 1, 1, 0, 3], count := 4 } := by
  have hnext : ∀ v < 5, ∀ w ∈ tributaries v, w < 5 := by decide
  obtain ⟨number, count, htarjan, hcomponents, -⟩ := exists_tarjan_eq_some tributaries 5 hnext
  refine ⟨hnext, ?_⟩
  rw [htarjan, ← hcomponents]
  cbv

end Transducer.Graph
