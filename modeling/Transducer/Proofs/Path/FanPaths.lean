import Mathlib
import Transducer.Proofs.Path.Fan

/-!
# The paths of a fan

The accepting paths of a fan correspond one-to-one to the paths that it was made from, with the same
labels and weights (`exists_equiv_fan`). A path without arcs is accepted at the start; any other takes the
arc of its own from there, and then the only arc of each state of its chain.
-/

namespace Transducer.Automaton

variable {W : Type} {a b : Automaton W}

/-! ### Chains -/

/-- The states from number `t` on are the given ones. -/
def StatesAt (b : Automaton W) (t : Nat) (states : List (State W)) : Prop :=
  ∀ i, i < states.length → b.states[t + i]? = states[i]?

namespace StatesAt

variable {t : Nat} {state : State W} {states others : List (State W)} {final : W} {arcs : List (Arc W)}

theorem head (h : b.StatesAt t (state :: states)) : b.states[t]? = some state := h 0 (Nat.zero_lt_succ _)

theorem tail (h : b.StatesAt t (state :: states)) : b.StatesAt (t + 1) states := by
  intro i hi
  have hnext := h (i + 1) (Nat.succ_lt_succ hi)
  rwa [List.getElem?_cons_succ, ← Nat.add_assoc, Nat.add_right_comm] at hnext

theorem left (h : b.StatesAt t (states ++ others)) : b.StatesAt t states := by
  intro i hi
  rw [h i (by rw [List.length_append]; omega), List.getElem?_append_left hi]

theorem right (h : b.StatesAt t (states ++ others)) : b.StatesAt (t + states.length) others := by
  intro i hi
  have hnext := h (states.length + i) (by rw [List.length_append]; omega)
  rwa [List.getElem?_append_right (Nat.le_add_right _ _), Nat.add_sub_cancel_left, ← Nat.add_assoc] at hnext

theorem arcsAt_eq (h : b.StatesAt t (state :: states)) : b.arcsAt t = state.arcs := by
  rw [arcsAt, h.head]

theorem final?_eq (h : b.StatesAt t (state :: states)) : b.final? t = state.final := by
  rw [final?, h.head, Option.bind_some]

/-- A chain leads to its end. -/
theorem exists_way (h : b.StatesAt t (chain final t arcs)) :
    ∃ arcs' u, b.Way t (List.replicate arcs.length 0) arcs' u ∧
      arcs'.map Arc.content = arcs.map Arc.content ∧ b.final? u = some final := by
  induction arcs generalizing t with
  | nil => exact ⟨[], t, .nil t, rfl, h.final?_eq⟩
  | cons arc arcs ih =>
    obtain ⟨arcs', u, hway, hcontent, hf⟩ := ih h.tail
    have hfirst : (b.arcsAt t)[0]? = some { arc with target := t + 1 } := by
      rw [h.arcsAt_eq]
      rfl
    exact ⟨_, u, .cons hfirst hway, congrArg (arc.content :: ·) hcontent, hf⟩

/-- A chain leads nowhere else. -/
theorem places_eq (h : b.StatesAt t (chain final t arcs)) {places : List Nat} {arcs' : List (Arc W)}
    {u : Nat} {w : W} (hway : b.Way t places arcs' u) (hf : b.final? u = some w) :
    places = List.replicate arcs.length 0 := by
  induction arcs generalizing t places arcs' with
  | nil =>
    cases hway with
    | nil => rfl
    | cons hi _ =>
      rw [h.arcsAt_eq] at hi
      simp at hi
  | cons arc arcs ih =>
    cases hway with
    | nil =>
      rw [h.final?_eq] at hf
      cases hf
    | @cons _ i _ arc' places arcs' hi hway =>
      rw [h.arcsAt_eq] at hi
      have hone : #[({ arc with target := t + 1 } : Arc W)][i]? = some arc' := hi
      obtain ⟨hlt, rfl⟩ := Array.getElem?_eq_some_iff.1 hone
      obtain rfl : i = 0 := Nat.lt_one_iff.1 hlt
      exact congrArg (0 :: ·) (ih h.tail hway)

end StatesAt

/-! ### Finding a path in a fan -/

/-- How many arcs leave the start for the paths before the one at `k`. -/
def branch (paths : List (AcceptingPath a)) (k : Nat) : Nat :=
  (paths.take k).countP fun p => !p.arcs.isEmpty

/-- How many states there are in the chains before that of the path at `k`. -/
def offset (paths : List (AcceptingPath a)) (k : Nat) : Nat := ((paths.take k).map (·.arcs.length)).sum

section

variable {p : AcceptingPath a} {paths : List (AcceptingPath a)} {k t : Nat} {arc : Arc W} {arcs : List (Arc W)}

theorem branch_lt {l : Nat} (hp : paths[k]? = some p) (harcs : p.arcs ≠ []) (hkl : k < l) :
    branch paths k < branch paths l := by
  have hnonempty : (!p.arcs.isEmpty) = true := by simpa using harcs
  have hnext : branch paths (k + 1) = branch paths k + 1 := by
    rw [branch, branch, List.take_add_one, hp, Option.toList_some, List.countP_append,
      List.countP_singleton, if_pos hnonempty]
  refine Nat.lt_of_lt_of_le (Nat.lt_of_lt_of_eq (Nat.lt_succ_self _) hnext.symm) ?_
  exact (List.take_sublist_take_left hkl).countP_le

theorem offset_cons (q : AcceptingPath a) (paths : List (AcceptingPath a)) (k : Nat) :
    offset (q :: paths) (k + 1) = q.arcs.length + offset paths k := by
  simp [offset]

/-- The first arc of a path is the one at its place among those of the start. -/
theorem getElem?_heads (hp : paths[k]? = some p) (harcs : p.arcs = arc :: arcs) :
    (heads t paths)[branch paths k]? = some { arc with target := t + offset paths k } := by
  induction paths generalizing t k with
  | nil => cases hp
  | cons q paths ih =>
    cases k with
    | zero =>
      obtain rfl : q = p := Option.some.inj hp
      simp [heads, harcs, branch, offset]
    | succ k =>
      have ih := ih (t := t + q.arcs.length) hp
      rw [offset_cons, ← Nat.add_assoc, ← ih]
      cases hq : q.arcs with
      | nil => simp [heads, hq, branch]
      | cons first rest => simp [heads, hq, branch]

/-- Each arc of the start is the first one of a path. -/
theorem exists_of_getElem?_heads {i : Nat} (hi : (heads t paths)[i]? = some arc) :
    ∃ k p, paths[k]? = some p ∧ p.arcs ≠ [] ∧ i = branch paths k := by
  induction paths generalizing t i with
  | nil => cases hi
  | cons q paths ih =>
    rw [heads] at hi
    cases hq : q.arcs with
    | nil =>
      rw [hq] at hi
      obtain ⟨k, p, hp, hne, rfl⟩ := ih hi
      exact ⟨k + 1, p, hp, hne, by simp [branch, hq]⟩
    | cons first rest =>
      rw [hq] at hi
      cases i with
      | zero => exact ⟨0, q, rfl, by simp [hq], rfl⟩
      | succ i =>
        obtain ⟨k, p, hp, hne, rfl⟩ := ih hi
        exact ⟨k + 1, p, hp, hne, by simp [branch, hq]⟩

/-- The chain of a path stands where its first arc leads. -/
theorem statesAt_chain (h : b.StatesAt t (blocks t paths)) (hp : paths[k]? = some p)
    (harcs : p.arcs = arc :: arcs) :
    b.StatesAt (t + offset paths k) (chain p.final (t + offset paths k) arcs) := by
  induction paths generalizing t k with
  | nil => cases hp
  | cons q paths ih =>
    cases k with
    | zero =>
      obtain rfl : q = p := Option.some.inj hp
      rw [blocks, harcs] at h
      exact h.left
    | succ k =>
      have hlength : (if q.arcs.isEmpty then [] else chain q.final t q.arcs.tail).length = q.arcs.length := by
        cases q.arcs <;> simp
      have hrest := h.right
      rw [hlength] at hrest
      rw [offset_cons, ← Nat.add_assoc]
      exact ih hrest hp

end

/-! ### The correspondence -/

variable {paths : List (AcceptingPath a)}

theorem start_fan (h : paths ≠ []) : (a.fan paths).start = some 0 := by
  rw [fan, if_neg (by simpa using h)]

theorem statesAt_fan (h : paths ≠ []) :
    (a.fan paths).StatesAt 0 ({ final := (paths.find? (·.arcs.isEmpty)).map (·.final),
                                arcs := (heads 1 paths).toArray } :: blocks 1 paths) := by
  intro i hi
  rw [fan, if_neg (by simpa using h), Nat.zero_add]
  exact List.getElem?_toArray

/-- The positions at which the path of a fan leaves the states that is made from the path at `k`. -/
def ribPlaces (paths : List (AcceptingPath a)) (k : Fin paths.length) : List Nat :=
  if paths[k].arcs.isEmpty then [] else branch paths k :: List.replicate paths[k].arcs.tail.length 0

theorem ribPlaces_inj (hnodup : paths.Nodup) {k l : Fin paths.length}
    (h : ribPlaces paths k = ribPlaces paths l) : k = l := by
  unfold ribPlaces at h
  split at h
  · next hk =>
    split at h
    · next hl =>
      have hnil : ∀ p : AcceptingPath a, p.arcs.isEmpty → p.places = [] := fun p hp =>
        List.length_eq_zero_iff.1 (p.way.length_eq.trans (List.length_eq_zero_iff.2 (List.isEmpty_iff.1 hp)))
      have heq : paths[k] = paths[l] := AcceptingPath.ext_places ((hnil _ hk).trans (hnil _ hl).symm)
      exact Fin.ext (hnodup.getElem_inj_iff.1 heq)
    · cases h
  · next hk =>
    split at h
    · cases h
    · next hl =>
      have hget : ∀ m : Fin paths.length, paths[(m : Nat)]? = some paths[m] := fun m =>
        List.getElem?_eq_getElem m.isLt
      have heq : branch paths k = branch paths l := (List.cons.inj h).1
      rcases lt_trichotomy (k : Nat) l with hlt | heq' | hlt
      · exact absurd heq (branch_lt (hget k) (by simpa using hk) hlt).ne
      · exact Fin.ext heq'
      · exact absurd heq (branch_lt (hget l) (by simpa using hl) hlt).ne'

theorem exists_ribPlaces (k : Fin paths.length) :
    ∃ q : AcceptingPath (a.fan paths), q.places = ribPlaces paths k ∧ q.content = paths[k].content := by
  have hne : paths ≠ [] := List.ne_nil_of_length_pos (Nat.zero_lt_of_lt k.isLt)
  have hk : paths[(k : Nat)]? = some paths[k] := List.getElem?_eq_getElem k.isLt
  have hstates := statesAt_fan hne
  unfold ribPlaces
  cases harcs : paths[k].arcs with
  | nil =>
    have hfinal : (a.fan paths).final? 0 = some paths[k].final := by
      rw [hstates.final?_eq]
      cases hr : paths.find? (·.arcs.isEmpty) with
      | none =>
        have hnone := List.find?_eq_none.1 hr paths[k] (List.getElem_mem _)
        exact absurd (List.isEmpty_iff.2 harcs) hnone
      | some r =>
        have hr := List.find?_some hr
        exact congrArg some (AcceptingPath.final_eq_of_nil (List.isEmpty_iff.1 hr) harcs)
    refine ⟨⟨0, [], [], 0, _, start_fan hne, .nil 0, hfinal⟩, rfl, ?_⟩
    rw [AcceptingPath.content, AcceptingPath.content, harcs]
  | cons arc arcs =>
    have hfirst : ((a.fan paths).arcsAt 0)[branch paths k]? =
        some { arc with target := 1 + offset paths k } := by
      rw [hstates.arcsAt_eq]
      exact List.getElem?_toArray.trans (getElem?_heads hk harcs)
    obtain ⟨arcs', u, hway, hcontent, hf⟩ := (statesAt_chain hstates.tail hk harcs).exists_way
    refine ⟨⟨0, _, _, u, _, start_fan hne, .cons hfirst hway, hf⟩, rfl, ?_⟩
    rw [AcceptingPath.content, AcceptingPath.content, harcs]
    exact congrArg (fun contents => (arc.content :: contents, paths[k].final)) hcontent

theorem places_mem_fan (q : AcceptingPath (a.fan paths)) : ∃ k, q.places = ribPlaces paths k := by
  have hne : paths ≠ [] := by
    rintro rfl
    exact absurd q.start_eq (by simp [fan])
  have hstates := statesAt_fan hne
  obtain ⟨s, places, arcs, u, final, hs, hway, hf⟩ := q
  obtain rfl : 0 = s := Option.some.inj ((start_fan hne).symm.trans hs)
  show ∃ k, places = ribPlaces paths k
  cases hway with
  | nil =>
    rw [hstates.final?_eq, Option.map_eq_some_iff] at hf
    obtain ⟨r, hr, -⟩ := hf
    obtain ⟨k, hk, rfl⟩ := List.getElem_of_mem (List.mem_of_find?_eq_some hr)
    have hempty := List.find?_some hr
    exact ⟨⟨k, hk⟩, (if_pos hempty).symm⟩
  | @cons _ i _ arc places arcs hi hway =>
    rw [hstates.arcsAt_eq] at hi
    replace hi := List.getElem?_toArray.symm.trans hi
    obtain ⟨k, p, hp, hnonempty, rfl⟩ := exists_of_getElem?_heads hi
    obtain ⟨hk, rfl⟩ := List.getElem?_eq_some_iff.1 hp
    refine ⟨⟨k, hk⟩, ?_⟩
    rw [ribPlaces, if_neg (by simpa using hnonempty)]
    obtain ⟨first, rest, harcs⟩ := List.exists_cons_of_ne_nil hnonempty
    obtain rfl := Option.some.inj ((getElem?_heads hp harcs).symm.trans hi)
    have hplaces := (statesAt_chain hstates.tail hp harcs).places_eq hway hf
    rw [hplaces]
    show _ = branch paths k :: List.replicate paths[k].arcs.tail.length 0
    rw [harcs, List.tail_cons]

/-- The accepting paths of a fan are the paths that it was made from. -/
theorem exists_equiv_fan (hnodup : paths.Nodup) :
    ∃ e : Fin paths.length ≃ AcceptingPath (a.fan paths), ∀ k, (e k).content = paths[k].content := by
  obtain ⟨e, he⟩ := exists_equiv_of_related
    (R := fun (k : Fin paths.length) (q : AcceptingPath (a.fan paths)) => q.places = ribPlaces paths k)
    (fun k => (exists_ribPlaces k).imp fun _ h => h.1) places_mem_fan
    (fun h h' => AcceptingPath.ext_places (h.trans h'.symm)) fun h h' => ribPlaces_inj hnodup (h.symm.trans h')
  refine ⟨e, fun k => ?_⟩
  obtain ⟨q, hplaces, hcontent⟩ := exists_ribPlaces k
  rw [AcceptingPath.ext_places ((he k).trans hplaces.symm), hcontent]

end Transducer.Automaton
