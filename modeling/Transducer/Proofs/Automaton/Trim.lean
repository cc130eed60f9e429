import Mathlib
import Transducer.Automaton.Reachability
import Transducer.Proofs.Graph.Search
import Transducer.Proofs.Path.Accepting

/-!
# Trimming keeps the accepting paths

`useful_iff` says which states are useful: those on a way from the start to a final state. `keep`
renumbers states and drops arcs, so it moves the positions of the arcs that stay; `exists_equiv_keep`
matches the accepting paths before and after, for any choice of states that misses none on such a path,
and `exists_equiv_trim` is the case of trimming.
-/

namespace Transducer

/-! ### Positions in a filtered list -/

section Positions

variable {α : Type*} {p : α → Bool} {l : List α} {i j k : Nat} {x y : α}

/-- An entry that a filter keeps stands after those that it keeps of the entries before. -/
theorem getElem?_filter_countP (h : l[i]? = some x) (hx : p x = true) :
    (l.filter p)[(l.take i).countP p]? = some x := by
  induction l generalizing i with
  | nil => simp at h
  | cons y l ih =>
    cases i with
    | zero =>
      obtain rfl : y = x := by simpa using h
      simp [hx]
    | succ i =>
      have := ih (i := i) (by simpa using h)
      by_cases hy : p y = true
      · simpa [hy] using this
      · simpa [hy] using this

/-- Every entry of a filtered list comes from a position before. -/
theorem exists_getElem?_of_filter (h : (l.filter p)[k]? = some x) :
    ∃ i, l[i]? = some x ∧ p x = true ∧ k = (l.take i).countP p := by
  induction l generalizing k with
  | nil => simp at h
  | cons y l ih =>
    by_cases hy : p y = true
    · rw [List.filter_cons_of_pos hy] at h
      cases k with
      | zero =>
        obtain rfl : y = x := by simpa using h
        exact ⟨0, rfl, hy, rfl⟩
      | succ k =>
        obtain ⟨i, hi, hx, rfl⟩ := ih (k := k) (by simpa using h)
        exact ⟨i + 1, by simpa using hi, hx, by simp [hy]⟩
    · rw [List.filter_cons_of_neg hy] at h
      obtain ⟨i, hi, hx, rfl⟩ := ih h
      exact ⟨i + 1, by simpa using hi, hx, by simp [hy]⟩

theorem countP_take_lt (hij : i < j) (h : l[i]? = some x) (hx : p x = true) :
    (l.take i).countP p < (l.take j).countP p := by
  induction l generalizing i j with
  | nil => simp at h
  | cons y l ih =>
    cases j with
    | zero => omega
    | succ j =>
      cases i with
      | zero =>
        obtain rfl : y = x := by simpa using h
        simp [hx]
      | succ i =>
        have := ih (i := i) (j := j) (by omega) (by simpa using h)
        simp only [List.take_succ_cons, List.countP_cons]
        omega

/-- Two entries that a filter keeps do not get into one position. -/
theorem countP_take_inj (h : (l.take i).countP p = (l.take j).countP p) (hi : l[i]? = some x)
    (hx : p x = true) (hj : l[j]? = some y) (hy : p y = true) : i = j := by
  rcases Nat.lt_trichotomy i j with hij | hij | hij
  · have := countP_take_lt hij hi hx
    omega
  · exact hij
  · have := countP_take_lt hij hj hy
    omega

end Positions

namespace Automaton

open Transducer.Graph Relation

variable {W : Type} {a : Automaton W} {s t : Nat}

/-! ### Useful states -/

theorem edge_successors : Edge a.successors a.size s t ↔ ∃ arc ∈ a.arcsAt s, arc.target = t ∧ t < a.size := by
  simp only [Edge, successors, List.mem_filter, List.mem_map, Array.mem_toList_iff, decide_eq_true_eq]
  constructor
  · rintro ⟨⟨⟨arc, harc, rfl⟩, -⟩, hlt⟩
    exact ⟨arc, harc, rfl, hlt⟩
  · rintro ⟨arc, harc, rfl, hlt⟩
    exact ⟨⟨⟨arc, harc, rfl⟩, hlt⟩, hlt⟩

/-- A state reaches another one that exists in the graph of the arcs if there is a way. -/
theorem Way.reaches {places : List Nat} {arcs : List (Arc W)} (h : a.Way s places arcs t) (ht : t < a.size) :
    Reaches a.successors a.size s t := by
  induction h with
  | nil s => exact .refl
  | cons hi h ih =>
    exact .head (edge_successors.2 ⟨_, Array.mem_of_getElem? hi, rfl, h.lt_size_of_last ht⟩) (ih ht)

theorem accessible_iff :
    a.accessible.getD s false = true ↔
      ∃ r, a.start = some r ∧ r < a.size ∧ Reaches a.successors a.size r s := by
  simp only [accessible, reachable_iff, Option.mem_toList]

theorem mem_finalStates : s ∈ a.finalStates ↔ s < a.size ∧ (a.final? s).isSome = true := by
  simp [finalStates]

theorem coaccessible_iff :
    a.coaccessible.getD s false = true ↔
      s < a.size ∧ ∃ t, (a.final? t).isSome = true ∧ Reaches a.successors a.size s t := by
  simp only [coaccessible, reachable_iff, mem_finalStates]
  constructor
  · rintro ⟨t, ⟨hlt, hf⟩, -, hr⟩
    obtain ⟨hs, hr⟩ := (reaches_reverse hlt).1 hr
    exact ⟨hs, t, hf, hr⟩
  · rintro ⟨hs, t, hf, hr⟩
    have hlt := hr.lt_size hs
    exact ⟨t, ⟨hlt, hf⟩, hlt, (reaches_reverse hlt).2 ⟨hs, hr⟩⟩

/-- The useful states are those on a way from the start to a final state. -/
theorem useful_iff :
    a.useful.getD s false = true ↔
      (∃ r, a.start = some r ∧ r < a.size ∧ Reaches a.successors a.size r s) ∧
        ∃ t, (a.final? t).isSome = true ∧ Reaches a.successors a.size s t := by
  have hand : a.useful.getD s false = (a.accessible.getD s false && a.coaccessible.getD s false) := by
    simp only [useful, Array.getD_eq_getD_getElem?, Array.getElem?_zipWith]
    cases h : a.accessible[s]? <;> cases h' : a.coaccessible[s]? <;> simp
  rw [hand, Bool.and_eq_true, accessible_iff, coaccessible_iff]
  constructor
  · rintro ⟨hr, -, ht⟩
    exact ⟨hr, ht⟩
  · rintro ⟨⟨r, hr, hlt, hrs⟩, ht⟩
    exact ⟨⟨r, hr, hlt, hrs⟩, hrs.lt_size hlt, ht⟩

/-! ### The states that are kept -/

section Keep

variable {kept : Nat → Bool}

/-- The arc with the number that its target gets. -/
def rankTarget (kept : Nat → Bool) (arc : Arc W) : Arc W := { arc with target := rank kept arc.target }

@[simp] theorem content_rankTarget (arc : Arc W) : (rankTarget kept arc).content = arc.content := rfl

/-- The number of kept states before a position is the rank of the state there. -/
theorem countP_take_zipIdx {l : List (State W)} (hs : s ≤ l.length) :
    (l.zipIdx.take s).countP (fun entry => kept entry.2) = rank kept s := by
  have hsnd : (l.zipIdx.take s).map (·.2) = List.range s :=
    List.ext_getElem (by simp [hs]) (by simp)
  rw [rank, ← hsnd, List.countP_map]
  rfl

/-- A kept state is found under its rank. -/
theorem getElem?_keep {state : State W} (h : a.states[s]? = some state) (hs : kept s = true) :
    (a.keep kept).states[rank kept s]? = some (keepArcs kept a.size state) := by
  have hentry : a.states.toList.zipIdx[s]? = some (state, s) := by
    simp [List.getElem?_zipIdx, h]
  have hlt : s < a.states.toList.length := (Array.getElem?_eq_some_iff.1 h).1
  have hfound := getElem?_filter_countP (p := fun entry => kept entry.2) hentry hs
  rw [countP_take_zipIdx hlt.le] at hfound
  rw [keep, Array.getElem?_map, ← Array.getElem?_toList, Array.toList_filter, Array.toList_zipIdx,
    hfound]
  rfl

/-- Every state that is left is a kept one, under its rank. -/
theorem exists_of_getElem?_keep {x : Nat} {state : State W} (h : (a.keep kept).states[x]? = some state) :
    ∃ s old, a.states[s]? = some old ∧ kept s = true ∧ x = rank kept s ∧
      state = keepArcs kept a.size old := by
  rw [keep, Array.getElem?_map, ← Array.getElem?_toList, Array.toList_filter, Array.toList_zipIdx,
    Option.map_eq_some_iff] at h
  obtain ⟨⟨old, s⟩, hentry, rfl⟩ := h
  obtain ⟨i, hi, hkept, rfl⟩ := exists_getElem?_of_filter hentry
  obtain ⟨hold, rfl⟩ : a.states[i]? = some old ∧ i = s := by
    simpa [List.getElem?_zipIdx, and_comm] using hi
  have hlt : i < a.states.toList.length := (Array.getElem?_eq_some_iff.1 hold).1
  exact ⟨i, old, hold, hkept, countP_take_zipIdx hlt.le, rfl⟩

theorem final?_keep (hlt : s < a.size) (hs : kept s = true) :
    (a.keep kept).final? (rank kept s) = a.final? s := by
  have h : a.states[s]? = some a.states[s] := Array.getElem?_eq_getElem hlt
  rw [final?, final?, getElem?_keep h hs, h]
  rfl

/-- The arcs of a kept state are those into kept states. -/
theorem arcsAt_keep (hlt : s < a.size) (hs : kept s = true) :
    ((a.keep kept).arcsAt (rank kept s)).toList =
      ((a.arcsAt s).toList.filter fun arc => arc.target < a.size && kept arc.target).map
        (rankTarget kept) := by
  have h : a.states[s]? = some a.states[s] := Array.getElem?_eq_getElem hlt
  rw [arcsAt, arcsAt, getElem?_keep h hs, h]
  simp only [keepArcs, Array.toList_map, Array.toList_filter]
  rfl

/-- Whether an arc stays. -/
def staysAt (kept : Nat → Bool) (size : Nat) (arc : Arc W) : Bool := arc.target < size && kept arc.target

/-- The positions of a way after the arcs into other states are gone. -/
def keptPlaces (a : Automaton W) (kept : Nat → Bool) : Nat → List Nat → List Nat
  | _, [] => []
  | s, i :: places =>
    match (a.arcsAt s)[i]? with
    | none => []
    | some arc =>
      ((a.arcsAt s).toList.take i).countP (staysAt kept a.size) :: a.keptPlaces kept arc.target places

theorem keptPlaces_cons {i : Nat} {arc : Arc W} (h : (a.arcsAt s)[i]? = some arc) (places : List Nat) :
    a.keptPlaces kept s (i :: places) =
      ((a.arcsAt s).toList.take i).countP (staysAt kept a.size) :: a.keptPlaces kept arc.target places := by
  rw [keptPlaces, h]

/-- A way through kept states leads through their ranks. -/
theorem Way.keep {places : List Nat} {arcs : List (Arc W)} (h : a.Way s places arcs t)
    (hs : kept s = true) (hk : ∀ arc ∈ arcs, staysAt kept a.size arc = true) :
    (a.keep kept).Way (rank kept s) (a.keptPlaces kept s places) (arcs.map (rankTarget kept))
      (rank kept t) := by
  induction h with
  | nil s => exact .nil _
  | @cons s i t arc places arcs hi _ ih =>
    have hstays := hk arc List.mem_cons_self
    have hfound := getElem?_filter_countP (p := staysAt kept a.size)
      (by rwa [Array.getElem?_toList]) hstays
    rw [keptPlaces_cons hi]
    refine Way.cons (?_ : _ = some (rankTarget kept arc))
      (ih ?_ fun arc h => hk arc (List.mem_cons_of_mem _ h))
    · rw [← Array.getElem?_toList, arcsAt_keep (lt_size_of_mem (Array.mem_of_getElem? hi)) hs,
        List.getElem?_map]
      exact congrArg (Option.map (rankTarget kept)) hfound
    · exact (Bool.and_eq_true_iff.1 hstays).2

/-- Every way between ranks comes from a way between kept states. -/
theorem Way.of_keep {x y : Nat} {places : List Nat} {arcs : List (Arc W)}
    (h : (a.keep kept).Way x places arcs y) (hx : x = rank kept s) (hlt : s < a.size)
    (hs : kept s = true) :
    ∃ t old oldArcs, a.Way s old oldArcs t ∧ t < a.size ∧ kept t = true ∧ y = rank kept t ∧
      places = a.keptPlaces kept s old ∧ arcs = oldArcs.map (rankTarget kept) := by
  induction h generalizing s with
  | nil x => exact ⟨s, [], [], .nil s, hlt, hs, hx, rfl, rfl⟩
  | @cons x k y arc places arcs hi _ ih =>
    subst hx
    rw [← Array.getElem?_toList, arcsAt_keep hlt hs, List.getElem?_map, Option.map_eq_some_iff] at hi
    obtain ⟨old, hold, rfl⟩ := hi
    obtain ⟨i, hi, hstays, rfl⟩ := exists_getElem?_of_filter hold
    obtain ⟨htlt, htk⟩ : old.target < a.size ∧ kept old.target = true := by
      simpa using hstays
    rw [Array.getElem?_toList] at hi
    obtain ⟨t, olds, oldArcs, hw, hlt', hk', rfl, rfl, rfl⟩ := ih (s := old.target) rfl htlt htk
    exact ⟨t, i :: olds, old :: oldArcs, .cons hi hw, hlt', hk', rfl,
      by rw [keptPlaces_cons hi]; rfl, rfl⟩

/-- Two ways through kept states do not get the same positions. -/
theorem keptPlaces_inj {places places' : List Nat} {arcs arcs' : List (Arc W)} {t' : Nat}
    (h : a.Way s places arcs t) (h' : a.Way s places' arcs' t')
    (hk : ∀ arc ∈ arcs, staysAt kept a.size arc = true)
    (hk' : ∀ arc ∈ arcs', staysAt kept a.size arc = true)
    (heq : a.keptPlaces kept s places = a.keptPlaces kept s places') : places = places' := by
  induction h generalizing places' arcs' with
  | nil s =>
    cases h' with
    | nil => rfl
    | cons hi' _ => rw [keptPlaces_cons hi'] at heq; cases heq
  | cons hi _ ih =>
    cases h' with
    | nil => rw [keptPlaces_cons hi] at heq; cases heq
    | cons hi' h' =>
      rw [keptPlaces_cons hi, keptPlaces_cons hi'] at heq
      obtain ⟨hcount, hrest⟩ := List.cons.inj heq
      obtain rfl := countP_take_inj hcount (by rwa [Array.getElem?_toList]) (hk _ List.mem_cons_self)
        (by rwa [Array.getElem?_toList]) (hk' _ List.mem_cons_self)
      obtain rfl := Option.some.inj (hi.symm.trans hi')
      rw [ih h' (fun arc h => hk arc (List.mem_cons_of_mem _ h))
        (fun arc h => hk' arc (List.mem_cons_of_mem _ h)) hrest]

/-- Keeping some states matches the accepting paths before and after, if it keeps all states that are on
one. -/
theorem exists_equiv_keep (hstart : ∀ {r : Nat}, a.start = some r → r < a.size)
    (hk : ∀ p : AcceptingPath a, kept p.first = true ∧ ∀ arc ∈ p.arcs, kept arc.target = true) :
    ∃ e : AcceptingPath a ≃ AcceptingPath (a.keep kept), ∀ p, (e p).content = p.content := by
  have hstays : ∀ p : AcceptingPath a, ∀ arc ∈ p.arcs, staysAt kept a.size arc = true := by
    intro p arc harc
    obtain ⟨-, after, -, hafter⟩ := p.way.split_at harc
    simp [staysAt, (hk p).2 arc harc, hafter.lt_size_of_last (lt_size_of_final? p.final_eq)]
  refine (exists_equiv_of_related
    (R := fun (p : AcceptingPath a) (q : AcceptingPath (a.keep kept)) =>
      q.places = a.keptPlaces kept p.first p.places ∧ q.content = p.content)
    (fun p => ?_) (fun q => ?_) (fun {p q q'} h h' => ?_) (fun {p p' q} h h' => ?_)).imp
    fun e he p => (he p).2
  · have hlast := lt_size_of_final? p.final_eq
    have hkept : kept p.last = true := p.way.last_of_forall (P := fun s => kept s = true) (hk p).1 (hk p).2
    refine ⟨⟨rank kept p.first, _, _, rank kept p.last, p.final, ?_, p.way.keep (hk p).1 (hstays p), ?_⟩,
      rfl, ?_⟩
    · simp [Automaton.keep, p.start_eq, (hk p).1]
    · rw [final?_keep hlast hkept, p.final_eq]
    · simp [AcceptingPath.content, Function.comp_def]
  · have hfirst : (a.start.filter kept).map (rank kept) = some q.first := q.start_eq
    obtain ⟨r, hr, hq⟩ := Option.map_eq_some_iff.1 hfirst
    obtain ⟨hr, hkept⟩ := Option.filter_eq_some_iff.1 hr
    obtain ⟨t, places, arcs, hw, hlt, ht, hlast, hplaces, harcs⟩ := q.way.of_keep hq.symm (hstart hr) hkept
    refine ⟨⟨r, places, arcs, t, q.final, hr, hw, ?_⟩, hplaces, ?_⟩
    · rw [← final?_keep hlt ht, ← hlast, q.final_eq]
    · simp [AcceptingPath.content, harcs, Function.comp_def]
  · exact AcceptingPath.ext_places (h.1.trans h'.1.symm)
  · obtain ⟨s, places, arcs, t, final, hs, hw, hf⟩ := p
    obtain ⟨s', places', arcs', t', final', hs', hw', hf'⟩ := p'
    obtain rfl := Option.some.inj (hs.symm.trans hs')
    exact AcceptingPath.ext_places (keptPlaces_inj hw hw' (hstays ⟨s, places, arcs, t, final, hs, hw, hf⟩)
      (hstays ⟨s, places', arcs', t', final', hs', hw', hf'⟩) (h.1.symm.trans h'.1))

end Keep

/-- Trimming matches the accepting paths before and after. -/
theorem exists_equiv_trim (hstart : ∀ {r : Nat}, a.start = some r → r < a.size) :
    ∃ e : AcceptingPath a ≃ AcceptingPath a.trim, ∀ p, (e p).content = p.content := by
  have htrim : a.trim = a ∨ a.trim = a.keep fun s => a.useful.getD s false := by
    unfold trim
    dsimp only
    split
    · exact .inl rfl
    · exact .inr rfl
  rcases htrim with htrim | htrim <;> rw [htrim]
  · exact ⟨.refl _, fun _ => rfl⟩
  · refine exists_equiv_keep hstart fun p => ?_
    have hfirst := hstart p.start_eq
    have hlast := lt_size_of_final? p.final_eq
    have hfinal : (a.final? p.last).isSome = true := by rw [p.final_eq]; rfl
    constructor
    · exact useful_iff.2 ⟨⟨_, p.start_eq, hfirst, .refl⟩, _, hfinal, p.way.reaches hlast⟩
    · intro arc harc
      obtain ⟨before, after, hb, ha⟩ := p.way.split_at harc
      have htarget := ha.lt_size_of_last hlast
      exact useful_iff.2 ⟨⟨_, p.start_eq, hfirst, hb.reaches htarget⟩, _, hfinal, ha.reaches hlast⟩

end Automaton

end Transducer
