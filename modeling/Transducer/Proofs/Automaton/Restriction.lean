import Mathlib
import Transducer.Proofs.Automaton.Edit
import Transducer.Proofs.Automaton.Renumbering
import Transducer.Weight.Tropical

/-!
# Restriction to some of the states

`Restricts` says what is left of an automaton if only the states of a list are kept: each of them is numbered by its
place in the list, and of its arcs and of the start those into the list stay. That leaves no choice
(`Restricts.unique`), and a restriction of a restriction is one (`Restricts.trans`).

`keep` restricts an automaton to the states that it picks, in their old order (`restricts_keep`). Hence only the set
of the deleted states counts, and what is deleted in two steps can be deleted at once
(`exists_restricts_deleteStates`).
-/

namespace Transducer

/-! ### Places in a list -/

section Places

variable {n r s : Nat} {kept : Nat → Bool}

/-- The numbers below `n` that are kept, in ascending order. -/
def keptStates (kept : Nat → Bool) (n : Nat) : List Nat := (List.range n).filter kept

theorem mem_keptStates : s ∈ keptStates kept n ↔ s < n ∧ kept s = true := by
  rw [keptStates, List.mem_filter, List.mem_range]

theorem pairwise_keptStates (kept : Nat → Bool) (n : Nat) : (keptStates kept n).Pairwise (· < ·) :=
  List.pairwise_lt_range.filter kept

theorem nodup_keptStates (kept : Nat → Bool) (n : Nat) : (keptStates kept n).Nodup := List.nodup_range.filter kept

theorem length_keptStates (kept : Nat → Bool) (n : Nat) : (keptStates kept n).length = Automaton.rank kept n :=
  List.countP_eq_length_filter.symm

/-- The entries of a list at some places. -/
def entriesAt (l places : List Nat) : List Nat := places.map (l.getD · 0)

/-- What is picked from a list by its places is picked by its entries. -/
theorem entriesAt_filter_range {l : List Nat} (hnodup : l.Nodup) (p : Nat → Bool) :
    entriesAt l ((List.range l.length).filter p) = l.filter fun s => p (l.idxOf s) := by
  have hself : (List.range l.length).map (l.getD · 0) = l :=
    List.ext_getElem (by simp) fun i _ hi => by simp [hi]
  have hplace : ∀ r ∈ List.range l.length, p r = p (l.idxOf (l.getD r 0)) := by
    intro r hr
    have hlt := List.mem_range.1 hr
    rw [List.getD_eq_getElem _ _ hlt, hnodup.idxOf_getElem]
  rw [entriesAt, List.filter_congr hplace]
  conv_rhs => rw [← hself]
  rw [List.filter_map]
  simp only [hself, Function.comp_def]

/-- A kept number stands where its rank says. -/
theorem getElem?_keptStates (hlt : s < n) (hs : kept s = true) :
    (keptStates kept n)[Automaton.rank kept s]? = some s := by
  have hfound := getElem?_filter_countP (p := kept) (List.getElem?_range hlt) hs
  rwa [List.take_range, Nat.min_eq_left hlt.le] at hfound

theorem idxOf_keptStates (hlt : s < n) (hs : kept s = true) :
    (keptStates kept n).idxOf s = Automaton.rank kept s := by
  obtain ⟨hr, hget⟩ := List.getElem?_eq_some_iff.1 (getElem?_keptStates hlt hs)
  conv_lhs => rw [← hget]
  exact (nodup_keptStates kept n).idxOf_getElem _ hr

/-- What is kept of the numbers that are kept. -/
theorem entriesAt_keptStates (kept kept' : Nat → Bool) (n : Nat) :
    entriesAt (keptStates kept n) (keptStates kept' (keptStates kept n).length) =
      keptStates (fun s => kept s && kept' (Automaton.rank kept s)) n := by
  calc entriesAt (keptStates kept n) (keptStates kept' (keptStates kept n).length)
      = (keptStates kept n).filter fun s => kept' ((keptStates kept n).idxOf s) :=
        entriesAt_filter_range (nodup_keptStates kept n) kept'
    _ = (List.range n).filter fun s => kept' ((keptStates kept n).idxOf s) && kept s := List.filter_filter
    _ = keptStates (fun s => kept s && kept' (Automaton.rank kept s)) n := List.filter_congr fun s hs => by
        cases hkept : kept s with
        | false => rw [Bool.and_false, Bool.false_and]
        | true => rw [idxOf_keptStates (List.mem_range.1 hs) hkept, Bool.and_true, Bool.true_and]

end Places

namespace Automaton

variable {W : Type} {a b c : Automaton W} {states others : List Nat} {kept kept' : Nat → Bool} {r s : Nat}

/-! ### Restrictions -/

/-- The arcs into states of a list, led to the places of these. -/
def arcsInto (states : List Nat) (arcs : List (Arc W)) : List (Arc W) :=
  (arcs.filter fun arc => arc.target ∈ states).map fun arc => { arc with target := states.idxOf arc.target }

/-- The automaton `b` is what is left of `a` if the states of a list are kept, numbered by their places there. -/
structure Restricts (b a : Automaton W) (states : List Nat) : Prop where
  /-- No state is kept twice. -/
  nodup : states.Nodup
  /-- The states that are kept exist. -/
  lt_size : ∀ s ∈ states, s < a.size
  /-- There are no other states. -/
  size_eq : b.size = states.length
  /-- Final weights stay. -/
  final?_eq : ∀ {r s : Nat}, states[r]? = some s → b.final? r = a.final? s
  /-- The arcs into states that are kept stay, in their order. -/
  arcs_eq : ∀ {r s : Nat}, states[r]? = some s → (b.arcsAt r).toList = arcsInto states (a.arcsAt s).toList
  /-- The start stays if it is kept. -/
  start_eq : b.start = (a.start.filter (· ∈ states)).map states.idxOf

/-- States are the same if they are final with the same weight and have the same arcs. -/
theorem states_ext (hsize : b.size = c.size) (hfinal : ∀ r < b.size, b.final? r = c.final? r)
    (harcs : ∀ r < b.size, (b.arcsAt r).toList = (c.arcsAt r).toList) : b.states = c.states := by
  refine Array.ext hsize fun r hb hc => ?_
  have hfinal := hfinal r hb
  have harcs := harcs r hb
  rw [final?, final?, Array.getElem?_eq_getElem hb, Array.getElem?_eq_getElem hc] at hfinal
  rw [arcsAt, arcsAt, Array.getElem?_eq_getElem hb, Array.getElem?_eq_getElem hc] at harcs
  have hstate : ∀ {x y : State W}, x.final = y.final → x.arcs = y.arcs → x = y := by
    rintro ⟨_, _⟩ ⟨_, _⟩ rfl rfl
    rfl
  exact hstate hfinal (Array.toList_inj.1 harcs)

namespace Restricts

/-- There is one restriction only. -/
theorem unique (hb : b.Restricts a states) (hc : c.Restricts a states) :
    b.states = c.states ∧ b.start = c.start := by
  have hget : ∀ r < b.size, states[r]? = some (states.getD r 0) := by
    intro r hr
    rw [hb.size_eq] at hr
    rw [List.getElem?_eq_getElem hr, List.getD_eq_getElem _ _ hr]
  refine ⟨states_ext (hb.size_eq.trans hc.size_eq.symm) (fun r hr => ?_) fun r hr => ?_,
    hb.start_eq.trans hc.start_eq.symm⟩
  · rw [hb.final?_eq (hget r hr), hc.final?_eq (hget r hr)]
  · rw [hb.arcs_eq (hget r hr), hc.arcs_eq (hget r hr)]

/-- To keep all states changes nothing. -/
theorem refl (hstart : ∀ {s : Nat}, a.start = some s → s < a.size)
    (htarget : ∀ {s : Nat}, ∀ arc ∈ a.arcsAt s, arc.target < a.size) : a.Restricts a (List.range a.size) := by
  have hplace : ∀ {r s : Nat}, (List.range a.size)[r]? = some s → r = s := by
    intro r s h
    obtain ⟨-, rfl⟩ := List.getElem?_eq_some_iff.1 h
    exact (List.getElem_range _).symm
  have hidx : ∀ {s : Nat}, s < a.size → (List.range a.size).idxOf s = s := by
    intro s hs
    have h := List.nodup_range.idxOf_getElem s ((List.length_range).symm ▸ hs : s < (List.range a.size).length)
    rwa [List.getElem_range] at h
  refine ⟨List.nodup_range, fun s => List.mem_range.1, List.length_range.symm, ?_, ?_, ?_⟩
  · intro r s h
    rw [hplace h]
  · intro r s h
    have hlt : ∀ arc ∈ (a.arcsAt s).toList, arc.target < a.size := fun arc harc =>
      htarget arc (Array.mem_toList_iff.1 harc)
    have hall : (a.arcsAt s).toList.filter (fun arc => arc.target ∈ List.range a.size) = (a.arcsAt s).toList :=
      List.filter_eq_self.2 fun arc harc => by simpa using hlt arc harc
    have hsame : ∀ arc ∈ (a.arcsAt s).toList,
        ({ arc with target := (List.range a.size).idxOf arc.target } : Arc W) = id arc := fun arc harc => by
      rw [hidx (hlt arc harc)]
      rfl
    rw [hplace h, arcsInto, hall, List.map_congr_left hsame, List.map_id]
  · cases h : a.start with
    | none => rfl
    | some s =>
      have hs := hstart h
      rw [Option.filter_some, if_pos (by simpa using hs), Option.map_some, hidx hs]

/-- The places of the states that are kept of the kept ones. -/
theorem getElem?_entriesAt (hb : b.Restricts a states) (hc : c.Restricts b others)
    (h : (entriesAt states others)[r]? = some s) : ∃ t, others[r]? = some t ∧ states[t]? = some s := by
  rw [entriesAt, List.getElem?_map, Option.map_eq_some_iff] at h
  obtain ⟨t, ht, rfl⟩ := h
  have hlt : t < states.length := hb.size_eq ▸ hc.lt_size t (List.mem_of_getElem? ht)
  exact ⟨t, ht, by rw [List.getElem?_eq_getElem hlt, List.getD_eq_getElem _ _ hlt]⟩

/-- A state is kept in two steps if it is kept in the first and its number is kept in the second. -/
theorem mem_entriesAt (hb : b.Restricts a states) (hc : c.Restricts b others) :
    s ∈ entriesAt states others ↔ s ∈ states ∧ states.idxOf s ∈ others := by
  rw [entriesAt, List.mem_map]
  constructor
  · rintro ⟨r, hr, rfl⟩
    have hlt : r < states.length := hb.size_eq ▸ hc.lt_size r hr
    rw [List.getD_eq_getElem _ _ hlt, hb.nodup.idxOf_getElem]
    exact ⟨List.getElem_mem hlt, hr⟩
  · rintro ⟨hs, hr⟩
    have hlt := List.idxOf_lt_length_of_mem hs
    exact ⟨_, hr, by rw [List.getD_eq_getElem _ _ hlt, List.getElem_idxOf]⟩

theorem nodup_entriesAt (hb : b.Restricts a states) (hc : c.Restricts b others) :
    (entriesAt states others).Nodup := by
  refine hc.nodup.map_on fun r hr t ht heq => ?_
  have hr := hb.size_eq ▸ hc.lt_size r hr
  have ht := hb.size_eq ▸ hc.lt_size t ht
  rw [List.getD_eq_getElem _ _ hr, List.getD_eq_getElem _ _ ht] at heq
  exact hb.nodup.getElem_inj_iff.1 heq

/-- The place of a state after two steps is that of its number after the first one. -/
theorem idxOf_entriesAt (hb : b.Restricts a states) (hc : c.Restricts b others) (hs : s ∈ states)
    (hr : states.idxOf s ∈ others) :
    (entriesAt states others).idxOf s = others.idxOf (states.idxOf s) := by
  have hplace := List.idxOf_lt_length_of_mem hr
  have hget : (entriesAt states others)[others.idxOf (states.idxOf s)]? = some s := by
    rw [entriesAt, List.getElem?_map, List.getElem?_eq_getElem hplace, List.getElem_idxOf, Option.map_some,
      List.getD_eq_getElem _ _ (List.idxOf_lt_length_of_mem hs), List.getElem_idxOf]
  obtain ⟨hlt, hget⟩ := List.getElem?_eq_some_iff.1 hget
  conv_lhs => rw [← hget]
  exact (nodup_entriesAt hb hc).idxOf_getElem _ hlt

theorem arcsInto_arcsInto (hb : b.Restricts a states) (hc : c.Restricts b others) (arcs : List (Arc W)) :
    arcsInto others (arcsInto states arcs) = arcsInto (entriesAt states others) arcs := by
  have hstays : ∀ arc ∈ arcs, (decide (states.idxOf arc.target ∈ others) && decide (arc.target ∈ states)) =
      decide (arc.target ∈ entriesAt states others) := by
    intro arc _
    rw [← Bool.decide_and, decide_eq_decide, mem_entriesAt hb hc, and_comm]
  rw [arcsInto, arcsInto, List.filter_map, List.map_map, List.filter_filter, arcsInto]
  refine (congrArg _ (List.filter_congr hstays)).trans (List.map_congr_left fun arc harc => ?_)
  obtain ⟨hs, hr⟩ := (mem_entriesAt hb hc).1 (of_decide_eq_true (List.mem_filter.1 harc).2)
  rw [idxOf_entriesAt hb hc hs hr]
  rfl

/-- A restriction of a restriction is one. -/
theorem trans (hb : b.Restricts a states) (hc : c.Restricts b others) :
    c.Restricts a (entriesAt states others) where
  nodup := nodup_entriesAt hb hc
  lt_size s hs := hb.lt_size s ((mem_entriesAt hb hc).1 hs).1
  size_eq := hc.size_eq.trans (List.length_map _).symm
  final?_eq h := by
    obtain ⟨t, ht, hs⟩ := getElem?_entriesAt hb hc h
    rw [hc.final?_eq ht, hb.final?_eq hs]
  arcs_eq h := by
    obtain ⟨t, ht, hs⟩ := getElem?_entriesAt hb hc h
    rw [hc.arcs_eq ht, hb.arcs_eq hs, arcsInto_arcsInto hb hc]
  start_eq := by
    rw [hc.start_eq, hb.start_eq]
    cases a.start with
    | none => rfl
    | some s =>
      by_cases hs : s ∈ states
      · by_cases hr : states.idxOf s ∈ others
        · simp [Option.filter, hs, hr, (mem_entriesAt hb hc).2 ⟨hs, hr⟩, idxOf_entriesAt hb hc hs hr]
        · simp [Option.filter, hs, hr, mt (mem_entriesAt hb hc).1 fun h => hr h.2]
      · simp [Option.filter, hs, mt (mem_entriesAt hb hc).1 fun h => hs h.1]

end Restricts

/-! ### Keeping -/

/-- To keep states restricts an automaton to them. -/
theorem restricts_keep (hstart : ∀ {s : Nat}, a.start = some s → s < a.size) (kept : Nat → Bool) :
    (a.keep kept).Restricts a (keptStates kept a.size) := by
  have hplace : ∀ {r s : Nat}, (keptStates kept a.size)[r]? = some s →
      s < a.size ∧ kept s = true ∧ r = rank kept s := by
    intro r s h
    obtain ⟨hr, hget⟩ := List.getElem?_eq_some_iff.1 h
    obtain ⟨hlt, hs⟩ := mem_keptStates.1 (List.mem_of_getElem? h)
    refine ⟨hlt, hs, ?_⟩
    rw [← idxOf_keptStates hlt hs, ← hget, (nodup_keptStates kept a.size).idxOf_getElem]
  refine ⟨nodup_keptStates kept a.size, fun s hs => (mem_keptStates.1 hs).1, ?_, ?_, ?_, ?_⟩
  · rw [length_keptStates, ← countP_take_zipIdx (l := a.states.toList) (s := a.size) le_rfl, size, keep,
      Array.size_map, ← Array.length_toList, Array.toList_filter, Array.toList_zipIdx, List.countP_eq_length_filter,
      List.take_of_length_le (by simp [size])]
  · intro r s h
    obtain ⟨hlt, hs, rfl⟩ := hplace h
    exact final?_keep hlt hs
  · intro r s h
    obtain ⟨hlt, hs, rfl⟩ := hplace h
    rw [arcsAt_keep hlt hs, arcsInto]
    have hstays : ∀ arc ∈ (a.arcsAt s).toList, (decide (arc.target < a.size) && kept arc.target) =
        decide (arc.target ∈ keptStates kept a.size) := by
      intro arc _
      rw [Bool.eq_iff_iff, Bool.and_eq_true, decide_eq_true_iff, decide_eq_true_iff, mem_keptStates]
    refine (congrArg _ (List.filter_congr hstays)).trans (List.map_congr_left fun arc harc => ?_)
    obtain ⟨hlt, hkept⟩ := mem_keptStates.1 (of_decide_eq_true (List.mem_filter.1 harc).2)
    rw [idxOf_keptStates hlt hkept]
    rfl
  · show (a.start.filter kept).map (rank kept) = _
    cases h : a.start with
    | none => rfl
    | some s =>
      have hlt := hstart h
      by_cases hs : kept s = true
      · simp [Option.filter, hs, mem_keptStates.2 ⟨hlt, hs⟩, idxOf_keptStates hlt hs]
      · simp [Option.filter, hs, mt mem_keptStates.1 fun h => hs h.2]

/-- No other automaton with the same tables is restricted to the same states. -/
theorem eq_keep (hstart : ∀ {s : Nat}, a.start = some s → s < a.size)
    (hb : b.Restricts a (keptStates kept a.size)) (hsymbols : b.symbols = a.symbols) (hcache : b.cache = {}) :
    b = a.keep kept := by
  obtain ⟨hstates, hfirst⟩ := hb.unique (restricts_keep hstart kept)
  obtain ⟨_, _, _, _, _⟩ := b
  exact (Automaton.mk.injEq ..).mpr ⟨hstates, hfirst, congrFun hsymbols .input, congrFun hsymbols .output, hcache⟩

theorem keep_congr (hstart : ∀ {s : Nat}, a.start = some s → s < a.size)
    (h : ∀ s < a.size, kept s = kept' s) : a.keep kept = a.keep kept' := by
  have hsame : keptStates kept a.size = keptStates kept' a.size :=
    List.filter_congr fun s hs => h s (List.mem_range.1 hs)
  exact eq_keep hstart (hsame ▸ restricts_keep hstart kept) rfl rfl

/-- What is left after two steps is left after one. -/
theorem keep_keep (hstart : ∀ {s : Nat}, a.start = some s → s < a.size) (kept kept' : Nat → Bool) :
    (a.keep kept).keep kept' = a.keep fun s => kept s && kept' (rank kept s) := by
  have hb := restricts_keep hstart kept
  have hstart' : ∀ {s : Nat}, (a.keep kept).start = some s → s < (a.keep kept).size := by
    intro s hs
    rw [hb.start_eq, Option.map_eq_some_iff] at hs
    obtain ⟨r, hr, rfl⟩ := hs
    rw [hb.size_eq]
    exact List.idxOf_lt_length_of_mem (by simpa using (Option.filter_eq_some_iff.1 hr).2)
  have hc := hb.trans (restricts_keep hstart' kept')
  rw [hb.size_eq, entriesAt_keptStates] at hc
  exact eq_keep hstart hc rfl rfl

/-! ### Deletion -/

/-- The number after a deletion of a state that has survived it is deleted if the state is to be deleted. -/
theorem rank_mem_map_idxOf {deleted more : List Nat} {n : Nat} (hmore : ∀ s ∈ more, s < n) (hlt : s < n)
    (hs : s ∉ deleted) :
    rank (· ∉ deleted) s ∈ (more.filter (· ∉ deleted)).map (keptStates (· ∉ deleted) n).idxOf ↔
      s ∈ more := by
  have hsurvives : ∀ {t : Nat}, t < n → t ∉ deleted → t ∈ keptStates (· ∉ deleted) n := fun hlt ht =>
    mem_keptStates.2 ⟨hlt, decide_eq_true ht⟩
  rw [← idxOf_keptStates hlt (decide_eq_true hs), List.mem_map]
  constructor
  · rintro ⟨t, ht, heq⟩
    obtain ⟨ht, hkept⟩ := List.mem_filter.1 ht
    rwa [← (List.idxOf_inj (hsurvives (hmore t ht) (of_decide_eq_true hkept))).1 heq]
  · intro h
    exact ⟨s, List.mem_filter.2 ⟨h, decide_eq_true hs⟩, rfl⟩

/-- A deletion restricts an automaton to the states that are not listed, in whatever order and however often the
others are; one pass over the new numbers does it, as there are no more states than words. States that are deleted
afterwards go by their new numbers, and might have been deleted at once. -/
theorem exists_restricts_deleteStates (hstart : ∀ {s : Nat}, a.start = some s → s < a.size) {deleted : List Nat}
    (hdeleted : ∀ s ∈ deleted, s < a.size) :
    ∃ b, Edit.deleteStates deleted a = .ok () b ∧ b.symbols = a.symbols ∧
      b.Restricts a (keptStates (· ∉ deleted) a.size) ∧
      (a.size < UInt64.size → (∀ s, ∀ arc ∈ a.arcsAt s, arc.target < a.size) → a.without? deleted = some b) ∧
      (∀ same : List Nat, (∀ s, s ∈ same ↔ s ∈ deleted) → Edit.deleteStates same a = .ok () b) ∧
      ∀ more : List Nat, (∀ s ∈ more, s < a.size) →
        Edit.deleteStates ((more.filter (· ∉ deleted)).map (keptStates (· ∉ deleted) a.size).idxOf) b =
          Edit.deleteStates (deleted ++ more) a := by
  have hrestricts := restricts_keep hstart (· ∉ deleted)
  refine ⟨_, Edit.deleteStates_of_lt hdeleted, rfl, hrestricts,
    fun hsize htarget => without?_eq_keep deleted hsize hstart (htarget _), fun same hsame => ?_, fun more hmore => ?_⟩
  · have hlt : ∀ s ∈ same, s < a.size := fun s hs => hdeleted s ((hsame s).1 hs)
    simp only [Edit.deleteStates_of_lt hlt, hsame]
  · have hlt : ∀ s ∈ deleted ++ more, s < a.size := fun s hs =>
      (List.mem_append.1 hs).elim (hdeleted s) (hmore s)
    have hnew : ∀ r ∈ (more.filter (· ∉ deleted)).map (keptStates (· ∉ deleted) a.size).idxOf,
        r < (a.keep (· ∉ deleted)).size := by
      intro r hr
      obtain ⟨s, hs, rfl⟩ := List.mem_map.1 hr
      obtain ⟨hs, hkept⟩ := List.mem_filter.1 hs
      rw [hrestricts.size_eq]
      exact List.idxOf_lt_length_of_mem (mem_keptStates.2 ⟨hmore s hs, hkept⟩)
    rw [Edit.deleteStates_of_lt hnew, Edit.deleteStates_of_lt hlt, keep_keep hstart]
    refine congrArg _ (keep_congr hstart fun s hs => ?_)
    rw [Bool.eq_iff_iff, Bool.and_eq_true, decide_eq_true_iff, decide_eq_true_iff, decide_eq_true_iff,
      List.mem_append, not_or]
    exact and_congr_right fun hkept => not_congr (rank_mem_map_idxOf hmore hs hkept)

/-- An automaton with cycles and with arcs in all directions, which starts in the middle. -/
def crossroads : Automaton Tropical where
  states := #[{ arcs := #[⟨1, 1, 1, 3⟩, ⟨2, 2, 1, 4⟩] }, { arcs := #[⟨3, 3, 1, 0⟩, ⟨3, 3, 1, 1⟩] },
    { arcs := #[⟨5, 5, 1, 0⟩, ⟨6, 6, 1, 3⟩, ⟨7, 7, 1, 4⟩, ⟨5, 5, 1, 2⟩, ⟨8, 8, 1, 0⟩] },
    { final := some 1, arcs := #[⟨9, 9, 1, 2⟩] }, { final := some 1, arcs := #[⟨4, 4, 1, 2⟩] }]
  start := some 2

/-- One state is listed twice, and one again after it has been deleted. -/
theorem exists_restricts_deleteStates_crossroads : ∃ b, Edit.deleteStates [3, 1, 3] crossroads = .ok () b ∧
    crossroads.without? [3, 1, 3] = some b ∧
    b.start = some 1 ∧ (b.arcsAt 1).toList = [⟨5, 5, 1, 0⟩, ⟨7, 7, 1, 2⟩, ⟨5, 5, 1, 1⟩, ⟨8, 8, 1, 0⟩] ∧
    Edit.deleteStates [1, 3] crossroads = .ok () b ∧
    Edit.deleteStates [2] b = Edit.deleteStates [3, 1, 3, 4, 1] crossroads := by
  have hstart : ∀ {s : Nat}, crossroads.start = some s → s < crossroads.size := by
    rintro s ⟨⟩
    decide
  have hdeleted : ∀ s ∈ [3, 1, 3], s < crossroads.size := by decide
  have htarget : ∀ s, ∀ arc ∈ crossroads.arcsAt s, arc.target < crossroads.size := by
    intro s arc harc
    have hs := lt_size_of_mem harc
    revert arc
    revert s
    decide
  obtain ⟨b, hb, -, hrestricts, hpass, hsame, hmore⟩ := exists_restricts_deleteStates hstart hdeleted
  refine ⟨b, hb, hpass (by decide) htarget, ?_, ?_, hsame [1, 3] fun s => ?_, hmore [4, 1] (by decide)⟩
  · rw [hrestricts.start_eq]
    decide
  · rw [hrestricts.arcs_eq (r := 1) (s := 2) (by decide)]
    decide
  · simp only [List.mem_cons, List.not_mem_nil, or_false]
    omega

end Automaton

end Transducer
