import Mathlib
import Transducer.Proofs.Property.Meaning
import Transducer.Proofs.Property.Upkeep

/-!
# Sorted arcs

To sort the arcs of an automaton is only to put them in another order: `Reorders` is what stays the same, and
`Sorts` says which order it is. The arcs of each state are in the order of their labels, first on one side and
then on the other, and arcs with the same labels stay in the order in which they were
(`sorts_sortArcs`). So to sort them again changes nothing.
-/

namespace Transducer

/-- The property that the arcs of every state are in the order of the labels on one side. -/
def Side.sorted : Side → Property
  | .input => .inputSorted
  | .output => .outputSorted

namespace Automaton

variable {W : Type}

/-! ### Arcs in another order -/

/-- The automata are the same but for the order of the arcs at each state, and for what they know of
themselves. -/
structure Reorders (a a' : Automaton W) : Prop where
  size_eq : a'.size = a.size
  start_eq : a'.start = a.start
  symbols_eq : a'.inputSymbols = a.inputSymbols ∧ a'.outputSymbols = a.outputSymbols
  final?_eq : ∀ s, a'.final? s = a.final? s
  arcsAt_perm : ∀ s, (a'.arcsAt s).toList.Perm (a.arcsAt s).toList

namespace Reorders

variable {a a' : Automaton W}

theorem refl (a : Automaton W) : Reorders a a := ⟨rfl, rfl, ⟨rfl, rfl⟩, fun _ => rfl, fun _ => .refl _⟩

theorem symm (h : Reorders a a') : Reorders a' a where
  size_eq := h.size_eq.symm
  start_eq := h.start_eq.symm
  symbols_eq := ⟨h.symbols_eq.1.symm, h.symbols_eq.2.symm⟩
  final?_eq s := (h.final?_eq s).symm
  arcsAt_perm s := (h.arcsAt_perm s).symm

theorem mem_iff (h : Reorders a a') {s : Nat} {arc : Arc W} : arc ∈ a'.arcsAt s ↔ arc ∈ a.arcsAt s := by
  rw [← Array.mem_toList_iff, ← Array.mem_toList_iff, (h.arcsAt_perm s).mem_iff]

theorem all_eq (h : Reorders a a') (s : Nat) (p : Arc W → Bool) : (a'.arcsAt s).all p = (a.arcsAt s).all p := by
  rw [← Array.all_toList, ← Array.all_toList, (h.arcsAt_perm s).all_eq]

theorem any_eq (h : Reorders a a') (s : Nat) (p : Arc W → Bool) : (a'.arcsAt s).any p = (a.arcsAt s).any p := by
  rw [← Array.any_toList, ← Array.any_toList, (h.arcsAt_perm s).any_eq]

theorem allArcs_eq (h : Reorders a a') (p : Arc W → Bool) : a'.allArcs p = a.allArcs p := by
  rw [Bool.eq_iff_iff, allArcs_iff, allArcs_iff]
  simp only [h.mem_iff]

end Reorders

/-! ### The order of labels -/

/-- An arc may stand before another one: by the labels on the given side or, where these are the same, by the
labels on the other side. -/
def Precedes (side : Side) (arc other : Arc W) : Prop :=
  arc.label side < other.label side ∨
    arc.label side = other.label side ∧ arc.label side.other ≤ other.label side.other

theorem arcLE_iff {side : Side} {arc other : Arc W} : arcLE side arc other = true ↔ Precedes side arc other := by
  simp [arcLE, Precedes]

theorem Precedes.trans {side : Side} {x y z : Arc W} (h : Precedes side x y) (h' : Precedes side y z) :
    Precedes side x z := by
  rcases h with hlt | ⟨heq, hle⟩ <;> rcases h' with hlt' | ⟨heq', hle'⟩
  · exact .inl (UInt32.lt_trans hlt hlt')
  · exact .inl (heq' ▸ hlt)
  · exact .inl (heq ▸ hlt')
  · exact .inr ⟨heq.trans heq', UInt32.le_trans hle hle'⟩

theorem precedes_or_precedes (side : Side) (x y : Arc W) : Precedes side x y ∨ Precedes side y x := by
  rcases UInt32.lt_or_le (x.label side) (y.label side) with hlt | hle
  · exact .inl (.inl hlt)
  rcases UInt32.lt_or_eq_of_le hle with hlt | heq
  · exact .inr (.inl hlt)
  · exact (UInt32.le_total (x.label side.other) (y.label side.other)).imp (fun h => .inr ⟨heq.symm, h⟩)
      fun h => .inr ⟨heq, h⟩

theorem Precedes.label_le {side : Side} {x y : Arc W} (h : Precedes side x y) : x.label side ≤ y.label side := by
  rcases h with hlt | ⟨heq, -⟩
  · exact UInt32.le_of_lt hlt
  · exact heq ▸ UInt32.le_refl _

theorem arcLE_trans (side : Side) (x y z : Arc W) (hxy : arcLE side x y = true) (hyz : arcLE side y z = true) :
    arcLE side x z = true :=
  arcLE_iff.2 ((arcLE_iff.1 hxy).trans (arcLE_iff.1 hyz))

theorem arcLE_total (side : Side) (x y : Arc W) : (arcLE side x y || arcLE side y x) = true := by
  rw [Bool.or_eq_true, arcLE_iff, arcLE_iff]
  exact precedes_or_precedes side x y

/-! ### Sorting -/

/-- The arcs with the given labels, in their order. -/
def labelled (ilabel olabel : Label) (arcs : List (Arc W)) : List (Arc W) :=
  arcs.filter fun arc => arc.ilabel == ilabel && arc.olabel == olabel

/-- Sorted arcs with the same labels are in the order in which they were. -/
theorem labelled_mergeSort (side : Side) (ilabel olabel : Label) (arcs : List (Arc W)) :
    labelled ilabel olabel (arcs.mergeSort (arcLE side)) = labelled ilabel olabel arcs := by
  have hlabels : ∀ arc ∈ labelled ilabel olabel arcs, arc.ilabel = ilabel ∧ arc.olabel = olabel := by
    intro arc harc
    simpa using List.of_mem_filter harc
  -- none of these arcs has to stand after another one of them
  have hsorted : (labelled ilabel olabel arcs).Pairwise fun x y => arcLE side x y = true := by
    refine List.pairwise_of_forall_mem_list fun x hx y hy => arcLE_iff.2 (.inr ?_)
    obtain ⟨hxi, hxo⟩ := hlabels x hx
    obtain ⟨hyi, hyo⟩ := hlabels y hy
    cases side <;> simp [Arc.label, Side.other, hxi, hxo, hyi, hyo]
  have hsub := List.sublist_mergeSort (arcLE_trans side) (arcLE_total side) hsorted List.filter_sublist
  have hfiltered : labelled ilabel olabel (labelled ilabel olabel arcs) = labelled ilabel olabel arcs := by
    simp [labelled]
  refine (List.Sublist.eq_of_length (hfiltered ▸ hsub.filter _) ?_).symm
  exact ((List.mergeSort_perm arcs (arcLE side)).symm.filter _).length_eq

/-- The second automaton is the first one with the arcs of each state in the order of their labels, and arcs with the
same labels in the order in which they were. -/
structure Sorts (side : Side) (a a' : Automaton W) : Prop extends Reorders a a' where
  ordered : ∀ s, (a'.arcsAt s).toList.Pairwise (Precedes side)
  stable : ∀ s ilabel olabel,
    labelled ilabel olabel (a'.arcsAt s).toList = labelled ilabel olabel (a.arcsAt s).toList

theorem getElem?_mapStates (f : State W → State W) (a : Automaton W) (s : Nat) :
    (a.mapStates f).states[s]? = a.states[s]?.map f := by
  unfold mapStates
  split
  · next hempty =>
    have hnone : a.states = #[] := by simpa using hempty
    simp [hnone]
  · simp

theorem toList_arcsAt_sortArcs (a : Automaton W) (side : Side) (s : Nat) :
    ((a.sortArcs side).arcsAt s).toList = (a.arcsAt s).toList.mergeSort (arcLE side) := by
  rw [arcsAt, sortArcs, getElem?_mapStates, arcsAt]
  cases a.states[s]? <;> simp

theorem sorts_sortArcs (a : Automaton W) (side : Side) : Sorts side a (a.sortArcs side) where
  size_eq := size_mapStates _ a
  start_eq := by
    unfold sortArcs mapStates
    split <;> rfl
  symbols_eq := by
    unfold sortArcs mapStates
    split <;> exact ⟨rfl, rfl⟩
  final?_eq s := by
    rw [final?, sortArcs, getElem?_mapStates, final?]
    cases a.states[s]? <;> rfl
  arcsAt_perm s := by
    rw [toList_arcsAt_sortArcs]
    exact List.mergeSort_perm _ _
  ordered s := by
    rw [toList_arcsAt_sortArcs]
    exact (List.pairwise_mergeSort (arcLE_trans side) (arcLE_total side) _).imp arcLE_iff.1
  stable s ilabel olabel := by
    rw [toList_arcsAt_sortArcs, labelled_mergeSort]

/-- The automaton with its arcs sorted by the labels of a side, if one is given. -/
def sortedOn (a : Automaton W) (side : Option Side) : Automaton W := side.elim a a.sortArcs

theorem reorders_sortedOn (a : Automaton W) (side : Option Side) : Reorders a (a.sortedOn side) := by
  cases side with
  | none => exact .refl a
  | some side => exact (a.sorts_sortArcs side).toReorders

section

variable {a a' : Automaton W} {side : Side}

/-- To sort arcs again changes nothing, not even what is known. -/
theorem sortArcs_sortArcs (a : Automaton W) (side : Side) :
    (a.sortArcs side).sortArcs side = a.sortArcs side := by
  unfold sortArcs mapStates
  by_cases hempty : a.states.isEmpty
  · simp [hempty]
  · have hsorted : ∀ arcs : List (Arc W), (arcs.mergeSort (arcLE side)).mergeSort (arcLE side) =
        arcs.mergeSort (arcLE side) := fun arcs =>
      List.mergeSort_of_pairwise (List.pairwise_mergeSort (arcLE_trans side) (arcLE_total side) arcs)
    simp [hempty, hsorted, Function.comp_def]

theorem Sorts.labelsAscend (h : Sorts side a a') (s : Nat) : LabelsAscend side (a'.arcsAt s) := by
  rw [← nondecreasing_labels_iff, nondecreasing_iff, List.pairwise_map]
  exact (h.ordered s).imp Precedes.label_le

variable [Weight W]

theorem Sorts.decides_sorted (h : Sorts side a a') : a'.decides side.sorted = true := by
  rw [decides_iff]
  cases side with
  | input => exact h.labelsAscend
  | output => exact h.labelsAscend

theorem CacheSound.sortArcs (h : a.CacheSound) (side : Side) : (a.sortArcs side).CacheSound :=
  (a.renewed_sortArcs side).of_cache (P := PropertyCache.Sound) PropertyCache.sound_empty h

theorem CacheSound.sortedOn (h : a.CacheSound) (side : Option Side) : (a.sortedOn side).CacheSound := by
  cases side with
  | none => exact h
  | some side => exact h.sortArcs side

/-- Asked for it, an automaton whose arcs are sorted answers that they are. -/
theorem ask_sortArcs (h : a.CacheSound) (side : Side) : ((a.sortArcs side).ask side.sorted).1 = true := by
  obtain ⟨_, heq, -⟩ := ask_eq (h.sortArcs side) side.sorted
  rw [heq]
  exact (a.sorts_sortArcs side).decides_sorted

end

end Automaton

end Transducer
