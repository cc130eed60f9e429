import Mathlib
import Transducer.Proofs.Automaton.Trim

/-!
# New numbers in one pass

A deletion keeps one array with the new number of each state, in which a mark stands for a state that is deleted. First
the marks are set, then one pass over the array numbers all others (`newNumbers`), and at last the states are moved and
their arcs are led to the new numbers (`without?`).

No new number is the mark as long as there are no more states than words, and then what is left is the automaton
restricted to the other states (`without?_eq_keep`).
-/

namespace Transducer.Automaton

variable {W : Type} {a : Automaton W} {deleted : List Nat} {n s : Nat}

/-! ### Numbers -/

/-- What stands for the number of a state that is deleted. -/
def mark : Nat := UInt64.size - 1

/-- An array for the numbers of `n` states, in which some are marked. -/
def marked (deleted : List Nat) (n : Nat) : Array Nat :=
  deleted.foldl (fun numbers s => numbers.setIfInBounds s mark) (Array.replicate n 0)

/-- Numbers all that is not marked, from `next` on. -/
def number (next : Nat) : List Nat → List Nat
  | [] => []
  | entry :: entries => if entry = mark then mark :: number next entries else next :: number (next + 1) entries

/-- The new numbers of `n` states, of which some are deleted. -/
def newNumbers (deleted : List Nat) (n : Nat) : Array Nat := (number 0 (marked deleted n).toList).toArray

theorem toList_marked (deleted : List Nat) (n : Nat) :
    (marked deleted n).toList = (List.range n).map fun s => if s ∈ deleted then mark else 0 := by
  refine List.ext_getElem? fun s => ?_
  rw [Array.getElem?_toList, marked, Graph.getElem?_foldl_setIfInBounds, List.getElem?_map, Array.getElem?_replicate]
  by_cases hs : s < n
  · rw [if_pos hs, List.getElem?_range hs]
    rfl
  · rw [if_neg hs, List.getElem?_eq_none (by simpa using hs)]
    rfl

/-- What is not marked is numbered by how many such entries stand before it. -/
theorem getElem?_number (next : Nat) (entries : List Nat) (s : Nat) :
    (number next entries)[s]? =
      entries[s]?.map fun entry => if entry = mark then mark else next + (entries.take s).countP (· ≠ mark) := by
  induction entries generalizing next s with
  | nil => rfl
  | cons entry entries ih =>
    rw [number]
    cases s with
    | zero => split <;> simp [*]
    | succ s =>
      split
      · next h => simp [ih, h]
      · next h => simp [ih, h, Nat.add_assoc, Nat.add_comm 1]

/-- The new number of a state that is not deleted is its rank. -/
theorem getElem?_newNumbers (deleted : List Nat) (hs : s < n) :
    (newNumbers deleted n)[s]? = some (if s ∈ deleted then mark else rank (· ∉ deleted) s) := by
  rw [newNumbers, List.getElem?_toArray, getElem?_number, toList_marked, List.getElem?_map, List.getElem?_range hs,
    Option.map_some, Option.map_some, ← List.map_take, List.take_range, Nat.min_eq_left hs.le, List.countP_map,
    Nat.zero_add]
  have hmark : (0 : Nat) ≠ mark := by decide
  have hcount : (List.range s).countP
      ((fun entry => decide (entry ≠ mark)) ∘ fun s => if s ∈ deleted then mark else 0) = rank (· ∉ deleted) s := by
    refine List.countP_congr fun r _ => ?_
    by_cases hr : r ∈ deleted
    · simp [hr]
    · simp [hr, hmark]
  rw [hcount]
  by_cases hs : s ∈ deleted
  · simp [hs]
  · simp [hs, hmark]

theorem rank_ne_mark {kept : Nat → Bool} (hs : s < n) (hn : n ≤ mark) : rank kept s ≠ mark := by
  have hle : rank kept s ≤ s := List.countP_le_length.trans_eq List.length_range
  omega

/-! ### Moving the states -/

/-- The arcs to states that are not marked, with the new numbers. An arc must not lead to a state that has none. -/
def ledTo? (numbers : Array Nat) : List (Arc W) → Option (List (Arc W))
  | [] => some []
  | arc :: arcs => do
    let target ← numbers[arc.target]?
    let arcs ← ledTo? numbers arcs
    return if target = mark then arcs else { arc with target } :: arcs

/-- The states that are not marked, each with its number before. -/
def moved? (numbers : Array Nat) : List (State W × Nat) → Option (List (State W))
  | [] => some []
  | (state, s) :: states => do
    if (← numbers[s]?) = mark then moved? numbers states
    else
      let arcs ← ledTo? numbers state.arcs.toList
      let states ← moved? numbers states
      return { state with arcs := arcs.toArray } :: states

/-- The start with its new number, unless it is marked. -/
def movedStart? (numbers : Array Nat) : Option Nat → Option (Option Nat)
  | none => some none
  | some s => numbers[s]?.map fun number => if number = mark then none else some number

/-- The automaton without some states, if no arc of the others leads to a state that does not exist, nor does the
start. -/
def without? (deleted : List Nat) (a : Automaton W) : Option (Automaton W) := do
  let numbers := newNumbers deleted a.size
  let states ← moved? numbers a.states.toList.zipIdx
  let start ← movedStart? numbers a.start
  return { a with states := states.toArray, start, cache := {} }

theorem ledTo?_newNumbers (deleted : List Nat) (hn : n ≤ mark) {arcs : List (Arc W)}
    (harcs : ∀ arc ∈ arcs, arc.target < n) :
    ledTo? (newNumbers deleted n) arcs =
      some ((arcs.filter fun arc => arc.target < n && decide (arc.target ∉ deleted)).map fun arc =>
        { arc with target := rank (· ∉ deleted) arc.target }) := by
  induction arcs with
  | nil => rfl
  | cons arc arcs ih =>
    obtain ⟨hlt, harcs⟩ := List.forall_mem_cons.1 harcs
    rw [ledTo?, getElem?_newNumbers deleted hlt, ih harcs, List.filter_cons]
    by_cases hdeleted : arc.target ∈ deleted
    · simp [hdeleted]
    · simp [hdeleted, hlt, rank_ne_mark hlt hn]

theorem moved?_newNumbers (deleted : List Nat) (hn : n ≤ mark) {states : List (State W × Nat)}
    (hstates : ∀ entry ∈ states, entry.2 < n ∧ ∀ arc ∈ entry.1.arcs, arc.target < n) :
    moved? (newNumbers deleted n) states =
      some ((states.filter fun (_, s) => decide (s ∉ deleted)).map fun (state, _) =>
        keepArcs (· ∉ deleted) n state) := by
  induction states with
  | nil => rfl
  | cons entry states ih =>
    obtain ⟨state, s⟩ := entry
    obtain ⟨⟨hlt, harcs⟩, hstates⟩ := List.forall_mem_cons.1 hstates
    have hled := ledTo?_newNumbers deleted hn fun arc harc => harcs arc (Array.mem_toList_iff.1 harc)
    rw [moved?, getElem?_newNumbers deleted hlt, ih hstates, hled, List.filter_cons]
    by_cases hdeleted : s ∈ deleted
    · simp [hdeleted]
    · have harcs : (keepArcs (· ∉ deleted) n state).arcs = ((state.arcs.toList.filter fun arc =>
          arc.target < n && decide (arc.target ∉ deleted)).map fun arc =>
            { arc with target := rank (· ∉ deleted) arc.target }).toArray :=
        Array.toList_inj.1 (by simp [keepArcs])
      simp only [hdeleted, if_false, Option.bind_eq_bind, Option.bind_some, rank_ne_mark hlt hn, not_false_eq_true,
        decide_true, if_true, List.map_cons, ← harcs]
      rfl

/-- One pass over the numbers leaves what the deletion leaves. -/
theorem without?_eq_keep (deleted : List Nat) (hsize : a.size < UInt64.size)
    (hstart : ∀ {s : Nat}, a.start = some s → s < a.size)
    (htarget : ∀ {s : Nat}, ∀ arc ∈ a.arcsAt s, arc.target < a.size) :
    a.without? deleted = some (a.keep (· ∉ deleted)) := by
  have hn : a.size ≤ mark := Nat.le_pred_of_lt hsize
  have hexist : ∀ entry ∈ a.states.toList.zipIdx, entry.2 < a.size ∧ ∀ arc ∈ entry.1.arcs, arc.target < a.size := by
    rintro ⟨state, s⟩ hentry
    have hget := List.mem_zipIdx_iff_getElem?.1 hentry
    rw [Array.getElem?_toList] at hget
    refine ⟨(Array.getElem?_eq_some_iff.1 hget).1, fun arc harc => htarget (s := s) arc ?_⟩
    rw [arcsAt, hget]
    exact harc
  have hstates : (a.keep (· ∉ deleted)).states = ((a.states.toList.zipIdx.filter fun (_, s) =>
      decide (s ∉ deleted)).map fun (state, _) => keepArcs (· ∉ deleted) a.size state).toArray :=
    Array.toList_inj.1 (by simp [keep])
  have hmovedStart : movedStart? (newNumbers deleted a.size) a.start = some (a.keep (· ∉ deleted)).start := by
    rw [keep]
    cases hs : a.start with
    | none => rfl
    | some s =>
      have hlt := hstart hs
      rw [movedStart?, getElem?_newNumbers deleted hlt]
      by_cases hdeleted : s ∈ deleted
      · simp [hdeleted, Option.filter]
      · simp [hdeleted, Option.filter, rank_ne_mark hlt hn]
  rw [without?, moved?_newNumbers deleted hn hexist, hmovedStart, Option.bind_eq_bind, Option.bind_some, ← hstates]
  rfl

end Transducer.Automaton
