import Mathlib
import Transducer.Automaton.Edit
import Transducer.Proofs.Except

/-!
# What edits do

An edit whose checks pass is a change of the automaton, and one lemma for each edit says which. Proofs about
programs made of edits take them one after the other (`bind_of_ok`).
-/

namespace Transducer.Edit

variable {W α β : Type} {a b : Automaton W} {s : Nat}

theorem bind_of_ok {edit : Edit W α} {next : α → Edit W β} {x : α} (h : edit a = .ok x b) :
    (edit >>= next) a = next x b := by
  show EStateM.bind edit next a = _
  rw [EStateM.bind, h]

/-- To require states that exist changes nothing. -/
theorem forM_requireState {xs : List α} {state : α → Nat} (h : ∀ x ∈ xs, state x < a.size) :
    (xs.forM fun x => requireState (state x) : Edit W Unit) a = .ok () a := by
  induction xs with
  | nil => rfl
  | cons x xs ih =>
    show (requireState (state x) >>= fun _ => xs.forM fun x => requireState (state x) : Edit W Unit) a = _
    rw [bind_of_ok (requireState_of_lt (h x List.mem_cons_self))]
    exact ih fun y hy => h y (List.mem_cons_of_mem _ hy)

/-! ### Edits that check first -/

theorem stateAfter_bind_of_ok {edit : Edit W α} {next : α → Edit W β} {x : α} (h : edit a = .ok x b) :
    stateAfter (edit >>= next) a = stateAfter (next x) b := by
  rw [stateAfter, stateAfter, bind_of_ok h]

/-- An edit that requires a state first is done if the state exists, and changes nothing otherwise. -/
theorem stateAfter_requireState (s : Nat) (edit : Edit W α) (a : Automaton W) :
    stateAfter (requireState s >>= fun _ => edit) a = if s < a.size then stateAfter edit a else a := by
  split
  · next hs => exact stateAfter_bind_of_ok (requireState_of_lt hs)
  · next hs =>
    refine stateAfter_of_error (e := .invalidState s a.size) ?_
    show EStateM.bind (requireState s) _ a = _
    rw [EStateM.bind, requireState_of_le (Nat.le_of_not_lt hs)]

/-- So is an edit that requires several states first. -/
theorem stateAfter_forM_requireState (xs : List α) (state : α → Nat) (edit : Edit W β) (a : Automaton W) :
    stateAfter ((xs.forM fun x => requireState (state x)) >>= fun _ => edit) a =
      if ∀ x ∈ xs, state x < a.size then stateAfter edit a else a := by
  induction xs with
  | nil => rw [if_pos (by simp)]; rfl
  | cons x xs ih =>
    have hbind : ((List.forM (x :: xs) fun x => requireState (state x)) >>= fun _ => edit : Edit W β) =
        requireState (state x) >>= fun _ => (xs.forM fun x => requireState (state x)) >>= fun _ => edit :=
      bind_assoc (m := EStateM Error (Automaton W)) _ _ _
    rw [hbind, stateAfter_requireState, ih]
    simp only [List.forall_mem_cons]
    by_cases hx : state x < a.size <;> simp [hx]

theorem stateAfter_changeState (s : Nat) (f : State W → State W) (a : Automaton W) :
    stateAfter (changeState s f) a = if s < a.size then a.changeState s f else a :=
  stateAfter_requireState s _ a

theorem stateAfter_deleteStates (deleted : List Nat) (a : Automaton W) :
    stateAfter (deleteStates deleted) a =
      if ∀ s ∈ deleted, s < a.size then a.keep fun s => !deleted.contains s else a :=
  stateAfter_forM_requireState deleted id _ a

theorem get_eq_ok (a : Automaton W) : (get : Edit W (Automaton W)) a = .ok a a := rfl

/-- The arc that an edit replaces must exist. -/
theorem setArc_of_error {index : Nat} {e : Error} (h : a.findArc s index = .error e) (arc : Arc W) :
    setArc s index arc a = .error e a := by
  rw [setArc, bind_of_ok (get_eq_ok a), h]
  rfl

theorem stateAfter_setArc_of_ok {index : Nat} {old : Arc W} (h : a.findArc s index = .ok old) (arc : Arc W) :
    stateAfter (setArc s index arc) a =
      stateAfter (changeState s fun state => { state with arcs := state.arcs.setIfInBounds index arc }) a := by
  rw [setArc, stateAfter_bind_of_ok (get_eq_ok a), h]

/-! ### Edits that pass their checks -/

theorem changeState_of_lt (hs : s < a.size) (f : State W → State W) :
    changeState s f a = .ok () { a with states := a.states.modify s f, cache := {} } := by
  rw [changeState, bind_of_ok (requireState_of_lt hs)]
  rfl

/-- The state is told by those before it. -/
theorem changeState_of_append {done rest : List (State W)} {state : State W}
    (h : a.states = (done ++ state :: rest).toArray) (f : State W → State W) :
    changeState done.length f a = .ok () { a with states := (done ++ f state :: rest).toArray, cache := {} } := by
  have hlt : done.length < a.size := by simp [Automaton.size, h]
  rw [changeState_of_lt hlt, h, List.modify_toArray, List.modify_eq_take_drop, List.take_left, List.drop_left,
    List.modifyHead_cons]

theorem deleteStates_of_lt {deleted : List Nat} (h : ∀ s ∈ deleted, s < a.size) :
    deleteStates deleted a = .ok () (a.keep (· ∉ deleted)) := by
  have hkept : (fun s => !deleted.contains s) = fun s => decide (s ∉ deleted) := by
    funext s
    simp
  have hexist : (deleted.forM requireState : Edit W Unit) a = .ok () a := forM_requireState h
  rw [deleteStates, bind_of_ok hexist, hkept]
  rfl

theorem setFinal_of_lt [Weight W] (hs : s < a.size) (weight : W) :
    setFinal s weight a =
      .ok () { a with states := a.states.modify s (·.withFinal weight), cache := {} } :=
  changeState_of_lt hs (·.withFinal weight)

theorem setArcs_of_lt (hs : s < a.size) {arcs : Array (Arc W)} (harcs : ∀ arc ∈ arcs, arc.target < a.size) :
    setArcs s arcs a =
      .ok () { a with states := a.states.modify s fun state => { state with arcs }, cache := {} } := by
  have htargets : ∀ arc ∈ arcs.toList, arc.target < a.size := fun arc h => harcs arc (Array.mem_toList_iff.1 h)
  rw [setArcs, bind_of_ok (requireState_of_lt hs), bind_of_ok (forM_requireState htargets)]
  exact changeState_of_lt hs _

/-- To set the arcs and the weight of a state replaces it. -/
theorem setArcs_setFinal_eq [Weight W] (hs : s < a.size) {arcs : Array (Arc W)}
    (harcs : ∀ arc ∈ arcs, arc.target < a.size) (weight : W) :
    (do setArcs s arcs; setFinal s weight : Edit W Unit) a =
      .ok () { a with
        states := a.states.setIfInBounds s ({ arcs : State W }.withFinal weight), cache := {} } := by
  have hstates : (a.states.modify s fun state => { state with arcs }).modify s (·.withFinal weight) =
      a.states.setIfInBounds s ({ arcs : State W }.withFinal weight) := by
    apply Array.ext_getElem?
    intro i
    simp only [Array.getElem?_modify, Array.getElem?_setIfInBounds]
    by_cases h : s = i
    · subst h
      have hget : a.states[s]? = some a.states[s] := Array.getElem?_eq_getElem hs
      rw [if_pos rfl, if_pos rfl, if_pos rfl, if_pos (show s < a.states.size from hs), hget]
      rfl
    · rw [if_neg h, if_neg h, if_neg h]
  rw [bind_of_ok (setArcs_of_lt hs harcs), ← hstates]
  apply setFinal_of_lt
  simpa [Automaton.size] using hs

end Transducer.Edit
