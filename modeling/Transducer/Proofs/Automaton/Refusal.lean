import Mathlib
import Transducer.Proofs.Automaton.Built
import Transducer.Proofs.Automaton.Bypass
import Transducer.Proofs.Property.Meaning
import Transducer.Proofs.Property.Upkeep

/-!
# Changes that are refused

Why a change of an automaton is refused can be told before it is tried (`Change.fault?`): a state or an arc does
not exist, a side has no table or a label no key, an epsilon cycle has a weight, or bytes are not those of an
automaton. A change with a fault is refused with this fault, and the automaton is as before: its states, its start,
its tables, and what is known of it. A change without a fault is not refused (`Change.edit_eq_error_iff`).

An edit that consists of checks and a change keeps to that because the checks come first (`Fails.after`). Re-keying
and epsilon removal are made of many edits, each of which checks for itself. Re-keying looks up all labels before the
first of these edits, and replaces the arcs of states that exist (`Edit.rekeySteps_eq`). In epsilon removal none of
the edits is refused in a well-formed automaton, since the arcs that it puts in place lead to where others have led.
-/

namespace Transducer

open EpsilonGraph

variable {W α : Type} {a b : Automaton W}

/-! ### Faults -/

/-- The error of the first of some states that does not exist. -/
def Automaton.missing? (a : Automaton W) (states : List Nat) : Option Error :=
  (states.find? fun s => a.size ≤ s).map fun s => .invalidState s a.size

/-- Why there is no result. -/
def refusal? {ε : Type} : Except ε α → Option ε
  | .ok _ => none
  | .error e => some e

/-- Why a change is refused, if it is. -/
def Change.fault? {D : Type} [Weight W] [Costed W] [Tolerance W D] (a : Automaton W) : Change W D → Option Error
  | setStart s => a.missing? [s]
  | setFinal s _ => a.missing? [s]
  | deleteFinal s => a.missing? [s]
  | addArc s arc => a.missing? [arc.target, s]
  | setArc s index _ => refusal? (a.findArc s index)
  | editArcs s _ => a.missing? [s]
  | setArcs s arcs => a.missing? (s :: arcs.toList.map (·.target))
  | reserveArcs s _ => a.missing? [s]
  | deleteArcs s => a.missing? [s]
  | deleteStates deleted => a.missing? deleted
  | rekey target input output => refusal? (a.rekey target input output)
  | removeEpsilons config => ((EpsilonGraph.of a).weightedCycle? config.bound).map .epsilonCycle
  | read bytes => refusal? (Automaton.ofBytes bytes : Except Error (Automaton W))
  | _ => none

namespace Automaton

theorem missing?_append (a : Automaton W) (states more : List Nat) :
    a.missing? (states ++ more) = (a.missing? states).or (a.missing? more) := by
  rw [missing?, missing?, missing?, List.find?_append, Option.map_or]

theorem missing?_of_lt {s : Nat} (h : s < a.size) : a.missing? [s] = none := by
  simp [missing?, h]

theorem missing?_of_le {s : Nat} (h : a.size ≤ s) : a.missing? [s] = some (.invalidState s a.size) := by
  simp [missing?, h]

end Automaton

/-! ### Edits that check first -/

/-- The state with other arcs. -/
def State.withArcs (state : State W) (arcs : List (Arc W)) : State W := { state with arcs := arcs.toArray }

namespace Edit

variable {β : Type} {fault other : Option Error}

/-- The edit does nothing but look for a fault. -/
def Checks (edit : Edit W Unit) (a : Automaton W) (fault : Option Error) : Prop :=
  edit a = fault.elim (.ok () a) (.error · a)

/-- The edit is refused if there is a fault, and only then; it has done nothing in that case. -/
def Fails (edit : Edit W α) (a : Automaton W) (fault : Option Error) : Prop :=
  ∀ e b, edit a = .error e b ↔ fault = some e ∧ b = a

theorem checks_requireState (s : Nat) (a : Automaton W) : Checks (requireState s) a (a.missing? [s]) := by
  rw [Checks]
  by_cases hs : s < a.size
  · rw [Automaton.missing?_of_lt hs]
    exact requireState_of_lt hs
  · rw [Automaton.missing?_of_le (Nat.le_of_not_lt hs)]
    exact requireState_of_le (Nat.le_of_not_lt hs)

theorem Checks.bind {check : Edit W Unit} {next : Unit → Edit W Unit} (h : Checks check a fault)
    (hnext : Checks (next ()) a other) : Checks (check >>= next) a (fault.or other) := by
  unfold Checks at *
  show EStateM.bind check next a = _
  rw [EStateM.bind, h]
  cases fault with
  | none => exact hnext
  | some e => rfl

theorem checks_forM_requireState (xs : List α) (state : α → Nat) (a : Automaton W) :
    Checks (xs.forM fun x => requireState (state x)) a (a.missing? (xs.map state)) := by
  induction xs with
  | nil => rfl
  | cons x xs ih =>
    show Checks _ a (a.missing? ([state x] ++ xs.map state))
    rw [a.missing?_append]
    exact (checks_requireState (state x) a).bind ih

/-- What comes after a check finds the automaton unchanged. -/
theorem Fails.after {check : Edit W Unit} {next : Unit → Edit W β} (hcheck : Checks check a fault)
    (h : Fails (next ()) a other) : Fails (check >>= next) a (fault.or other) := by
  intro e b
  change EStateM.bind check next a = _ ↔ _
  unfold Checks at hcheck
  rw [EStateM.bind, hcheck]
  cases fault with
  | none => exact h e b
  | some e' =>
    constructor
    · rintro ⟨⟩
      exact ⟨rfl, rfl⟩
    · rintro ⟨⟨⟩, rfl⟩
      rfl

theorem fails_of_ok {edit : Edit W α} {x : α} (h : edit a = .ok x b) : Fails edit a none := by
  intro e c
  rw [h]
  exact ⟨nofun, nofun⟩

theorem fails_of_error {edit : Edit W α} {e : Error} (h : edit a = .error e a) : Fails edit a (some e) := by
  intro e' c
  rw [h]
  constructor
  · rintro ⟨⟩
    exact ⟨rfl, rfl⟩
  · rintro ⟨⟨⟩, rfl⟩
    rfl

theorem fails_changeState (s : Nat) (f : State W → State W) (a : Automaton W) :
    Fails (changeState s f) a (a.missing? [s]) := by
  rw [← Option.or_none (o := a.missing? [s])]
  exact .after (checks_requireState s a) (fails_of_ok rfl)

theorem fails_setStart (s : Nat) (a : Automaton W) : Fails (setStart s) a (a.missing? [s]) := by
  rw [← Option.or_none (o := a.missing? [s])]
  exact .after (checks_requireState s a) (fails_of_ok rfl)

theorem fails_addArc (s : Nat) (arc : Arc W) (a : Automaton W) :
    Fails (addArc s arc) a (a.missing? [arc.target, s]) := by
  rw [← List.singleton_append, a.missing?_append]
  exact .after (checks_requireState arc.target a) (fails_changeState s _ a)

/-- The state is looked for once more at the end, and cannot be missing then. -/
theorem fails_setArcs (s : Nat) (arcs : Array (Arc W)) (a : Automaton W) :
    Fails (setArcs s arcs) a (a.missing? (s :: arcs.toList.map (·.target))) := by
  have hsame : a.missing? (s :: arcs.toList.map (·.target)) =
      (a.missing? [s]).or ((a.missing? (arcs.toList.map (·.target))).or (a.missing? [s])) := by
    rw [← List.singleton_append, a.missing?_append]
    cases a.missing? [s] <;> simp
  rw [hsame]
  exact .after (checks_requireState s a) (.after (checks_forM_requireState _ _ a) (fails_changeState s _ a))

theorem fails_deleteStates (deleted : List Nat) (a : Automaton W) :
    Fails (deleteStates deleted) a (a.missing? deleted) := by
  have hcheck := checks_forM_requireState deleted id a
  rw [List.map_id] at hcheck
  rw [← Option.or_none (o := a.missing? deleted)]
  exact .after hcheck (fails_of_ok rfl)

theorem fails_setArc (s index : Nat) (arc : Arc W) (a : Automaton W) :
    Fails (setArc s index arc) a (refusal? (a.findArc s index)) := by
  cases hfind : a.findArc s index with
  | error e => exact fails_of_error (setArc_of_error hfind arc)
  | ok old =>
    have hs : s < a.size := Automaton.lt_size_of_mem (Array.mem_of_getElem? (getElem?_of_findArc hfind))
    have hset : setArc s index arc a =
        changeState s (fun state => { state with arcs := state.arcs.setIfInBounds index arc }) a := by
      rw [setArc, bind_of_ok (get_eq_ok a), hfind]
    rw [changeState_of_lt hs] at hset
    exact fails_of_ok hset

/-! ### Re-keying in steps -/

/-- Something that is looked up beside the automaton. -/
def lookUp (result : Except Error α) : Edit W α :=
  match result with
  | .ok x => pure x
  | .error e => throw e

/-- The arcs of a state with their labels re-keyed. -/
def relabelled (isource osource : Option SymbolTable) (target : SymbolTable) (s : Nat) (state : State W) :
    Except Error (List (Arc W)) :=
  state.arcs.toList.zipIdx.mapM fun (arc, index) => do
    Automaton.rekeySide osource target .output s index (← Automaton.rekeySide isource target .input s index arc)

/-- Re-keys the chosen sides of an automaton step by step. All labels are looked up before the first arc is
replaced. -/
def rekeySteps (target : SymbolTable) (input output : Bool) : Edit W Unit := do
  let a ← get
  let isource ← lookUp (a.rekeySource .input input)
  let osource ← lookUp (a.rekeySource .output output)
  let found ← lookUp (a.states.toList.zipIdx.mapM fun (state, s) => relabelled isource osource target s state)
  found.zipIdx.forM fun (arcs, s) => changeState s (·.withArcs arcs)
  if input then setSymbols .input (some target)
  if output then setSymbols .output (some target)

theorem forM_withArcs_append (found : List (List (Arc W))) (done rest : List (State W))
    (hlength : found.length = rest.length) (ha : a.states = (done ++ rest).toArray) :
    ((found.zipIdx done.length).forM fun x => changeState x.2 (·.withArcs x.1) : Edit W Unit) a =
      .ok () { a with
        states := (done ++ rest.zipWith State.withArcs found).toArray
        cache := if found.isEmpty then a.cache else {} } := by
  induction found generalizing done rest a with
  | nil =>
    obtain rfl := List.length_eq_zero_iff.1 hlength.symm
    rw [List.zipWith_nil_left, ← ha]
    rfl
  | cons arcs found ih =>
    cases rest with
    | nil => cases hlength
    | cons state rest =>
      have happend : ∀ states : List (State W), done ++ state.withArcs arcs :: states =
          (done ++ [state.withArcs arcs]) ++ states := by
        simp
      have hnext := ih (a := { a with states := (done ++ [state.withArcs arcs] ++ rest).toArray, cache := {} })
        (done ++ [state.withArcs arcs]) rest (Nat.succ.inj hlength) rfl
      rw [List.length_append, List.length_singleton] at hnext
      show (changeState done.length (·.withArcs arcs) >>= fun _ =>
        (found.zipIdx (done.length + 1)).forM _ : Edit W Unit) a = _
      rw [bind_of_ok (changeState_of_append ha _), List.zipWith_cons_cons, happend rest, happend (rest.zipWith _ _),
        hnext]
      cases found.isEmpty <;> rfl

theorem forM_withArcs {found : List (List (Arc W))} (hlength : found.length = a.states.toList.length) :
    (found.zipIdx.forM fun x => changeState x.2 (·.withArcs x.1) : Edit W Unit) a = .ok ()
      (if (a.states.toList.zipWith State.withArcs found).isEmpty then a
        else { a with states := (a.states.toList.zipWith State.withArcs found).toArray, cache := {} }) := by
  have hloop := forM_withArcs_append (a := a) found [] a.states.toList hlength (by simp)
  rw [List.length_nil, List.nil_append] at hloop
  rw [hloop]
  cases found with
  | nil =>
    have hnil : a.states = #[] := Array.toList_eq_nil_iff.1 (List.length_eq_zero_iff.1 hlength.symm)
    rw [List.zipWith_nil_right, ← hnil]
    rfl
  | cons arcs found =>
    cases hstates : a.states.toList with
    | nil =>
      rw [hstates] at hlength
      cases hlength
    | cons state states => rfl

/-- To look up states with other arcs is to look up the arcs. -/
theorem mapM_relabelled (isource osource : Option SymbolTable) (target : SymbolTable) (states : List (State W))
    (n : Nat) :
    ((states.zipIdx n).mapM fun x => do return x.1.withArcs (← relabelled isource osource target x.2 x.1)) =
      ((states.zipIdx n).mapM fun x => relabelled isource osource target x.2 x.1).map
        (states.zipWith State.withArcs) := by
  induction states generalizing n with
  | nil => rfl
  | cons state states ih =>
    rw [List.zipIdx_cons, List.mapM_cons, List.mapM_cons, ih]
    cases relabelled isource osource target n state with
    | error e => rfl
    | ok arcs =>
      cases (states.zipIdx (n + 1)).mapM fun x => relabelled isource osource target x.2 x.1 <;> rfl

theorem rekey_of_sources {isource osource : Option SymbolTable} {input output : Bool} (target : SymbolTable)
    (hinput : a.rekeySource .input input = .ok isource) (houtput : a.rekeySource .output output = .ok osource) :
    a.rekey target input output =
      (a.states.toList.zipIdx.mapM fun x => relabelled isource osource target x.2 x.1).map fun found =>
        let states := a.states.toList.zipWith State.withArcs found
        let replaced := if states.isEmpty then a else { a with states := states.toArray, cache := {} }
        let replaced := if input then replaced.withSymbols .input (some target) else replaced
        if output then replaced.withSymbols .output (some target) else replaced := by
  rw [Automaton.rekey, hinput, houtput]
  change ((a.states.toList.zipIdx.mapM fun x => do
    return x.1.withArcs (← relabelled isource osource target x.2 x.1)) >>= fun states => _) = _
  rw [mapM_relabelled]
  cases a.states.toList.zipIdx.mapM fun x => relabelled isource osource target x.2 x.1 <;> rfl

/-- Once all labels have been looked up, no step is refused. -/
theorem rekeySteps_eq (target : SymbolTable) (input output : Bool) (a : Automaton W) :
    rekeySteps target input output a = rekey target input output a := by
  rw [rekeySteps, bind_of_ok (get_eq_ok a), rekey]
  cases hinput : a.rekeySource .input input with
  | error e =>
    rw [Automaton.rekey, hinput]
    rfl
  | ok isource =>
    cases houtput : a.rekeySource .output output with
    | error e =>
      rw [Automaton.rekey, hinput, houtput]
      rfl
    | ok osource =>
      rw [rekey_of_sources target hinput houtput]
      show (lookUp (a.states.toList.zipIdx.mapM fun x => relabelled isource osource target x.2 x.1) >>=
        fun found => _ : Edit W Unit) a = _
      cases hfound : a.states.toList.zipIdx.mapM fun x => relabelled isource osource target x.2 x.1 with
      | error e => rfl
      | ok found =>
        have hlength : found.length = a.states.toList.length := by
          rw [← (mapM_eq_ok_iff.1 hfound).length_eq, List.length_zipIdx]
        show ((found.zipIdx.forM fun x => changeState x.2 (·.withArcs x.1)) >>= fun _ => _ : Edit W Unit) a = _
        rw [bind_of_ok (forM_withArcs hlength)]
        cases input <;> cases output <;> rfl

theorem fails_rekey (target : SymbolTable) (input output : Bool) (a : Automaton W) :
    Fails (rekey target input output) a (refusal? (a.rekey target input output)) := by
  cases h : a.rekey target input output with
  | error e => exact fails_of_error (by rw [rekey, h])
  | ok b => exact fails_of_ok (by rw [rekey, h])

/-! ### Epsilon removal -/

variable [Weight W] {D : Type} [Tolerance W D]

/-- Where no arc is epsilon, none is on a cycle of such arcs. -/
theorem weightedCycle?_of_no_epsilon (h : a.anyArc (·.isEpsilon) = false) (bound : D) :
    (EpsilonGraph.of a).weightedCycle? bound = none := by
  rw [weightedCycle?, List.find?_eq_none]
  intro s _ hs
  obtain ⟨arc, harc, -⟩ := List.any_eq_true.1 hs
  obtain ⟨hmem, hepsilon⟩ := List.mem_filter.1 harc
  have hany : a.anyArc (·.isEpsilon) = true := Automaton.anyArc_iff.2 ⟨s, arc, Array.mem_toList_iff.1 hmem, hepsilon⟩
  rw [h] at hany
  cases hany

theorem fails_removeEpsilons (hwf : a.WellFormed) (config : EpsilonRemoval D) :
    Fails (removeEpsilons config) a (((EpsilonGraph.of a).weightedCycle? config.bound).map .epsilonCycle) := by
  cases h : a.anyArc (·.isEpsilon) with
  | false =>
    rw [weightedCycle?_of_no_epsilon h]
    exact fails_of_ok (removeEpsilons_of_no_epsilon h config)
  | true =>
    cases hcycle : (EpsilonGraph.of a).weightedCycle? config.bound with
    | some s => exact fails_of_error (removeEpsilons_of_cycle h hcycle)
    | none => exact fails_of_ok (removeEpsilons_eq hwf.target_lt h hcycle)

end Edit

/-! ### All changes -/

variable {D : Type} [Weight W] [Costed W] [Tolerance W D]

/-- The single steps of a change, each of which may be refused on its own. -/
def Change.steps : Change W D → Edit W Unit
  | rekey target input output => Edit.rekeySteps target input output
  | change => change.edit

theorem Change.steps_eq (change : Change W D) (a : Automaton W) : change.steps a = change.edit a := by
  cases change with
  | rekey target input output => exact Edit.rekeySteps_eq target input output a
  | _ => rfl

/-- A change is refused if it has a fault, with this fault, and then the automaton is as it was. So it is if the
change is made step by step. -/
theorem Change.edit_eq_error_iff (hwf : a.WellFormed) {change : Change W D} {e : Error} :
    change.steps a = change.edit a ∧ (change.edit a = .error e b ↔ change.fault? a = some e ∧ b = a) := by
  refine ⟨change.steps_eq a, ?_⟩
  suffices Edit.Fails change.edit a (change.fault? a) from this e b
  cases change with
  | setStart s => exact Edit.fails_setStart s a
  | setFinal s weight => exact Edit.fails_changeState s _ a
  | deleteFinal s => exact Edit.fails_changeState s _ a
  | addArc s arc => exact Edit.fails_addArc s arc a
  | setArc s index arc => exact Edit.fails_setArc s index arc a
  | editArcs s f => exact Edit.fails_changeState s _ a
  | setArcs s arcs => exact Edit.fails_setArcs s arcs a
  | reserveArcs s count => exact Edit.fails_changeState s _ a
  | deleteArcs s => exact Edit.fails_changeState s _ a
  | deleteStates deleted => exact Edit.fails_deleteStates deleted a
  | rekey target input output => exact Edit.fails_rekey target input output a
  | removeEpsilons config => exact Edit.fails_removeEpsilons hwf config
  | read bytes =>
    simp only [Change.edit, Change.fault?]
    split
    · next b hb => rw [hb]; exact Edit.fails_of_ok rfl
    · next e he => rw [he]; exact Edit.fails_of_error rfl
  | _ => exact Edit.fails_of_ok rfl

/-- Two states with epsilon arcs to each other, one of which costs something, and arcs to a third state. A table is
attached, and the cache is not empty. -/
def seesaw : Automaton Tropical where
  states := #[{ arcs := #[⟨0, 0, 1, 1⟩, ⟨1, 2, 1, 2⟩] },
    { arcs := #[⟨0, 0, ⟨⟨0x3F800000⟩⟩, 0⟩, ⟨2, 0, 1, 2⟩] }, { final := some 1 }]
  start := some 0
  outputSymbols := some { name := "t", entries := [(2, "b")], availableKey := 3 }
  cache := { known := .all, value := .fact .epsilons true }

theorem edit_eq_error_iff_seesaw : seesaw.WellFormed ∧
    (Change.removeEpsilons ⟨true, Cost.tolerance⟩ : Change Tropical Single).edit seesaw =
      .error (.epsilonCycle 1) seesaw := by
  have hwf : seesaw.WellFormed := by decide
  exact ⟨hwf, (Change.edit_eq_error_iff hwf).2.2 ⟨by decide +kernel, rfl⟩⟩

end Transducer
