import Mathlib
import Transducer.Proofs.Automaton.Edit
import Transducer.Proofs.Automaton.Rekey
import Transducer.Proofs.Automaton.Results
import Transducer.Proofs.Property.Upkeep
import Transducer.Proofs.Weight.Costed

/-!
# Automata that are built are well-formed

An automaton is built by changes, from one without states or from one that was read, composed or made of best
paths. Whatever the changes are, and also if some of them are refused, the start and the targets of all arcs exist
and no state is final with the weight of no path (`wellFormed_of_built`). One change keeps that by
`Meets.edit`; what is read has it by `gives_proper`.

Two changes take the targets of arcs as they are. They are left to those who do not change where an arc leads
(`Change.KeepsTargets`).
-/

namespace Transducer

variable {W : Type} [Weight W] {a : Automaton W}

/-- All that is demanded of an arc is that its target exists. -/
theorem Arc.meets_proper {n : Nat} {arc : Arc W} (h : arc.target < n) : arc.Meets .proper n :=
  ⟨h, trivial, fun _ => trivial⟩

/-! ### Reading -/

section

open Binary

variable [Costed W]

omit [Weight W] [Costed W] in
theorem lt_of_startOf {size : Nat} {start : UInt32} {result : Option Nat} (h : startOf size start = .ok result) :
    ∀ s ∈ result, s < size := by
  unfold startOf at h
  split at h
  · obtain rfl := Except.ok.inj h
    exact nofun
  · split at h
    · cases h
    · next hle =>
      obtain rfl := Except.ok.inj h
      rintro _ ⟨⟩
      exact Nat.lt_of_not_le hle

theorem target_lt_of_arcOf {size s : Nat} {record : ArcRecord} {arc : Arc W} (h : arcOf size s record = .ok arc) :
    arc.target < size := by
  unfold arcOf at h
  dsimp only at h
  split at h
  · cases h
  · next hle =>
    obtain ⟨weight, -, h⟩ := bind_eq_ok.1 h
    obtain rfl := Except.ok.inj h
    exact Nat.lt_of_not_le hle

/-- There is a state for each record, and the targets of its arcs have been checked. -/
theorem statesOf_spec {size s : Nat} {records : List StateRecord} {arcs : List ArcRecord} {states : List (State W)}
    (h : statesOf size s records arcs = .ok states) :
    states.length = records.length ∧ ∀ state ∈ states, state.Meets .proper size := by
  induction records generalizing s arcs states with
  | nil =>
    obtain rfl := Except.ok.inj h
    exact ⟨rfl, fun state hstate => absurd hstate List.not_mem_nil⟩
  | cons record records ih =>
    obtain ⟨weight, -, h⟩ := bind_eq_ok.1 h
    obtain ⟨own, hown, h⟩ := bind_eq_ok.1 h
    obtain ⟨rest, hrest, h⟩ := bind_eq_ok.1 h
    obtain rfl := Except.ok.inj h
    obtain ⟨hlength, hmeets⟩ := ih hrest
    refine ⟨congrArg (· + 1) hlength, List.forall_mem_cons.2 ⟨?_, hmeets⟩⟩
    have harcs : ∀ arc ∈ own.toArray, arc.Meets .proper size := by
      intro arc harc
      obtain ⟨record, -, hrecord⟩ := exists_of_mem_right (mapM_eq_ok_iff.1 hown) (List.mem_toArray.1 harc)
      exact Arc.meets_proper (target_lt_of_arcOf hrecord)
    exact ((State.Meets.default .proper size).setArcs harcs).withFinal id

omit [Weight W] [Costed W] in
theorem length_pieces (size count : Nat) (bytes : List UInt8) :
    (Reader.pieces size count bytes).length = count := by
  induction count generalizing bytes with
  | zero => rfl
  | succ count ih => exact congrArg (· + 1) (ih _)

/-- As many records are read as there should be. -/
theorem gives_records (size count : Nat) :
    Gives (fun records => records.length = count) (Reader.records size count) :=
  .unless (.bind fun bytes => gives_pure (length_pieces size count bytes))

theorem gives_proper : Gives (fun a : Automaton W => a.Meets .proper) readAutomaton := by
  refine .bind fun ⟨header, kind⟩ => .unless (.bind fun isymbols => .bind fun osymbols => ?_)
  refine .bind_of (gives_records _ header.states.toNat) fun records hrecords => ?_
  refine .unless (.bind fun arcs => .bind fun cursor => .unless ?_)
  refine .bind_of (gives_lift fun states h => statesOf_spec h) fun states hstates => ?_
  refine .bind_of (gives_lift fun start h => lt_of_startOf h) fun start hstart => gives_pure ?_
  rw [← hrecords, ← List.length_map StateRecord.ofBytes, ← hstates.1] at hstart hstates
  exact ⟨fun hs => hstart _ hs, fun state hstate => hstates.2 state (List.mem_toArray.1 hstate)⟩

end

/-! ### Changes -/

/-- The arcs that take the place of others lead to where these have led. -/
def Change.KeepsTargets {D : Type} (a : Automaton W) : Change W D → Prop
  | .setArc s index arc => ∀ old, (a.arcsAt s)[index]? = some old → arc.target = old.target
  | .editArcs s f => ∀ arc ∈ f (a.arcsAt s), ∃ old ∈ a.arcsAt s, arc.target = old.target
  | _ => True

omit [Weight W] in
theorem getElem?_of_findArc {s index : Nat} {arc : Arc W} (h : a.findArc s index = .ok arc) :
    (a.arcsAt s)[index]? = some arc := by
  obtain ⟨arcs, harcs, h⟩ := bind_eq_ok.1 h
  obtain ⟨state, hstate, rfl⟩ := map_eq_ok.1 harcs
  unfold Automaton.findState at hstate
  split at hstate
  · next hget =>
    obtain rfl := Except.ok.inj hstate
    rw [Automaton.arcsAt, hget]
    split at h
    · next harc => exact harc.trans (congrArg some (Except.ok.inj h))
    · cases h
  · cases hstate

namespace Automaton.Meets

variable (h : a.Meets .proper)

include h

/-- A state is changed if it exists. -/
theorem stateAfter_changeState {s : Nat} {f : State W → State W}
    (hf : ∀ state, state.Meets .proper a.size → a.arcsAt s = state.arcs → (f state).Meets .proper a.size) :
    (stateAfter (Edit.changeState s f) a).Meets .proper := by
  rw [Edit.stateAfter_changeState]
  split
  · refine h.changeState fun state hstate => hf state (h.states state (Array.mem_of_getElem? hstate)) ?_
    rw [arcsAt, hstate]
  · exact h

theorem stateAfter_addStates (count : Nat) : (stateAfter (Edit.addStates count) a).Meets .proper := by
  show (if count = 0 then a else { a with states := a.states ++ Array.replicate count {}, cache := {} }).Meets _
  split
  · exact h
  · have hle : a.size ≤ (a.states ++ Array.replicate count ({} : State W)).size := by simp [size]
    refine ⟨fun hs => (h.start_lt hs).trans_le hle, fun state hstate => ?_⟩
    rcases Array.mem_append.1 hstate with hold | hnew
    · exact (h.states state hold).mono hle
    · obtain ⟨-, rfl⟩ := Array.mem_replicate.1 hnew
      exact .default _ _

theorem stateAfter_setStart (s : Nat) : (stateAfter (Edit.setStart s) a).Meets .proper := by
  rw [Edit.setStart, Edit.stateAfter_requireState]
  split
  · next hs => exact (h.withStart hs).congr rfl rfl
  · exact h

theorem stateAfter_addArc (s : Nat) (arc : Arc W) : (stateAfter (Edit.addArc s arc) a).Meets .proper := by
  rw [Edit.addArc, Edit.stateAfter_requireState]
  split
  · next htarget => exact h.stateAfter_changeState fun _ hstate _ => hstate.push (Arc.meets_proper htarget)
  · exact h

theorem stateAfter_setArcs (s : Nat) (arcs : Array (Arc W)) : (stateAfter (Edit.setArcs s arcs) a).Meets .proper := by
  rw [Edit.setArcs, Edit.stateAfter_requireState, Edit.stateAfter_forM_requireState]
  split
  · split
    · next htargets =>
      exact h.stateAfter_changeState fun _ hstate _ =>
        hstate.setArcs fun arc harc => Arc.meets_proper (htargets arc (Array.mem_toList_iff.2 harc))
    · exact h
  · exact h

theorem stateAfter_setArc {s index : Nat} {arc : Arc W}
    (hkeeps : ∀ old, (a.arcsAt s)[index]? = some old → arc.target = old.target) :
    (stateAfter (Edit.setArc s index arc) a).Meets .proper := by
  cases hfind : a.findArc s index with
  | error e =>
    rw [stateAfter_of_error (Edit.setArc_of_error hfind arc)]
    exact h
  | ok old =>
    have hold := getElem?_of_findArc hfind
    have htarget : arc.target < a.size := hkeeps old hold ▸ (h.arc (Array.mem_of_getElem? hold)).target_lt
    rw [Edit.stateAfter_setArc_of_ok hfind]
    refine h.stateAfter_changeState fun state hstate _ => hstate.setArcs fun other hother => ?_
    rcases Array.mem_or_eq_of_mem_setIfInBounds hother with hother | rfl
    · exact hstate.arcs other hother
    · exact Arc.meets_proper htarget

theorem stateAfter_deleteStates (deleted : List Nat) : (stateAfter (Edit.deleteStates deleted) a).Meets .proper := by
  rw [Edit.stateAfter_deleteStates]
  split
  · exact h.keep _
  · exact h

theorem stateAfter_rekey (target : SymbolTable) (input output : Bool) :
    (stateAfter (Edit.rekey target input output) a).Meets .proper := by
  unfold stateAfter Edit.rekey
  cases hb : a.rekey target input output with
  | error e => exact h
  | ok b => exact h.rekey hb fun _ _ _ _ => trivial

omit h in
/-- What one change makes of a well-formed automaton is well-formed, also if the change is refused. -/
theorem edit {D : Type} [Costed W] [Tolerance W D] [ProperOne W] (h : a.Meets .proper) {change : Change W D}
    (hkeeps : change.KeepsTargets a) : (stateAfter change.edit a).Meets .proper := by
  have hfinal : ∀ (s : Nat) (weight : W), (stateAfter (Edit.setFinal s weight) a).Meets .proper :=
    fun s weight => h.stateAfter_changeState fun _ hstate _ => hstate.withFinal id
  have hpath : ∀ (ilabels olabels : List Label) (weight : W), (a.addPath ilabels olabels weight).2.Meets .proper :=
    fun ilabels olabels weight => h.addPath Standard.closed_proper (fun _ _ => ⟨trivial, trivial⟩) trivial
  cases change with
  | addState => exact h.pushState (.default _ _)
  | addStates count => exact h.stateAfter_addStates count
  | reserveStates count => exact h
  | setStart s => exact h.stateAfter_setStart s
  | setFinal s weight => exact hfinal s weight
  | deleteFinal s => exact hfinal s 0
  | addArc s arc => exact h.stateAfter_addArc s arc
  | setArc s index arc => exact h.stateAfter_setArc hkeeps
  | editArcs s f =>
    refine h.stateAfter_changeState fun state hstate harcs => hstate.setArcs fun arc harc => ?_
    obtain ⟨old, hold, htarget⟩ := hkeeps arc (harcs ▸ harc)
    exact Arc.meets_proper (htarget ▸ (h.arc hold).target_lt)
  | setArcs s arcs => exact h.stateAfter_setArcs s arcs
  | reserveArcs s count => exact h.stateAfter_changeState fun _ hstate _ => hstate
  | deleteArcs s =>
    exact h.stateAfter_changeState fun _ hstate _ =>
      hstate.setArcs fun arc harc => absurd harc (Array.not_mem_empty arc)
  | deleteStates deleted => exact h.stateAfter_deleteStates deleted
  | deleteAll => exact .of_states_eq_empty rfl rfl
  | setSymbols side table => exact h.withSymbols side table
  | takeSymbols side => exact h.withSymbols side none
  | trim => exact h.trim
  | closure repetition => exact h.closure Standard.closed_proper repetition
  | project side => exact h.project side
  | sortArcs side => exact h.sortArcs side
  | rekey target input output => exact h.stateAfter_rekey target input output
  | removeEpsilons config => exact h.removeEpsilons Standard.closed_proper config
  | addPath ilabels olabels weight => exact hpath ilabels olabels weight
  | addText text => exact hpath _ _ _
  | addChars text => exact hpath _ _ _
  | addTextPair input output weight => exact hpath _ _ _
  | read bytes =>
    simp only [Change.edit]
    split
    · next b hb => exact Binary.of_ofBytes gives_proper hb
    · exact h

end Automaton.Meets

/-! ### Whole runs -/

section

variable {D : Type} [Costed W] [Tolerance W D]

/-- The automata that are built. What is known of them has no part in that. -/
inductive Built (D : Type) [Costed W] [Tolerance W D] : Automaton W → Prop where
  /-- There are no states yet. -/
  | empty : Built D .empty
  /-- An automaton is read. -/
  | read {bytes : List UInt8} {a : Automaton W} : Automaton.ofBytes bytes = .ok a → Built D a
  /-- Automata are composed. -/
  | compose {opts : Composition.Options} {operands operands' : Automaton W × Automaton W} {r : Automaton W} :
      compose opts operands = .ok r operands' → Built D r
  /-- The best paths of a well-formed automaton are listed. -/
  | bestPaths [Ranked W] {a r : Automaton W} {count : Nat} {bound : D} {steps : Nat} :
      a.WellFormed → a.bestPaths count bound steps = some r → Built D r
  /-- An automaton is changed, or the change is refused. -/
  | change {a : Automaton W} (change : Change W D) :
      Built D a → change.KeepsTargets a → Built D (stateAfter change.edit a)
  /-- Something is found out about an automaton, or learnt from another copy of it. -/
  | learn {a : Automaton W} (cache : PropertyCache) : Built D a → Built D { a with cache }

/-- Any number of changes may follow each other. -/
theorem Built.changes (h : Built D a) {changes : List (Change W D)}
    (hkeeps : ∀ change ∈ changes, ∀ a : Automaton W, change.KeepsTargets a) :
    Built D (changes.foldl (fun a change => stateAfter change.edit a) a) :=
  List.foldlRecOn (motive := Built D) changes _ h fun a ha change hchange =>
    .change change ha (hkeeps change hchange a)

/-- Whatever is built is well-formed. -/
theorem wellFormed_of_built [ProperOne W] (h : Built D a) : a.WellFormed := by
  rw [← Automaton.meets_proper_iff]
  induction h with
  | empty => exact .of_states_eq_empty rfl rfl
  | read h => exact Binary.of_ofBytes gives_proper h
  | compose h =>
    obtain ⟨c, whole, places, -, hcompletes, -, rfl | rfl⟩ := Composition.exists_completes_of_compose h
    · exact Automaton.meets_proper_iff.2 hcompletes.wellFormed
    · exact (Automaton.meets_proper_iff.2 hcompletes.wellFormed).trim
  | bestPaths ha h =>
    exact (Automaton.meets_bestPaths (Automaton.meets_proper_iff.2 ha) Standard.closed_proper h).1
  | change change _ hkeeps ih => exact ih.edit hkeeps
  | learn cache _ ih => exact ih.congr rfl rfl

end

/-- A start, a target and a state to be deleted do not exist, and a state is made final with the weight of no
path. -/
def attempts : List (Change Tropical Single) :=
  [.addStates 3, .setStart 0, .setStart 7, .addArc 0 ⟨1, 2, 1, 2⟩, .addArc 0 ⟨1, 2, 1, 9⟩, .setFinal 2 1,
    .setFinal 1 0, .deleteStates [1, 5], .deleteStates [1]]

/-- At last the only arc, which leads to another state now, is edited where it stands. -/
theorem wellFormed_of_built_attempts :
    (stateAfter (Change.setArc 0 0 ⟨3, 4, 1, 1⟩ : Change Tropical Single).edit
      (attempts.foldl (fun a change => stateAfter change.edit a) (.empty : Automaton Tropical))).WellFormed := by
  have hattempts : Built Single
      (attempts.foldl (fun a change => stateAfter change.edit a) (.empty : Automaton Tropical)) :=
    Built.empty.changes (by simp [attempts, Change.KeepsTargets])
  have harcs : (attempts.foldl (fun a change => stateAfter change.edit a) (.empty : Automaton Tropical)).arcsAt 0 =
      #[⟨1, 2, 1, 1⟩] := by
    decide +kernel
  refine wellFormed_of_built (.change _ hattempts fun old hold => ?_)
  rw [harcs] at hold
  obtain rfl := Option.some.inj hold
  rfl

end Transducer
