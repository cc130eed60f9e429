import Mathlib
import Transducer.Proofs.Automaton.Edit
import Transducer.Proofs.Binary.Outline
import Transducer.Proofs.Binary.Scanner

/-!
# Reading is safe

A program that reads stored data step by step goes through the bytes by their places, and puts the automaton
together by the edits that everyone else uses: it adds the states, makes them final, cuts the arcs of each of them
out of all arcs, adds these one by one, and sets the start and the symbol tables (`scan`). It could break down in
more ways than data can be malformed: a place may lie outside the data or the arcs, a number may get too large, an
edit may be refused.

None of that happens, whatever the bytes are. The program ends as reading does (`scan_eq`), in a fault of the data
or with an automaton that is `Intact` (`ofBytes_malformed_or_intact`). The loop over the states carries the
invariant: those that it has passed are the states that are read, and the others are as they were added.
-/

namespace Transducer.Binary

/-! ### The program -/

section

variable {W : Type}

/-- A program that changes an automaton. -/
abbrev Assembler (W α : Type) := StateT (Automaton W) (Except Breakdown) α

namespace Assembler

/-- Makes an edit, which must not be refused. -/
def perform {α : Type} (edit : Edit W α) : Assembler W α := fun a =>
  match edit a with
  | .ok x b => .ok (x, b)
  | .error e _ => .error (.refused e)

/-- Refuses the data if there is a fault. -/
def require {α : Type} (result : Except Malformation α) : Assembler W α :=
  liftM (result.mapError Breakdown.malformed)

variable [Weight W] [Costed W]

/-- Makes a state final, unless the weight is that of no path. -/
def finish (s : Nat) (weight : W) : Assembler W Unit :=
  if isZero weight then pure () else perform (Edit.setFinal s weight)

/-- Adds the arc of a record to a state. -/
def addRecord (size s : Nat) (record : ArcRecord) : Assembler W Unit := do
  let arc ← require (arcOf size s record)
  perform (Edit.addArc s arc)

/-- Fills a state, with the arcs of the records from `first` on. -/
def fillState (size : Nat) (arcs : List ArcRecord) (s first : Nat) (record : StateRecord) : Assembler W Unit := do
  let weight ← require (weightOf (.finalWeight s record.final) record.final)
  finish s weight
  perform (Edit.reserveArcs s)
  let own ← slice arcs first record.arcs.toNat
  own.forM (addRecord size s)

/-- Fills the states from `s` on. -/
def fillStates (size : Nat) (arcs : List ArcRecord) : Nat → Nat → List StateRecord → Assembler W Unit
  | _, _, [] => return
  | s, first, record :: records => do
    fillState size arcs s first record
    fillStates size arcs (s + 1) (first + record.arcs.toNat) records

/-- Sets what belongs to no state. -/
def attach (s : Sections) : Assembler W Unit := do
  match ← require (startOf s.header.states.toNat s.header.start) with
  | some start => perform (Edit.setStart start)
  | none => pure ()
  perform (Edit.setSymbols .input s.inputSymbols)
  perform (Edit.setSymbols .output s.outputSymbols)

/-- Makes the automaton of the sections of one without states. -/
def assemble (s : Sections) : Assembler W Unit := do
  let _ ← perform (Edit.addStates s.header.states.toNat)
  fillStates s.header.states.toNat s.arcs 0 0 s.states
  attach s

end Assembler

/-- The automaton that the bytes store, found by going through them place by place. -/
def scan [Weight W] [Costed W] (bytes : List UInt8) : Except Breakdown (Automaton W) := do
  let (sections, _) ← Scanner.sections (Costed.kind W) bytes 0
  let (_, a) ← Assembler.assemble sections .empty
  return a

end

/-! ### States that are filled one by one -/

/-- The automaton with these states and nothing else. -/
def bare {W : Type} (states : List (State W)) : Automaton W := { states := states.toArray }

section

variable {W α β : Type} {a b : Automaton W} {done rest : List (State W)} {state : State W} {size s : Nat}

theorem perform_bind_of_ok {edit : Edit W α} {x : α} {next : α → Assembler W β} (h : edit a = .ok x b) :
    (Assembler.perform edit >>= next) a = next x b := by
  show (Assembler.perform edit a >>= fun result => next result.1 result.2) = _
  rw [Assembler.perform, h]
  rfl

theorem assembler_bind {assembler : Assembler W α} {next : α → Assembler W β} :
    (assembler >>= next) a = assembler a >>= fun result => next result.1 result.2 :=
  rfl

theorem assembler_bind_of_ok {assembler : Assembler W α} {x : α} {next : α → Assembler W β}
    (h : assembler a = .ok (x, b)) : (assembler >>= next) a = next x b := by
  show (assembler a >>= fun result => next result.1 result.2) = _
  rw [h]
  rfl

theorem assembler_step_bind {step : Except Breakdown α} {next : α → Assembler W β} :
    (liftM step >>= next) a = step >>= fun x => next x a := by
  cases step <;> rfl

theorem require_bind {result : Except Malformation α} {next : α → Assembler W β} :
    (Assembler.require result >>= next) a = (result.mapError .malformed) >>= fun x => next x a := by
  cases result <;> rfl

/-- The next state to be filled comes after those that have been. -/
theorem changeState_bare (done : List (State W)) (state : State W) (rest : List (State W)) (f : State W → State W) :
    Edit.changeState done.length f (bare (done ++ state :: rest)) = .ok () (bare (done ++ f state :: rest)) :=
  Edit.changeState_of_append rfl f

theorem reserveArcs_bare (done : List (State W)) (state : State W) (rest : List (State W)) :
    Edit.reserveArcs done.length (bare (done ++ state :: rest)) = .ok () (bare (done ++ state :: rest)) :=
  changeState_bare done state rest id

theorem addArc_bare (done : List (State W)) (state : State W) (rest : List (State W)) {arc : Arc W}
    (h : arc.target < done.length + 1 + rest.length) :
    Edit.addArc done.length arc (bare (done ++ state :: rest)) =
      .ok () (bare (done ++ state.push arc :: rest)) := by
  have htarget : arc.target < (bare (done ++ state :: rest)).size := by simp [bare, Automaton.size]; omega
  rw [Edit.addArc, Edit.bind_of_ok (Edit.requireState_of_lt htarget)]
  exact changeState_bare done state rest (·.push arc)

variable [Weight W] [Costed W]

/-- The arcs of a state are added one by one, and none of them is refused. -/
theorem addRecords_bare (own : List ArcRecord) (done : List (State W)) (state : State W) (rest : List (State W))
    (hsize : size = done.length + 1 + rest.length) :
    own.forM (Assembler.addRecord size done.length) (bare (done ++ state :: rest)) =
      ((own.mapM (arcOf size done.length)).mapError Breakdown.malformed).map fun arcs =>
        ((), bare (done ++ { state with arcs := state.arcs ++ arcs.toArray } :: rest)) := by
  induction own generalizing state with
  | nil =>
    rw [List.mapM_nil]
    show _ = Except.ok ((), bare (done ++ { state with arcs := state.arcs ++ #[] } :: rest))
    rw [Array.append_empty]
    rfl
  | cons record own ih =>
    show ((Assembler.require (arcOf size done.length record) >>= fun arc =>
      Assembler.perform (Edit.addArc done.length arc)) >>= fun _ => own.forM _ : Assembler W Unit) _ = _
    rw [bind_assoc, require_bind, List.mapM_cons]
    cases harc : (arcOf size done.length record : Except Malformation (Arc W)) with
    | error m => rfl
    | ok arc =>
      have htarget := target_lt_of_arcOf harc
      show (Assembler.perform (Edit.addArc done.length arc) >>= fun _ => own.forM _ : Assembler W Unit) _ = _
      rw [perform_bind_of_ok (addArc_bare done state rest (hsize ▸ htarget)), ih]
      cases (own.mapM (arcOf size done.length) : Except Malformation (List (Arc W))) with
      | error m => rfl
      | ok arcs =>
        show Except.ok ((), bare (done ++ { state with arcs := state.arcs.push arc ++ arcs.toArray } :: rest)) =
          Except.ok ((), bare (done ++ { state with arcs := state.arcs ++ (arc :: arcs).toArray } :: rest))
        simp

omit [Costed W] in
theorem finish_bare (done rest : List (State W)) (weight : W) :
    Assembler.finish done.length weight (bare (done ++ {} :: rest)) =
      .ok ((), bare (done ++ { final := if isZero weight then none else some weight } :: rest)) := by
  unfold Assembler.finish
  split
  · rfl
  · next hzero =>
    rw [Assembler.perform, Edit.setFinal, changeState_bare, State.withFinal, if_neg hzero]

/-- The state of a record, with the first of the arcs. -/
def stateOf (size s : Nat) (record : StateRecord) (arcs : List ArcRecord) : Except Malformation (State W) := do
  let weight ← weightOf (.finalWeight s record.final) record.final
  let own ← (arcs.take record.arcs.toNat).mapM (arcOf size s)
  return { final := if isZero weight then none else some weight, arcs := own.toArray }

theorem statesOf_cons (size s : Nat) (record : StateRecord) (records : List StateRecord) (arcs : List ArcRecord) :
    statesOf (W := W) size s (record :: records) arcs = do
      let state ← stateOf size s record arcs
      let states ← statesOf size (s + 1) records (arcs.drop record.arcs.toNat)
      return state :: states := by
  simp only [statesOf, stateOf, bind_assoc, pure_bind]

/-- A state is filled with what stands in its record. The records of its arcs are there, and no edit is refused. -/
theorem fillState_bare (record : StateRecord) (arcs : List ArcRecord) (first : Nat) (done rest : List (State W))
    (hfirst : first + record.arcs.toNat ≤ arcs.length) (hsize : size = done.length + 1 + rest.length) :
    Assembler.fillState size arcs done.length first record (bare (done ++ {} :: rest)) =
      ((stateOf size done.length record (arcs.drop first)).mapError Breakdown.malformed).map fun state =>
        ((), bare (done ++ state :: rest)) := by
  rw [Assembler.fillState, stateOf, require_bind]
  cases (weightOf (.finalWeight done.length record.final) record.final : Except Malformation W) with
  | error m => rfl
  | ok weight =>
    show (Assembler.finish done.length weight >>= fun _ => _ : Assembler W Unit) _ = _
    rw [assembler_bind_of_ok (finish_bare done rest weight), perform_bind_of_ok (reserveArcs_bare done _ rest),
      assembler_step_bind, slice_of_le hfirst]
    show (List.forM _ _ : Assembler W Unit) _ = Except.map _ (Except.mapError _ (_ >>= fun own => _))
    rw [addRecords_bare _ done _ rest hsize]
    cases (((arcs.drop first).take record.arcs.toNat).mapM (arcOf size done.length) :
        Except Malformation (List (Arc W))) with
    | error m => rfl
    | ok own =>
      show Except.ok ((), bare (done ++ { final := _, arcs := #[] ++ own.toArray } :: rest)) = _
      rw [Array.empty_append]
      rfl

/-- The states are filled one after the other, each with the next records, as long as no more of these are announced
than there are. -/
theorem fillStates_bare (records : List StateRecord) (arcs : List ArcRecord) (first : Nat) (done : List (State W))
    (hfirst : first + announced records ≤ arcs.length) (hsize : size = done.length + records.length) :
    Assembler.fillStates size arcs done.length first records
        (bare (done ++ List.replicate records.length ({} : State W))) =
      ((statesOf size done.length records (arcs.drop first)).mapError Breakdown.malformed).map fun states =>
        ((), bare (done ++ states)) := by
  induction records generalizing first done with
  | nil => rfl
  | cons record records ih =>
    rw [announced_cons] at hfirst
    rw [List.length_cons] at hsize ⊢
    have hrest : (List.replicate records.length ({} : State W)).length = records.length := List.length_replicate
    rw [Assembler.fillStates, statesOf_cons, List.replicate_succ, assembler_bind,
      fillState_bare record arcs first done _ (by omega) (by omega), List.drop_drop]
    cases (stateOf size done.length record (arcs.drop first) : Except Malformation (State W)) with
    | error m => rfl
    | ok state =>
      have happend : ∀ states : List (State W), done ++ state :: states = (done ++ [state]) ++ states := by simp
      have hlength : (done ++ [state]).length = done.length + 1 := List.length_append
      have hnext := ih (first + record.arcs.toNat) (done ++ [state]) (by omega) (by omega)
      rw [hlength, ← happend] at hnext
      show Assembler.fillStates size arcs (done.length + 1) (first + record.arcs.toNat) records _ = _
      rw [hnext]
      cases (statesOf size (done.length + 1) records (arcs.drop (first + record.arcs.toNat)) :
          Except Malformation (List (State W))) with
      | error m => rfl
      | ok states => exact congrArg (fun states => Except.ok ((), bare states)) (happend states).symm

omit [Weight W] [Costed W] in
/-- The start has been checked when it is set. -/
theorem attach_bare {s : Sections} {states : List (State W)} (hlength : states.length = s.header.states.toNat) :
    Assembler.attach s (bare states) =
      ((startOf s.header.states.toNat s.header.start).mapError Breakdown.malformed).map fun start =>
        ((), { states := states.toArray, start, inputSymbols := s.inputSymbols,
               outputSymbols := s.outputSymbols }) := by
  rw [Assembler.attach, require_bind]
  cases hstart : startOf s.header.states.toNat s.header.start with
  | error m => rfl
  | ok start =>
    cases start with
    | none => rfl
    | some start =>
      have hlt : start < (bare states).size := (lt_of_startOf hstart start rfl).trans_eq hlength.symm
      have hset : Edit.setStart start (bare states) = .ok () { bare states with start := some start } := by
        rw [Edit.setStart, Edit.bind_of_ok (Edit.requireState_of_lt hlt)]
        rfl
      show (Assembler.perform (Edit.setStart start) >>= fun _ => _ : Assembler W Unit) (bare states) = _
      rw [perform_bind_of_ok hset]
      rfl

/-- The automaton that is assembled is the one that is read, as far as the counts of the sections agree. -/
theorem assemble_eq {s : Sections} (hlength : s.states.length = s.header.states.toNat)
    (hannounced : announced s.states ≤ s.arcs.length) : Assembler.assemble s (.empty : Automaton W) =
      (s.automaton.mapError Breakdown.malformed).map fun a => ((), a) := by
  have hadd : Edit.addStates s.header.states.toNat (.empty : Automaton W) =
      .ok (0, 0 + s.header.states.toNat) (bare (List.replicate s.states.length {})) := by
    rw [Edit.addStates, hlength]
    split
    · next hzero => rw [hzero]; rfl
    · rw [bare, List.toArray_replicate, Automaton.empty, Array.empty_append]
      rfl
  have hfill : Assembler.fillStates s.header.states.toNat s.arcs 0 0 s.states
      (bare (List.replicate s.states.length ({} : State W))) =
        ((statesOf s.header.states.toNat 0 s.states s.arcs).mapError Breakdown.malformed).map fun states =>
          ((), bare states) :=
    fillStates_bare s.states s.arcs 0 [] (by omega) (hlength.symm.trans (Nat.zero_add _).symm)
  rw [Assembler.assemble, perform_bind_of_ok hadd, assembler_bind, hfill, Sections.automaton]
  cases hstates : (statesOf s.header.states.toNat 0 s.states s.arcs : Except Malformation (List (State W))) with
  | error m => rfl
  | ok states =>
    show Assembler.attach s (bare states) = _
    rw [attach_bare ((statesOf_spec hstates).1.trans hlength)]
    cases startOf s.header.states.toNat s.header.start <;> rfl

/-- Whatever the bytes are, going through them place by place ends as reading them does. -/
theorem scan_eq (bytes : List UInt8) : (scan bytes : Except Breakdown (Automaton W)) =
    (readSections (Costed.kind W) ⟨bytes, 0⟩ >>= fun result => result.1.automaton).mapError .malformed := by
  rw [scan]
  have hmatches := matches_sections (Costed.kind W) bytes
  generalize Scanner.sections (Costed.kind W) bytes 0 = found at hmatches
  generalize hread : readSections (Costed.kind W) ⟨bytes, 0⟩ = found' at hmatches
  cases hmatches with
  | error m => rfl
  | ok s hplace =>
    obtain ⟨o, hlaid⟩ := exists_laidOut hread
    show (Assembler.assemble s .empty >>= fun result => pure result.2) = s.automaton.mapError .malformed
    rw [assemble_eq hlaid.length_states hlaid.length_arcs.ge]
    cases s.automaton (W := W) <;> rfl

end

end Transducer.Binary

namespace Transducer.Automaton

variable {W : Type} [Weight W] [Costed W]

/-- What holds of every automaton that is read. -/
structure Intact (a : Automaton W) : Prop where
  start_lt : ∀ s ∈ a.start, s < a.size
  target_lt : ∀ state ∈ a.states, ∀ arc ∈ state.arcs, arc.target < a.size
  isMember_final : ∀ state ∈ a.states, ∀ weight ∈ state.final, isMember weight = true
  isMember_arc : ∀ state ∈ a.states, ∀ arc ∈ state.arcs, isMember arc.weight = true
  findKey_iff : ∀ side, ∀ table ∈ a.symbols side, ∀ symbol key,
    table.findKey symbol = .ok key ↔ table.findSymbol key = .ok symbol
  covers : ∀ side, ∀ table ∈ a.symbols side, ∀ symbol key, table.findSymbol key = .ok symbol →
    key < table.availableKey ∨ key = SymbolTable.lastKey ∧ table.availableKey = SymbolTable.lastKey

theorem intact_of_ofBytes {bytes : List UInt8} {a : Automaton W} (h : ofBytes bytes = .ok a) : a.Intact := by
  obtain ⟨hstart, htarget, -⟩ := wellFormed_iff.1 (wellFormed_of_ofBytes h)
  have hmembers := members_of_ofBytes h
  have hsound := soundSymbols_of_ofBytes h
  refine ⟨hstart, htarget, hmembers.final, hmembers.arc, fun side table htable symbol key => ?_,
    fun side table htable symbol key hfind => ?_⟩
  · rw [SymbolTable.findKey_eq_ok_iff, SymbolTable.findSymbol_eq_ok_iff,
      (hsound side table htable).key?_eq_some_iff, (hsound side table htable).symbol?_eq_some_iff]
  · rw [SymbolTable.findSymbol_eq_ok_iff, (hsound side table htable).symbol?_eq_some_iff] at hfind
    exact (hsound side table htable).covers _ hfind

/-- Bytes are refused for a fault of theirs, or an intact automaton with weights of the right kind is read from
them. Nothing else happens when they are gone through place by place. -/
theorem ofBytes_malformed_or_intact (bytes : List UInt8) :
    (∃ m, (Binary.scan bytes : Except Binary.Breakdown (Automaton W)) = .error (.malformed m) ∧
      (ofBytes bytes : Except Error (Automaton W)) = .error (.format m)) ∨
    ∃ a header, (Binary.scan bytes : Except Binary.Breakdown (Automaton W)) = .ok a ∧ ofBytes bytes = .ok a ∧
      Binary.headerOf bytes = .ok (header, Costed.kind W) ∧ header.weights = (Costed.kind W).tag ∧ a.Intact := by
  cases hread : (Binary.readSections (Costed.kind W) ⟨bytes, 0⟩ >>= fun result => result.1.automaton (W := W)) with
  | error m =>
    left
    refine ⟨m, ?_, ?_⟩
    · rw [Binary.scan_eq, hread]
      rfl
    · rw [Binary.ofBytes_eq, hread]
      rfl
  | ok a =>
    right
    have ha : ofBytes bytes = .ok a := by
      rw [Binary.ofBytes_eq, hread]
      rfl
    have hscan : Binary.scan bytes = .ok a := by
      rw [Binary.scan_eq, hread]
      rfl
    obtain ⟨⟨s, cursor⟩, hsections, -⟩ := bind_eq_ok.1 hread
    obtain ⟨c₁, _, _, _, _, _, hheader, -⟩ := Binary.exists_of_readSections hsections
    obtain ⟨-, -, -, hweights⟩ := Binary.rest_of_readHeader hheader
    refine ⟨a, s.header, hscan, ha, ?_, hweights, intact_of_ofBytes ha⟩
    rw [Binary.headerOf, StateT.run, hheader]
    rfl

end Transducer.Automaton
