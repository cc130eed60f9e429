import Mathlib
import Transducer.Proofs.Automaton.Built
import Transducer.Proofs.Binary.RoundTrip
import Transducer.Proofs.SymbolTable.History

/-!
# The sections of stored data

Reading an automaton has two stages. First all bytes are taken, section by section: the header, the symbol tables,
the records of the states and those of the arcs (`readSections`). Then the automaton is put together from the
sections, which takes no bytes (`Sections.automaton`). That these are the two stages is `readAutomaton_eq`; in
between nothing can go wrong but what either of them refuses (`ofBytes_eq`).

`exists_of_readSections` takes the first stage apart, `of_automaton` the second one. What is read is a well-formed
automaton that has proper weights and sound symbol tables.
-/

namespace Transducer.Binary

/-! ### The two stages -/

/-- What is read of an automaton before it is put together. -/
structure Sections where
  header : Header
  inputSymbols : Option SymbolTable
  outputSymbols : Option SymbolTable
  states : List StateRecord
  arcs : List ArcRecord

/-- The number of arcs that the records of some states announce. -/
def announced (states : List StateRecord) : Nat :=
  states.foldl (fun count record => count + record.arcs.toNat) 0

theorem announced_cons (record : StateRecord) (records : List StateRecord) :
    announced (record :: records) = record.arcs.toNat + announced records := by
  rw [announced, announced, ← List.foldl_map (f := fun record : StateRecord => record.arcs.toNat) (g := (· + ·)),
    ← List.foldl_map (f := fun record : StateRecord => record.arcs.toNat) (g := (· + ·)), ← List.sum_eq_foldl,
    ← List.sum_eq_foldl, List.map_cons, List.sum_cons]

/-- The sections of an automaton with weights of the given kind. They take up all the data. -/
def readSections (kind : WeightKind) : Reader Sections := do
  let (header, found) ← readHeader
  if found ≠ kind then throw (.otherKind found kind)
  let inputSymbols ← Reader.symbols header.flags .input
  let outputSymbols ← Reader.symbols header.flags .output
  let states := (← Reader.records stateRecordSize header.states.toNat).map StateRecord.ofBytes
  if announced states ≠ header.arcs.toNat then throw (.arcCount header.arcs.toNat (announced states))
  let arcs := (← Reader.records arcRecordSize (announced states)).map ArcRecord.ofBytes
  let left := (← get).rest.length
  if left ≠ 0 then throw (.trailing left)
  return { header, inputSymbols, outputSymbols, states, arcs }

section

variable {W : Type} [Weight W] [Costed W]

/-- The automaton that is put together from the sections. -/
def Sections.automaton (s : Sections) : Except Malformation (Automaton W) := do
  let states ← statesOf s.header.states.toNat 0 s.states s.arcs
  let start ← startOf s.header.states.toNat s.header.start
  return { states := states.toArray, start, inputSymbols := s.inputSymbols, outputSymbols := s.outputSymbols }

theorem liftM_automaton (s : Sections) : (liftM s.automaton : Reader (Automaton W)) = do
    let states ← statesOf s.header.states.toNat 0 s.states s.arcs
    let start ← startOf s.header.states.toNat s.header.start
    return { states := states.toArray, start, inputSymbols := s.inputSymbols,
             outputSymbols := s.outputSymbols } := by
  unfold Sections.automaton
  cases statesOf (W := W) s.header.states.toNat 0 s.states s.arcs with
  | error e => rfl
  | ok states => cases startOf s.header.states.toNat s.header.start <;> rfl

/-- Refuses the data if there is a fault. -/
def refuse (fault : Prop) [Decidable fault] (e : Malformation) : Reader PUnit :=
  if fault then throw e else pure ⟨⟩

theorem unless_eq {α : Type} {reader : Reader α} {fault : Prop} [Decidable fault] {e : Malformation} :
    (if fault then do let _ ← (throw e : Reader PUnit); reader else reader) =
      refuse fault e >>= fun _ => reader := by
  unfold refuse
  split <;> rfl

theorem readAutomaton_eq :
    readAutomaton (W := W) = readSections (Costed.kind W) >>= fun sections => liftM sections.automaton := by
  unfold readAutomaton readSections
  simp only [unless_eq, bind_assoc, pure_bind, liftM_automaton]
  rfl

/-- What is read is put together from the sections, unless either is refused. -/
theorem ofBytes_eq (bytes : List UInt8) : (Automaton.ofBytes bytes : Except Error (Automaton W)) =
    (readSections (Costed.kind W) ⟨bytes, 0⟩ >>= fun result => result.1.automaton).mapError .format := by
  rw [Automaton.ofBytes, readAutomaton_eq]
  show (Except.map _ (readSections (Costed.kind W) ⟨bytes, 0⟩ >>= fun result =>
    (liftM result.1.automaton : Reader (Automaton W)) result.2)).mapError _ = _
  cases readSections (Costed.kind W) ⟨bytes, 0⟩ with
  | error e => rfl
  | ok result =>
    show (Except.map _ ((liftM result.1.automaton : Reader (Automaton W)) result.2)).mapError _ =
      Except.mapError _ result.1.automaton
    cases result.1.automaton (W := W) <;> rfl

theorem ofBytes_eq_ok_iff {bytes : List UInt8} {a : Automaton W} : Automaton.ofBytes bytes = .ok a ↔
    ∃ s cursor, readSections (Costed.kind W) ⟨bytes, 0⟩ = .ok (s, cursor) ∧ s.automaton = .ok a := by
  rw [ofBytes_eq]
  cases readSections (Costed.kind W) ⟨bytes, 0⟩ with
  | error e => exact ⟨nofun, nofun⟩
  | ok result =>
    show Except.mapError _ result.1.automaton = _ ↔ _
    cases h : result.1.automaton (W := W) with
    | error e =>
      refine ⟨nofun, ?_⟩
      rintro ⟨_, _, ⟨⟩, ha⟩
      rw [h] at ha
      cases ha
    | ok b =>
      constructor
      · rintro ⟨⟩
        exact ⟨_, _, rfl, h⟩
      · rintro ⟨_, _, ⟨⟩, ha⟩
        exact congrArg _ (h.symm.trans ha)

end

/-! ### What has been read -/

section

variable {α β : Type} {reader : Reader α} {next : α → Reader β} {fault : Prop} [Decidable fault] {e : Malformation}
  {cursor cursor' : Cursor} {y : β}

theorem reader_bind_eq_ok : (reader >>= next) cursor = .ok (y, cursor') ↔
    ∃ x between, reader cursor = .ok (x, between) ∧ next x between = .ok (y, cursor') := by
  show (reader cursor >>= fun result => next result.1 result.2) = _ ↔ _
  rw [bind_eq_ok]
  exact Prod.exists

theorem refuse_bind_eq_ok {after : PUnit → Reader β} : (refuse fault e >>= after) cursor = .ok (y, cursor') ↔
    ¬fault ∧ after ⟨⟩ cursor = .ok (y, cursor') := by
  unfold refuse
  split
  · next h => exact ⟨nofun, fun hok => absurd h hok.1⟩
  · next h => exact ⟨fun hok => ⟨h, hok⟩, fun hok => hok.2⟩

theorem rest_of_take {count : Nat} {bytes : List UInt8} (h : Reader.take count cursor = .ok (bytes, cursor')) :
    cursor.rest = bytes ++ cursor'.rest ∧ bytes.length = count := by
  unfold Reader.take at h
  dsimp only at h
  split at h
  · cases h
  · next henough =>
    cases h
    exact ⟨(List.take_append_drop count cursor.rest).symm, List.length_take_of_le (Nat.not_lt.1 henough)⟩

end

/-- The sections are read one after the other, and nothing is left. -/
theorem exists_of_readSections {kind : WeightKind} {s : Sections} {cursor cursor' : Cursor}
    (h : readSections kind cursor = .ok (s, cursor')) :
    ∃ c₁ c₂ c₃ c₄ states arcs, readHeader cursor = .ok ((s.header, kind), c₁) ∧
      Reader.symbols s.header.flags .input c₁ = .ok (s.inputSymbols, c₂) ∧
      Reader.symbols s.header.flags .output c₂ = .ok (s.outputSymbols, c₃) ∧
      Reader.records stateRecordSize s.header.states.toNat c₃ = .ok (states, c₄) ∧
      s.states = states.map StateRecord.ofBytes ∧ announced s.states = s.header.arcs.toNat ∧
      Reader.records arcRecordSize (announced s.states) c₄ = .ok (arcs, cursor') ∧
      s.arcs = arcs.map ArcRecord.ofBytes ∧ cursor'.rest = [] := by
  unfold readSections at h
  simp only [unless_eq] at h
  obtain ⟨⟨header, found⟩, c₁, hheader, h⟩ := reader_bind_eq_ok.1 h
  obtain ⟨hkind, h⟩ := refuse_bind_eq_ok.1 h
  obtain ⟨input, c₂, hinput, h⟩ := reader_bind_eq_ok.1 h
  obtain ⟨output, c₃, houtput, h⟩ := reader_bind_eq_ok.1 h
  obtain ⟨states, c₄, hstates, h⟩ := reader_bind_eq_ok.1 h
  obtain ⟨hcount, h⟩ := refuse_bind_eq_ok.1 h
  obtain ⟨arcs, c₅, harcs, h⟩ := reader_bind_eq_ok.1 h
  obtain ⟨_, _, ⟨⟩, h⟩ := reader_bind_eq_ok.1 h
  obtain ⟨hleft, h⟩ := refuse_bind_eq_ok.1 h
  cases h
  obtain rfl := not_not.1 hkind
  exact ⟨c₁, c₂, c₃, c₄, states, arcs, hheader, hinput, houtput, hstates, rfl, not_not.1 hcount, harcs, rfl,
    List.length_eq_zero_iff.1 (not_not.1 hleft)⟩

/-! ### What is read -/

section

variable {W : Type} [Weight W] [Costed W]

theorem of_automaton {s : Sections} {a : Automaton W} (h : s.automaton = .ok a) :
    statesOf s.header.states.toNat 0 s.states s.arcs = .ok a.states.toList ∧
      startOf s.header.states.toNat s.header.start = .ok a.start ∧
      a.inputSymbols = s.inputSymbols ∧ a.outputSymbols = s.outputSymbols := by
  obtain ⟨states, hstates, h⟩ := bind_eq_ok.1 h
  obtain ⟨start, hstart, ⟨⟩⟩ := bind_eq_ok.1 h
  exact ⟨hstates, hstart, rfl, rfl⟩

theorem weightOf_eq_ok_iff {fault : Malformation} {cost : Single} {weight : W} :
    weightOf fault cost = .ok weight ↔ Costed.ofCost cost = weight ∧ isMember weight = true := by
  unfold weightOf
  dsimp only
  split
  · next hmember =>
    constructor
    · rintro ⟨⟩
      exact ⟨rfl, hmember⟩
    · rintro ⟨rfl, -⟩
      rfl
  · next hmember =>
    refine ⟨nofun, ?_⟩
    rintro ⟨rfl, hmember'⟩
    exact absurd hmember' hmember

theorem isMember_of_arcOf {size s : Nat} {record : ArcRecord} {arc : Arc W} (h : arcOf size s record = .ok arc) :
    isMember arc.weight = true := by
  unfold arcOf at h
  dsimp only at h
  split at h
  · cases h
  · obtain ⟨weight, hweight, ⟨⟩⟩ := bind_eq_ok.1 h
    exact (weightOf_eq_ok_iff.1 hweight).2

theorem isMember_of_statesOf {size s : Nat} {records : List StateRecord} {arcs : List ArcRecord}
    {states : List (State W)} (h : statesOf size s records arcs = .ok states) : ∀ state ∈ states,
      (∀ weight ∈ state.final, isMember weight = true) ∧ ∀ arc ∈ state.arcs, isMember arc.weight = true := by
  induction records generalizing s arcs states with
  | nil =>
    cases h
    exact nofun
  | cons record records ih =>
    obtain ⟨weight, hweight, h⟩ := bind_eq_ok.1 h
    obtain ⟨own, hown, h⟩ := bind_eq_ok.1 h
    obtain ⟨rest, hrest, ⟨⟩⟩ := bind_eq_ok.1 h
    refine List.forall_mem_cons.2 ⟨⟨?_, fun arc harc => ?_⟩, ih hrest⟩
    · intro final hfinal
      dsimp only at hfinal
      split at hfinal
      · cases hfinal
      · cases hfinal
        exact (weightOf_eq_ok_iff.1 hweight).2
    · obtain ⟨record, -, hrecord⟩ := exists_of_mem_right (mapM_eq_ok_iff.1 hown) (List.mem_toArray.1 harc)
      exact isMember_of_arcOf hrecord

end

theorem gives_symbols (flags : UInt32) (side : Side) :
    Gives (fun symbols => ∀ table ∈ symbols, table.Sound) (Reader.symbols flags side) := by
  unfold Reader.symbols
  split
  · exact gives_pure nofun
  · refine .bind_of SymbolTable.gives_table fun table htable => gives_pure ?_
    rintro _ ⟨⟩
    exact htable.sound

end Transducer.Binary

namespace Transducer.Automaton

variable {W : Type} [Weight W] [Costed W] {bytes : List UInt8} {a : Automaton W}

theorem wellFormed_of_ofBytes (h : ofBytes bytes = .ok a) : a.WellFormed :=
  meets_proper_iff.1 (Binary.of_ofBytes gives_proper h)

theorem members_of_ofBytes (h : ofBytes bytes = .ok a) : a.Members := by
  obtain ⟨s, cursor, -, ha⟩ := Binary.ofBytes_eq_ok_iff.1 h
  have hmembers := Binary.isMember_of_statesOf (Binary.of_automaton ha).1
  exact ⟨fun state hstate => (hmembers state (Array.mem_toList_iff.2 hstate)).1,
    fun state hstate => (hmembers state (Array.mem_toList_iff.2 hstate)).2⟩

theorem soundSymbols_of_ofBytes (h : ofBytes bytes = .ok a) : a.SoundSymbols := by
  obtain ⟨s, cursor, hread, ha⟩ := Binary.ofBytes_eq_ok_iff.1 h
  obtain ⟨-, -, hinput', houtput'⟩ := Binary.of_automaton ha
  obtain ⟨c₁, c₂, c₃, c₄, states, arcs, -, hinput, houtput, -⟩ := Binary.exists_of_readSections hread
  rintro (_ | _) <;> rw [symbols]
  · rw [hinput']
    exact Binary.gives_symbols _ _ _ _ _ hinput
  · rw [houtput']
    exact Binary.gives_symbols _ _ _ _ _ houtput

/-- A final state with the weight of minus zero, reached by the only arc, and an output table with keys to spare. -/
def tollgate : Automaton Tropical where
  states := #[{ arcs := #[⟨5, 2, ⟨⟨0x3FC00000⟩⟩, 1⟩] }, { final := some ⟨⟨0x80000000⟩⟩ }]
  start := some 0
  outputSymbols := some { name := "t", entries := [(1, "a"), (2, "ω")], availableKey := 7, version := 3 }

/-- The data from which the automaton is read. -/
def tollgateBytes : List UInt8 :=
  open Binary in
  Header.bytes { magic, version, weights := WeightKind.tropical.tag, flags := flag .output, start := 0, states := 2,
                 arcs := 1 } ++
    storedText "t" ++ wordBytes 7 ++ wordBytes 2 ++ storedBinding (1, "a") ++ storedBinding (2, "ω") ++
    StateRecord.bytes { final := .infinity, arcs := 1 } ++ StateRecord.bytes { final := ⟨0x80000000⟩, arcs := 0 } ++
    ArcRecord.bytes { ilabel := 5, olabel := 2, weight := ⟨0x3FC00000⟩, target := 1 }

end Transducer.Automaton
