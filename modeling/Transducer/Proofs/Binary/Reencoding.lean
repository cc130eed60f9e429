import Mathlib
import Transducer.Proofs.Binary.Outline
import Transducer.Proofs.Binary.RoundTrip

/-!
# Storing again what has been read

An automaton that has been read can always be stored. The bytes are those from which it was read if and only if
the outline of these is canonical (`exists_toBytes_of_ofBytes`): flags that announce nothing and another order of
the bindings are all that reading forgets.

That is so because the records are the ones that are made of the states (`stored_of_statesOf`). An infinite final
weight is read as none, and none is stored as an infinite one; other costs and weights stand for each other word
by word, and so does the start.
-/

namespace Transducer

namespace Binary

variable {W : Type} [Weight W] [Costed W]

/-! ### Records -/

section

variable [LawfulCosted W] {size s : Nat} {records : List StateRecord} {arc : Arc W} {arcs : List ArcRecord}
  {states : List (State W)} {cost : Single} {weight : W} {fault : Malformation}

theorem cost_of_weightOf (h : weightOf fault cost = .ok weight) : Costed.cost weight = cost := by
  obtain ⟨rfl, -⟩ := weightOf_eq_ok_iff.1 h
  exact LawfulCosted.cost_ofCost cost

theorem storedArc_of_arcOf {record : ArcRecord} (h : arcOf size s record = .ok arc) : storedArc arc = record := by
  unfold arcOf at h
  dsimp only at h
  split at h
  · cases h
  · obtain ⟨weight, hweight, h⟩ := bind_eq_ok.1 h
    cases h
    rw [storedArc, cost_of_weightOf hweight, UInt32.ofNat_toNat]

/-- A final weight that is not kept is that of no path, which is stored for none. -/
theorem cost_of_final (h : weightOf fault cost = .ok weight) :
    Costed.cost ((if isZero weight then none else some weight).getD 0) = cost := by
  split
  · next hzero =>
    rw [LawfulCosted.isZero_eq, cost_of_weightOf h, Cost.isUnreachable, beq_iff_eq] at hzero
    rw [Option.getD_none, LawfulCosted.cost_zero, hzero]
  · exact cost_of_weightOf h

/-- The records are those of the states and of their arcs. -/
theorem stored_of_statesOf (h : statesOf size s records arcs = .ok states)
    (hcount : announced records = arcs.length) :
    states.map storedState = records ∧ storedArcs states = arcs ∧
      ∀ state ∈ states, state.arcs.size < UInt32.size := by
  induction records generalizing s arcs states with
  | nil =>
    cases h
    exact ⟨rfl, (List.length_eq_zero_iff.1 hcount.symm).symm, nofun⟩
  | cons record records ih =>
    obtain ⟨weight, hweight, h⟩ := bind_eq_ok.1 h
    obtain ⟨own, hown, h⟩ := bind_eq_ok.1 h
    obtain ⟨rest, hrest, h⟩ := bind_eq_ok.1 h
    cases h
    rw [announced_cons] at hcount
    obtain ⟨hstates, harcs, hlt⟩ := ih hrest (by rw [List.length_drop]; omega)
    have hown' : own.map storedArc = arcs.take record.arcs.toNat := by
      rw [← List.forall₂_eq_eq_eq, List.forall₂_map_left_iff]
      exact (mapM_eq_ok_iff.1 hown).flip.imp fun _ _ => storedArc_of_arcOf
    have hlength : own.length = record.arcs.toNat := by
      rw [← List.length_map storedArc, hown', List.length_take_of_le (by omega)]
    refine ⟨?_, ?_, List.forall_mem_cons.2 ⟨?_, hlt⟩⟩
    · rw [List.map_cons, hstates, storedState, cost_of_final hweight]
      congr 2
      rw [List.size_toArray, hlength, UInt32.ofNat_toNat]
    · show own.map storedArc ++ storedArcs rest = arcs
      rw [hown', harcs, List.take_append_drop]
    · show own.length < _
      rw [hlength]
      exact record.arcs.toNat_lt

end

/-! ### The header -/

theorem storedStart_of_startOf {size : Nat} {start : UInt32} {result : Option Nat}
    (h : startOf size start = .ok result) : storedStart result = start := by
  unfold startOf at h
  split at h
  · next hnone =>
    cases h
    exact hnone.symm
  · split at h
    · cases h
    · cases h
      exact UInt32.ofNat_toNat

theorem and_or_and_not (x mask : UInt32) : x &&& mask ||| x &&& ~~~mask = x := by
  apply UInt32.toBitVec_inj.1
  ext i hi
  simp only [UInt32.toBitVec_or, UInt32.toBitVec_and, UInt32.toBitVec_not, BitVec.getElem_or, BitVec.getElem_and,
    BitVec.getElem_not]
  cases x.toBitVec[i] <;> cases mask.toBitVec[i] <;> rfl

theorem storedFlags_and_not : ∀ input output : Bool,
    storedFlags input output &&& ~~~(flag .input ||| flag .output) = 0 := by
  decide

/-- Flags that announce what there is are the stored ones, unless there is more in them. -/
theorem storedFlags_eq_iff {flags : UInt32} {input output : Bool}
    (hinput : flags &&& flag .input = 0 ↔ input = false) (houtput : flags &&& flag .output = 0 ↔ output = false) :
    storedFlags input output = flags ↔ flags &&& ~~~(flag .input ||| flag .output) = 0 := by
  constructor
  · rintro rfl
    exact storedFlags_and_not input output
  · intro h
    have hmask : flags &&& (flag .input ||| flag .output) = flags := by
      rw [← UInt32.or_zero (a := flags &&& _), ← h, and_or_and_not]
    have hsmall : flags.toNat < 4 := by
      rw [← hmask, UInt32.toNat_and]
      exact Nat.lt_succ_of_le Nat.and_le_right
    have hfour : ∀ n < 4, ∀ input output : Bool, (UInt32.ofNat n &&& flag .input = 0 ↔ input = false) →
        (UInt32.ofNat n &&& flag .output = 0 ↔ output = false) → storedFlags input output = UInt32.ofNat n := by
      decide
    simpa using hfour flags.toNat hsmall input output (by simpa using hinput) (by simpa using houtput)

/-! ### The whole automaton -/

section

variable {s : Sections} {o : Outline} {bytes : List UInt8} {a : Automaton W}

theorem Sections.LaidOut.readFrom (hlaid : s.LaidOut (Costed.kind W) o bytes) (h : s.automaton = .ok a) :
    ∀ side, Option.Rel ReadFrom (o.symbols side) (a.symbols side) := by
  obtain ⟨-, -, hinput, houtput⟩ := of_automaton h
  rintro (_ | _)
  · exact show Option.Rel ReadFrom o.inputSymbols a.inputSymbols from hinput ▸ hlaid.inputSymbols
  · exact show Option.Rel ReadFrom o.outputSymbols a.outputSymbols from houtput ▸ hlaid.outputSymbols

theorem ReadFrom.symbols_eq_none_iff {stored symbols : Option SymbolTable}
    (h : Option.Rel ReadFrom stored symbols) : stored = none ↔ symbols = none := by
  cases h <;> simp

theorem ReadFrom.symbols_fits {stored symbols : Option SymbolTable} (h : Option.Rel ReadFrom stored symbols)
    (hfits : ∀ table ∈ stored, TableFits table) : ∀ table ∈ symbols, TableFits table := by
  cases h with
  | none => exact nofun
  | some hread =>
    rintro _ ⟨⟩
    exact hread.tableFits (hfits _ rfl)

theorem ReadFrom.storedSymbols_eq {stored symbols : Option SymbolTable} (h : Option.Rel ReadFrom stored symbols)
    (hascending : ∀ table ∈ stored, (table.entries.map (·.1)).Pairwise (· < ·)) :
    storedSymbols symbols = storedSymbols stored := by
  cases h with
  | none => rfl
  | some hread => exact hread.storedTable_eq (hascending _ rfl)

theorem Sections.LaidOut.size_eq (hlaid : s.LaidOut (Costed.kind W) o bytes) (h : s.automaton = .ok a) :
    a.size = s.header.states.toNat := by
  obtain ⟨hstates, -⟩ := of_automaton h
  rw [← hlaid.length_states, Automaton.size, ← Array.length_toList, (statesOf_spec hstates).1]

variable [LawfulCosted W]

/-- The records are those of the automaton. -/
theorem Sections.LaidOut.records_eq (hlaid : s.LaidOut (Costed.kind W) o bytes) (h : s.automaton = .ok a) :
    a.states.toList.map storedState = s.states ∧ storedArcs a.states.toList = s.arcs ∧
      ∀ state ∈ a.states.toList, state.arcs.size < UInt32.size :=
  stored_of_statesOf (of_automaton h).1 hlaid.length_arcs.symm

theorem Sections.LaidOut.arcCount_eq (hlaid : s.LaidOut (Costed.kind W) o bytes) (h : s.automaton = .ok a) :
    a.arcCount = announced s.states := by
  obtain ⟨-, harcs, -⟩ := hlaid.records_eq h
  rw [← hlaid.length_arcs, ← harcs, length_storedArcs, a.arcCount_eq]

theorem Sections.LaidOut.fits (hlaid : s.LaidOut (Costed.kind W) o bytes) (h : s.automaton = .ok a) : a.Fits where
  size_lt := hlaid.size_eq h ▸ s.header.states.toNat_lt
  arcs_lt state hstate := (hlaid.records_eq h).2.2 state (Array.mem_toList_iff.2 hstate)
  arcCount_lt := hlaid.arcCount_eq h ▸ hlaid.arcs_lt
  symbols side := ReadFrom.symbols_fits (hlaid.readFrom h side) (hlaid.valid.fits side)

/-- The header is that of the automaton, but for what the flags do not announce. -/
theorem Sections.LaidOut.storedHeader_eq (hlaid : s.LaidOut (Costed.kind W) o bytes) (h : s.automaton = .ok a) :
    storedHeader a = { o.header with flags := storedFlags a.inputSymbols.isSome a.outputSymbols.isSome } := by
  obtain ⟨-, hstart, -⟩ := of_automaton h
  rw [storedHeader, storedStart_of_startOf hstart, hlaid.size_eq h, hlaid.arcCount_eq h, hlaid.announced_eq,
    UInt32.ofNat_toNat, UInt64.ofNat_toNat, hlaid.header, ← hlaid.valid.magic, ← hlaid.valid.version,
    ← hlaid.valid.weights]

/-! ### Outlines of automata -/

/-- The outline that is stored of an automaton. -/
def storedOutline (a : Automaton W) : Outline := ⟨storedHeader a, a.inputSymbols, a.outputSymbols⟩

omit [Weight W] [LawfulCosted W] in
theorem symbols_storedOutline (a : Automaton W) (side : Side) :
    (storedOutline a).symbols side = a.symbols side := by
  cases side <;> rfl

omit [Weight W] [LawfulCosted W] in
theorem valid_storedOutline (hfits : a.Fits) : (storedOutline a).Valid (Costed.kind W) where
  magic := rfl
  version := rfl
  weights := rfl
  flag side := symbols_storedOutline a side ▸ storedFlags_and a side
  fits side := symbols_storedOutline a side ▸ hfits.symbols side

omit [LawfulCosted W] in
theorem outlineOf_stored (hfits : a.Fits) : outlineOf (stored a) = .ok (storedOutline a).plain := by
  have hparts : stored a = (storedOutline a).bytes ++
      ((a.states.toList.map storedState).flatMap StateRecord.bytes ++
        (storedArcs a.states.toList).flatMap ArcRecord.bytes) := by
    simp only [stored, storedOutline, Outline.bytes, List.append_assoc]
  rw [hparts, (valid_storedOutline hfits).outlineOf_eq]

omit [Weight W] [LawfulCosted W] in
theorem canonical_storedOutline (hsound : a.SoundSymbols) : (storedOutline a).plain.Canonical where
  flags := storedFlags_and_not a.inputSymbols.isSome a.outputSymbols.isSome
  ascending side table htable := by
    rw [Outline.symbols_plain, symbols_storedOutline] at htable
    obtain ⟨table, htable', rfl⟩ := Option.map_eq_some_iff.1 htable
    exact (hsound side table htable').ascending

/-- The data is what is stored of the automaton if and only if it is canonical. -/
theorem Sections.LaidOut.stored_eq_iff (hlaid : s.LaidOut (Costed.kind W) o bytes) (h : s.automaton = .ok a)
    (hsound : a.SoundSymbols) : stored a = bytes ↔ o.Canonical := by
  have hread := hlaid.readFrom h
  constructor
  · intro hstored
    have houtline := outlineOf_stored (hlaid.fits h)
    rw [hstored, hlaid.outlineOf_eq] at houtline
    rw [Except.ok.inj houtline]
    exact canonical_storedOutline hsound
  · intro hcanonical
    obtain ⟨hstates, harcs, -⟩ := hlaid.records_eq h
    have hflags : storedFlags a.inputSymbols.isSome a.outputSymbols.isSome = o.header.flags := by
      refine (storedFlags_eq_iff ?_ ?_).2 hcanonical.flags
      · rw [hlaid.valid.flag .input, ReadFrom.symbols_eq_none_iff (hread .input), Option.isSome_eq_false_iff,
          Option.isNone_iff_eq_none]
        rfl
      · rw [hlaid.valid.flag .output, ReadFrom.symbols_eq_none_iff (hread .output), Option.isSome_eq_false_iff,
          Option.isNone_iff_eq_none]
        rfl
    have hinput : storedSymbols a.inputSymbols = storedSymbols o.inputSymbols :=
      ReadFrom.storedSymbols_eq (hread .input) (hcanonical.ascending .input)
    have houtput : storedSymbols a.outputSymbols = storedSymbols o.outputSymbols :=
      ReadFrom.storedSymbols_eq (hread .output) (hcanonical.ascending .output)
    rw [hlaid.bytes_eq, stored, hlaid.storedHeader_eq h, hflags, hinput, houtput, hstates, harcs]
    rfl

end

end Binary

namespace Automaton

open Binary

variable {W : Type} [Weight W] [Costed W] [LawfulCosted W]

theorem toBytes_eq_of_ofBytes {bytes : List UInt8} {a : Automaton W} (h : ofBytes bytes = .ok a) :
    ∃ o, outlineOf bytes = .ok o ∧ a.toBytes = .ok (stored a) ∧ (stored a = bytes ↔ o.Canonical) := by
  obtain ⟨s, cursor, hread, ha⟩ := ofBytes_eq_ok_iff.1 h
  obtain ⟨o, hlaid⟩ := exists_laidOut hread
  refine ⟨o, hlaid.outlineOf_eq, ?_, hlaid.stored_eq_iff ha (soundSymbols_of_ofBytes h)⟩
  rw [toBytes, encode_eq (wellFormed_of_ofBytes h) (hlaid.fits ha)]
  rfl

/-- Whatever has been read can be stored again, and gives the same bytes if and only if these are canonical. -/
theorem exists_toBytes_of_ofBytes {bytes : List UInt8} {a : Automaton W} (h : ofBytes bytes = .ok a) :
    ∃ outline bytes', outlineOf bytes = .ok outline ∧ a.toBytes = .ok bytes' ∧
      (bytes' = bytes ↔ outline.Canonical) := by
  obtain ⟨o, houtline, hbytes, hiff⟩ := toBytes_eq_of_ofBytes h
  exact ⟨o, stored a, houtline, hbytes, hiff⟩

theorem exists_toBytes_of_ofBytes_tollgate : ofBytes tollgateBytes = .ok tollgate ∧
    ∃ outline, outlineOf tollgateBytes = .ok outline ∧ outline.Canonical ∧
      tollgate.toBytes = .ok tollgateBytes := by
  have hread : ofBytes tollgateBytes = .ok tollgate := by rfl
  obtain ⟨outline, bytes', houtline, hbytes, hiff⟩ := exists_toBytes_of_ofBytes hread
  have hcanonical : outline.Canonical := by
    cases houtline
    refine ⟨by decide, ?_⟩
    rintro (_ | _) _ ⟨⟩
    decide
  exact ⟨hread, outline, houtline, hcanonical, hiff.2 hcanonical ▸ hbytes⟩

end Automaton

end Transducer
