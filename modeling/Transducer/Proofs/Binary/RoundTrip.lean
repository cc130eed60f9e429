import Mathlib
import Transducer.Proofs.Binary.Parts
import Transducer.Proofs.Path.Accepting
import Transducer.Proofs.Weight.Costed

/-!
# Storing and reading back

An automaton that is stored and read back is the same automaton (`exists_ofBytes_toBytes`): the same states
with the same final weights and the same arcs in the same order, the same start, and on each side the same
symbol table, if there is one. Only the history is lost: the versions of the tables and what was known of the
properties.

A state that is not final is stored with the weight of no path. This is told from a final weight because no
state is final with that weight. An automaton without a start is stored with a number that is too high for
a state.
-/

namespace Transducer

namespace Automaton

variable {W : Type}

/-- Everything that is counted can be counted in a word, and the size of all arcs in two. -/
structure Fits (a : Automaton W) : Prop where
  size_lt : a.size < UInt32.size
  arcs_lt : ∀ state ∈ a.states, state.arcs.size < UInt32.size
  /-- The bytes of all records can be counted in two words. No automaton in memory exceeds this: two labels, a weight
  and a target of a word each take up as much there as in the record of an arc, and the bytes of the memory itself are
  counted in two words. -/
  arcCount_lt : a.arcCount * Binary.arcRecordSize < UInt64.size
  symbols : ∀ side, ∀ table ∈ a.symbols side, Binary.TableFits table

/-- All weights of the automaton are weights. -/
structure Members [Weight W] (a : Automaton W) : Prop where
  final : ∀ state ∈ a.states, ∀ weight ∈ state.final, isMember weight = true
  arc : ∀ state ∈ a.states, ∀ arc ∈ state.arcs, isMember arc.weight = true

/-- The symbol tables of the automaton are sound. -/
def SoundSymbols (a : Automaton W) : Prop := ∀ side, ∀ table ∈ a.symbols side, table.Sound

theorem arcCount_eq (a : Automaton W) :
    a.arcCount = (a.states.toList.map fun state => state.arcs.size).sum := by
  rw [arcCount, ← Array.foldl_toList, List.sum_eq_foldl, List.foldl_map]

end Automaton

namespace Binary

variable {W : Type}

/-! ### What is stored -/

/-- Which symbol tables are announced. -/
def storedFlags (input output : Bool) : UInt32 :=
  (if input then flag .input else 0) ||| (if output then flag .output else 0)

theorem storedFlags_and (a : Automaton W) (side : Side) :
    storedFlags a.inputSymbols.isSome a.outputSymbols.isSome &&& flag side = 0 ↔ a.symbols side = none := by
  have hinput : ∀ input output : Bool, storedFlags input output &&& flag .input = 0 ↔ input = false := by
    decide
  have houtput : ∀ input output : Bool, storedFlags input output &&& flag .output = 0 ↔ output = false := by
    decide
  cases side with
  | input =>
    rw [hinput, Option.isSome_eq_false_iff, Option.isNone_iff_eq_none]
    rfl
  | output =>
    rw [houtput, Option.isSome_eq_false_iff, Option.isNone_iff_eq_none]
    rfl

/-- What is stored of the start. -/
def storedStart (start : Option Nat) : UInt32 := (start.map UInt32.ofNat).getD noStart

theorem startOf_storedStart {start : Option Nat} {size : Nat} (hsize : size < UInt32.size)
    (h : ∀ s ∈ start, s < size) : startOf size (storedStart start) = .ok start := by
  cases start with
  | none => rfl
  | some s =>
    have hs : s < size := h s rfl
    have hnat : (UInt32.ofNat s).toNat = s := UInt32.toNat_ofNat_of_lt' (hs.trans hsize)
    have hne : UInt32.ofNat s ≠ noStart := by
      intro heq
      have hlast : s = noStart.toNat := heq ▸ hnat.symm
      simp only [noStart, UInt32.size, UInt32.reduceToNat] at hsize hlast
      omega
    show startOf size (UInt32.ofNat s) = _
    rw [startOf, if_neg hne, hnat, if_neg (Nat.not_le_of_lt hs)]

variable [Costed W]

/-- What is stored of an arc. -/
def storedArc (arc : Arc W) : ArcRecord where
  ilabel := arc.ilabel
  olabel := arc.olabel
  weight := Costed.cost arc.weight
  target := UInt32.ofNat arc.target

/-- What is stored of the arcs of some states. -/
def storedArcs (states : List (State W)) : List ArcRecord :=
  states.flatMap fun state => state.arcs.toList.map storedArc

/-- The header of an automaton. -/
def storedHeader (a : Automaton W) : Header where
  magic := magic
  version := version
  weights := (Costed.kind W).tag
  flags := storedFlags a.inputSymbols.isSome a.outputSymbols.isSome
  start := storedStart a.start
  states := UInt32.ofNat a.size
  arcs := UInt64.ofNat a.arcCount

theorem length_storedArcs (states : List (State W)) :
    (storedArcs states).length = (states.map fun state => state.arcs.size).sum := by
  simp [storedArcs, List.length_flatMap]

theorem header_eq {a : Automaton W} (hsize : a.size < UInt32.size)
    (hstart : ∀ {s : Nat}, a.start = some s → s < a.size) :
    header a a.arcCount = .ok (storedHeader a) := by
  rw [header, toWord_eq hsize, storedHeader]
  cases h : a.start with
  | none => rfl
  | some s =>
    dsimp only
    rw [toWord_eq ((hstart h).trans hsize)]
    rfl

variable [Weight W]

/-- What is stored of a state, apart from its arcs. -/
def storedState (state : State W) : StateRecord where
  final := Costed.cost (state.final.getD 0)
  arcs := UInt32.ofNat state.arcs.size

/-- What is stored of an automaton. -/
def stored (a : Automaton W) : List UInt8 :=
  (storedHeader a).bytes ++ storedSymbols a.inputSymbols ++ storedSymbols a.outputSymbols ++
    (a.states.toList.map storedState).flatMap StateRecord.bytes ++
    (storedArcs a.states.toList).flatMap ArcRecord.bytes

/-! ### Writing -/

omit [Costed W] [Weight W] in
theorem symbolBytes_eq {a : Automaton W} {side : Side} (h : ∀ table ∈ a.symbols side, TableFits table) :
    symbolBytes a side = .ok (storedSymbols (a.symbols side)) := by
  rw [symbolBytes]
  cases hside : a.symbols side with
  | none => rfl
  | some table => exact tableBytes_eq (h table hside)

theorem stateRecords_eq {state : State W} {size : Nat} (hsize : size < UInt32.size)
    (hcount : state.arcs.size < UInt32.size) (htarget : ∀ arc ∈ state.arcs, arc.target < size) :
    stateRecords state = .ok (storedState state, state.arcs.toList.map storedArc) := by
  rw [stateRecords, toWord_eq hcount]
  dsimp only [bind, Except.bind]
  rw [mapM_eq_ok (g := storedArc)]
  · rfl
  · intro arc harc
    have h := htarget arc (Array.mem_toList_iff.1 harc)
    rw [arcRecord, toWord_eq (h.trans hsize)]
    rfl

theorem encode_eq {a : Automaton W} (hwf : a.WellFormed) (hfits : a.Fits) : encode a = .ok (stored a) := by
  obtain ⟨-, htarget, -⟩ := Automaton.wellFormed_iff.1 hwf
  have hrecords : a.states.toList.mapM stateRecords =
      .ok (a.states.toList.map fun state => (storedState state, state.arcs.toList.map storedArc)) := by
    apply mapM_eq_ok
    intro state hstate
    have hstate' := Array.mem_toList_iff.1 hstate
    exact stateRecords_eq hfits.size_lt (hfits.arcs_lt state hstate') (htarget state hstate')
  have harcs : ((a.states.toList.map fun state => (storedState state, state.arcs.toList.map storedArc)).flatMap
      fun record => record.2) = storedArcs a.states.toList :=
    List.flatMap_map ..
  have hcount : (storedArcs a.states.toList).length = a.arcCount := by
    rw [length_storedArcs, a.arcCount_eq]
  rw [encode, hrecords]
  dsimp only [bind, Except.bind]
  rw [harcs, hcount, header_eq hfits.size_lt hwf.start_lt, symbolBytes_eq (hfits.symbols .input),
    symbolBytes_eq (hfits.symbols .output)]
  simp only [pure, Except.pure, stored, List.flatMap_map]
  rfl

/-! ### Reading -/

theorem weightOf_cost [LawfulCosted W] {w : W} (h : isMember w = true) (fault : Malformation) :
    weightOf fault (Costed.cost w) = .ok w := by
  rw [weightOf, LawfulCosted.ofCost_cost, if_pos h]

theorem arcOf_storedArc [LawfulCosted W] {arc : Arc W} {size : Nat} (hsize : size < UInt32.size)
    (htarget : arc.target < size) (hmember : isMember arc.weight = true) (s : Nat) :
    arcOf size s (storedArc arc) = .ok arc := by
  have hnat : (storedArc arc).target.toNat = arc.target :=
    UInt32.toNat_ofNat_of_lt' (htarget.trans hsize)
  rw [arcOf, hnat, if_neg (Nat.not_le_of_lt htarget)]
  show (weightOf _ (Costed.cost arc.weight) >>= _) = _
  rw [weightOf_cost hmember]
  rfl

/-- What it takes to read a state back, in an automaton of the given size. -/
structure Restorable (size : Nat) (state : State W) : Prop where
  count_lt : state.arcs.size < UInt32.size
  target_lt : ∀ arc ∈ state.arcs, arc.target < size
  isMember_arc : ∀ arc ∈ state.arcs, isMember arc.weight = true
  isZero_final : ∀ weight ∈ state.final, isZero weight = false
  isMember_final : ∀ weight ∈ state.final, isMember weight = true

section

variable {size : Nat} {state : State W}

theorem Restorable.count_eq (h : Restorable size state) :
    (storedState state).arcs.toNat = state.arcs.size :=
  UInt32.toNat_ofNat_of_lt' h.count_lt

theorem Restorable.arcs_eq [LawfulCosted W] (h : Restorable size state) (hsize : size < UInt32.size) (s : Nat) :
    (state.arcs.toList.map storedArc).mapM (arcOf size s) = .ok state.arcs.toList := by
  rw [List.mapM_map, mapM_eq_ok (g := id), List.map_id]
  intro arc hmem
  have harc : arc ∈ state.arcs := Array.mem_toList_iff.1 hmem
  exact arcOf_storedArc hsize (h.target_lt arc harc) (h.isMember_arc arc harc) s

theorem Restorable.weightOf_eq [LawfulCosted W] (h : Restorable size state) (fault : Malformation) :
    weightOf fault (storedState state).final = .ok (state.final.getD 0) := by
  apply weightOf_cost
  cases hfinal : state.final with
  | none => exact isMember_zero
  | some weight => exact h.isMember_final weight hfinal

/-- The weight of no path is read as that of a state that is not final. -/
theorem Restorable.final_eq [LawfulCosted W] (h : Restorable size state) :
    (if isZero (state.final.getD 0) = true then none else some (state.final.getD 0)) = state.final := by
  cases hfinal : state.final with
  | none => exact if_pos isZero_zero
  | some weight => simp [h.isZero_final weight hfinal]

end

/-- The records of some states give back these states. The arcs are dealt out to the states by their
counts. -/
theorem statesOf_stored [LawfulCosted W] {states : List (State W)} {size : Nat} (hsize : size < UInt32.size)
    (h : ∀ state ∈ states, Restorable size state) (s : Nat) :
    statesOf size s (states.map storedState) (storedArcs states) = .ok states := by
  induction states generalizing s with
  | nil => rfl
  | cons state rest ih =>
    have hstate := h state List.mem_cons_self
    have hlength : (state.arcs.toList.map storedArc).length = (storedState state).arcs.toNat := by
      rw [List.length_map, Array.length_toList, hstate.count_eq]
    have harcs : storedArcs (state :: rest) = state.arcs.toList.map storedArc ++ storedArcs rest := rfl
    have hrest := ih (fun other hother => h other (List.mem_cons_of_mem _ hother)) (s + 1)
    rw [List.map_cons, harcs, statesOf, List.take_left' hlength, List.drop_left' hlength, hstate.weightOf_eq,
      hstate.arcs_eq hsize, hrest]
    show Except.ok (State.mk (if isZero (state.final.getD 0) = true then none else _) _ :: rest) = _
    rw [hstate.final_eq]

/-! ### The round trip -/

/-- The automaton that is read back. -/
def restored (a : Automaton W) : Automaton W where
  states := a.states
  start := a.start
  inputSymbols := a.inputSymbols.map SymbolTable.rebuild
  outputSymbols := a.outputSymbols.map SymbolTable.rebuild

section

variable {a : Automaton W}

omit [Costed W] in
theorem restorable (hwf : a.WellFormed) (hmembers : a.Members) (hfits : a.Fits) :
    ∀ state ∈ a.states.toList, Restorable a.size state := by
  obtain ⟨-, htarget, hfinal⟩ := Automaton.wellFormed_iff.1 hwf
  intro state hmem
  have hstate : state ∈ a.states := Array.mem_toList_iff.1 hmem
  constructor
  · exact hfits.arcs_lt state hstate
  · exact htarget state hstate
  · exact hmembers.arc state hstate
  · exact hfinal state hstate
  · exact hmembers.final state hstate

theorem yields_stateRecords (hfits : a.Fits) :
    Yields (Reader.records stateRecordSize a.size)
      ((a.states.toList.map storedState).flatMap StateRecord.bytes)
      ((a.states.toList.map storedState).map StateRecord.bytes) := by
  apply yields_records StateRecord.length_bytes
  · simp [Automaton.size]
  · have h := hfits.size_lt
    simp only [stateRecordSize, UInt64.size, UInt32.size] at h ⊢
    omega

omit [Weight W] in
theorem yields_arcRecords (hfits : a.Fits) :
    Yields (Reader.records arcRecordSize a.arcCount) ((storedArcs a.states.toList).flatMap ArcRecord.bytes)
      ((storedArcs a.states.toList).map ArcRecord.bytes) := by
  apply yields_records ArcRecord.length_bytes
  · rw [length_storedArcs, a.arcCount_eq]
  · exact hfits.arcCount_lt

/-- The number of arcs that the records of the states announce. -/
theorem counted_eq (hfits : a.Fits) :
    (a.states.toList.map storedState).foldl (fun count record => count + record.arcs.toNat) 0 = a.arcCount := by
  rw [a.arcCount_eq, List.sum_eq_foldl, List.foldl_map, List.foldl_map]
  apply List.foldl_ext
  intro count state hstate
  have hcount := hfits.arcs_lt state (Array.mem_toList_iff.1 hstate)
  rw [storedState, UInt32.toNat_ofNat_of_lt' hcount]

omit [Weight W] in
theorem arcs_storedHeader (hfits : a.Fits) : (storedHeader a).arcs.toNat = a.arcCount := by
  apply UInt64.toNat_ofNat_of_lt'
  have h := hfits.arcCount_lt
  rw [arcRecordSize] at h
  omega

theorem readAutomaton_stored [LawfulCosted W] (hwf : a.WellFormed) (hmembers : a.Members)
    (hsymbols : a.SoundSymbols) (hfits : a.Fits) :
    (readAutomaton.run ⟨stored a, 0⟩).map (·.1) = .ok (restored a) := by
  have hparts : stored a = (storedHeader a).bytes ++ (storedSymbols (a.symbols .input) ++
      (storedSymbols (a.symbols .output) ++ ((a.states.toList.map storedState).flatMap StateRecord.bytes ++
        ((storedArcs a.states.toList).flatMap ArcRecord.bytes ++ [])))) := by
    simp [stored, Automaton.symbols]
  have hheader : Yields readHeader (storedHeader a).bytes (storedHeader a, Costed.kind W) :=
    yields_header rfl rfl rfl
  have hinput : Yields (Reader.symbols (storedHeader a).flags .input) _ _ :=
    yields_symbols (storedFlags_and a .input) (hsymbols .input) (hfits.symbols .input)
  have houtput : Yields (Reader.symbols (storedHeader a).flags .output) _ _ :=
    yields_symbols (storedFlags_and a .output) (hsymbols .output) (hfits.symbols .output)
  have hsize : (storedHeader a).states.toNat = a.size := UInt32.toNat_ofNat_of_lt' hfits.size_lt
  have hstates := statesOf_stored hfits.size_lt (restorable hwf hmembers hfits) 0
  have hstart : startOf a.size (storedHeader a).start = .ok a.start :=
    startOf_storedStart hfits.size_lt fun s => hwf.start_lt (s := s)
  -- the reader takes the parts one by one, and each check on the way passes
  show (readAutomaton ⟨stored a, 0⟩).map (·.1) = _
  rw [hparts, readAutomaton, bind_eq_of_ok (hheader _ _)]
  dsimp only
  rw [if_neg (not_not.2 rfl), bind_eq_of_ok (hinput _ _), bind_eq_of_ok (houtput _ _), hsize,
    bind_eq_of_ok (yields_stateRecords hfits _ _), StateRecord.map_ofBytes_bytes, counted_eq hfits,
    arcs_storedHeader hfits, if_neg (not_not.2 rfl), bind_eq_of_ok (yields_arcRecords hfits _ _),
    ArcRecord.map_ofBytes_bytes, get_bind]
  dsimp only
  rw [if_neg (not_not.2 List.length_nil), hstates, hstart]
  rfl

end

end Binary

namespace Automaton

variable {W : Type} [Weight W] [Costed W]

/-- An automaton that is stored can be read back, and is the same but for its history. -/
theorem exists_ofBytes_toBytes [LawfulCosted W] {a : Automaton W} (hwf : a.WellFormed) (hmembers : a.Members)
    (hsymbols : a.SoundSymbols) (hfits : a.Fits) :
    ∃ bytes b, a.toBytes = .ok bytes ∧ ofBytes bytes = .ok b ∧ b.states = a.states ∧ b.start = a.start ∧
      ∀ side, (b.symbols side).map SymbolTable.content = (a.symbols side).map SymbolTable.content := by
  have hread := Binary.readAutomaton_stored hwf hmembers hsymbols hfits
  refine ⟨Binary.stored a, Binary.restored a, ?_, ?_, rfl, rfl, ?_⟩
  · rw [toBytes, Binary.encode_eq hwf hfits]
    rfl
  · rw [ofBytes, hread]
    rfl
  · intro side
    have hside : (Binary.restored a).symbols side = (a.symbols side).map SymbolTable.rebuild := by
      cases side <;> rfl
    rw [hside, Option.map_map]
    apply Option.map_congr
    intro table htable
    exact (hsymbols side table htable).content_rebuild

/-- An automaton full of what also stands for an absence: its first state is not final and has an arc with the
weight of no path, and its only symbol table binds the last key. -/
def lastResort : Automaton Tropical where
  states := #[{ arcs := #[⟨1, SymbolTable.lastKey, ⟨.infinity⟩, 1⟩, ⟨0, 0, ⟨.zero⟩, 0⟩] },
    { final := some ⟨.zero⟩ }]
  start := some 0
  inputSymbols := some
    { name := "λ", entries := [(1, "a"), (SymbolTable.lastKey, "ω")], availableKey := SymbolTable.lastKey }

theorem exists_ofBytes_toBytes_lastResort :
    lastResort.WellFormed ∧ lastResort.Members ∧ lastResort.SoundSymbols ∧ lastResort.Fits ∧
      ∃ bytes b, lastResort.toBytes = .ok bytes ∧ ofBytes bytes = .ok b ∧ b.states = lastResort.states ∧
        b.start = lastResort.start ∧
        ∀ side, (b.symbols side).map SymbolTable.content = (lastResort.symbols side).map SymbolTable.content := by
  have hwf : lastResort.WellFormed := by decide
  have hmembers : lastResort.Members := ⟨by decide, by decide⟩
  have hsymbols : lastResort.SoundSymbols := by
    intro side table htable
    cases side <;> cases htable
    decide +kernel
  have hfits : lastResort.Fits := by
    refine ⟨by decide, by decide, by decide, ?_⟩
    intro side table htable
    cases side <;> cases htable
    exact ⟨by decide +kernel, by decide, by decide +kernel⟩
  exact ⟨hwf, hmembers, hsymbols, hfits, exists_ofBytes_toBytes hwf hmembers hsymbols hfits⟩

end Automaton

end Transducer
