import Mathlib
import Transducer.Proofs.Binary.Taken

/-!
# The outline of stored data

Reading forgets some of what stands in the data: bindings in another order, bindings that stand there twice, and
bits of the flags that announce nothing. The outline keeps the header and the symbol tables as they stand
(`outlineOf`). It is `Canonical` if nothing of that kind is in it.

A table is `ReadFrom` the one that stands in the data. So data from which sections are read is the outline, followed
by the records (`exists_laidOut`).
-/

namespace Transducer.Binary

/-! ### Symbol tables as they are stored -/

namespace Reader

/-- The next bindings, whatever they bind. -/
def bindings : Nat → Reader (List (Label × String))
  | 0 => return []
  | count + 1 => do
    let key ← word
    let symbol ← text
    let rest ← bindings count
    return (key, symbol) :: rest

/-- A symbol table with its bindings in the order in which they stand. -/
def plainTable : Reader SymbolTable := do
  let name ← text
  let availableKey ← word
  let count ← word
  let entries ← bindings count.toNat
  return { name, entries, availableKey }

/-- The symbol table of a side as it stands, if the flags announce it. -/
def plainSymbols (flags : UInt32) (side : Side) : Reader (Option SymbolTable) := do
  if flags &&& flag side = 0 then return none
  return some (← plainTable)

end Reader

/-- The table without its version, which is not stored. -/
def plain (table : SymbolTable) : SymbolTable := { table with version := 0 }

theorem yields_bindings {entries : List (Label × String)} (hfits : ∀ entry ∈ entries, Fits entry.2) :
    Yields (Reader.bindings entries.length) (entries.flatMap storedBinding) entries := by
  induction entries with
  | nil => exact yields_pure []
  | cons entry rest ih =>
    rw [List.length_cons, List.flatMap_cons, storedBinding, List.append_assoc]
    apply (yields_word entry.1).bind
    apply (yields_text (hfits entry List.mem_cons_self)).bind
    exact (ih fun other hother => hfits other (List.mem_cons_of_mem _ hother)).map (entry :: ·)

/-- A table stands where it is stored, be it sound or not. -/
theorem yields_plainTable {table : SymbolTable} (hfits : TableFits table) :
    Yields Reader.plainTable (storedTable table) (plain table) := by
  have hcount : (UInt32.ofNat table.size).toNat = table.entries.length :=
    UInt32.toNat_ofNat_of_lt' hfits.size_lt
  rw [storedTable, List.append_assoc, List.append_assoc, Reader.plainTable]
  apply (yields_text hfits.name).bind
  apply (yields_word table.availableKey).bind
  apply (yields_word (UInt32.ofNat table.size)).bind
  rw [hcount]
  exact (yields_bindings hfits.symbol).map fun entries =>
    (⟨table.name, entries, table.availableKey, 0⟩ : SymbolTable)

theorem yields_plainSymbols {flags : UInt32} {side : Side} {symbols : Option SymbolTable}
    (hflag : flags &&& flag side = 0 ↔ symbols = none) (hfits : ∀ table ∈ symbols, TableFits table) :
    Yields (Reader.plainSymbols flags side) (storedSymbols symbols) (symbols.map plain) := by
  rw [Reader.plainSymbols]
  cases symbols with
  | none =>
    rw [if_pos (hflag.2 rfl)]
    exact yields_pure none
  | some table =>
    rw [if_neg fun h => by cases hflag.1 h]
    exact (yields_plainTable (hfits table rfl)).map some

/-! ### Symbol tables that have been read -/

/-- Some bindings have been added to a table, those that were bound already left out. Bindings in the order of
their keys have all been added at the end. -/
structure Gathers (table : SymbolTable) (entries : List (Label × String)) (table' : SymbolTable) : Prop where
  name : table'.name = table.name
  subset : table'.entries ⊆ table.entries ++ entries
  size_le : table'.size ≤ table.size + entries.length
  ascending : ((table.entries ++ entries).map (·.1)).Pairwise (· < ·) → table'.entries = table.entries ++ entries

section

variable {table table' table'' : SymbolTable} {entries more : List (Label × String)} {key : Label} {symbol : String}

theorem gathers_nil (table : SymbolTable) : Gathers table [] table := by
  constructor <;> simp

theorem Gathers.append (h : Gathers table entries table') (h' : Gathers table' more table'') :
    Gathers table (entries ++ more) table'' where
  name := h'.name.trans h.name
  subset := by
    rw [← List.append_assoc]
    exact List.Subset.trans h'.subset
      (List.append_subset.2 ⟨List.subset_append_of_subset_left more h.subset, List.subset_append_right _ more⟩)
  size_le := by
    have := h.size_le
    have := h'.size_le
    rw [List.length_append]
    omega
  ascending hall := by
    rw [← List.append_assoc] at hall ⊢
    have hfirst := h.ascending (hall.sublist ((List.sublist_append_left _ more).map _))
    rw [h'.ascending (hfirst ▸ hall), hfirst]

theorem gathers_addWithKey {result : Label × SymbolTable} (h : table.addWithKey symbol key = .ok result) :
    Gathers table [(key, symbol)] result.2 := by
  have hlast : ((table.entries ++ [(key, symbol)]).map (·.1)).Pairwise (· < ·) →
      ∀ other ∈ table.entries.map (·.1), other < key := by
    intro hall other hother
    rw [List.map_append] at hall
    exact (List.pairwise_append.1 hall).2.2 other hother key List.mem_cons_self
  unfold SymbolTable.addWithKey at h
  split at h
  · next bound hbound =>
    split at h
    · next hkey =>
      cases h
      refine ⟨rfl, List.subset_append_left _ _, Nat.le_succ _, fun hall => ?_⟩
      -- the key is bound already, so that it cannot be higher than all others
      have hhas := SymbolTable.hasKey_of_key? (hkey ▸ hbound)
      rw [SymbolTable.hasKey, Option.isSome_iff_ne_none, ne_eq, SymbolTable.symbol?_eq_none_iff, not_not] at hhas
      exact absurd (hlast hall key hhas) (UInt32.lt_irrefl key)
    · cases h
  · cases h
  · cases h
    have hperm := SymbolTable.entries_bind_perm table symbol key
    refine ⟨rfl, fun entry hentry => ?_, hperm.length_eq.le, fun hall => ?_⟩
    · simpa [or_comm] using hperm.mem_iff.1 hentry
    · exact SymbolTable.insertEntry_eq_append (hlast hall)

theorem exists_of_entries {table table' : SymbolTable} {count : Nat} {cursor cursor' : Cursor}
    (h : Reader.entries count table cursor = .ok (table', cursor')) :
    ∃ entries, entries.length = count ∧ cursor.rest = entries.flatMap storedBinding ++ cursor'.rest ∧
      (∀ entry ∈ entries, Fits entry.2) ∧ Gathers table entries table' := by
  induction count generalizing table cursor with
  | zero =>
    cases h
    exact ⟨[], rfl, rfl, nofun, gathers_nil _⟩
  | succ count ih =>
    obtain ⟨key, between, hkey, h⟩ := reader_bind_eq_ok.1 h
    obtain ⟨symbol, between', hsymbol, h⟩ := reader_bind_eq_ok.1 h
    cases hadd : table.addWithKey symbol key with
    | error e =>
      rw [hadd] at h
      cases h
    | ok result =>
      rw [hadd] at h
      obtain ⟨entries, hlength, hrest, hfits, hgathers⟩ := ih h
      obtain ⟨hrest', hfits'⟩ := rest_of_text hsymbol
      refine ⟨(key, symbol) :: entries, congrArg (· + 1) hlength, ?_, List.forall_mem_cons.2 ⟨hfits', hfits⟩,
        (gathers_addWithKey hadd).append hgathers⟩
      rw [rest_of_word hkey, hrest', hrest, List.flatMap_cons, storedBinding]
      simp only [List.append_assoc]

/-- The table is read from one as it stands: the name and the available key are the same, no binding is new, and
bindings in the order of their keys are the same. -/
structure ReadFrom (stored table : SymbolTable) : Prop where
  plain : plain stored = stored
  name : table.name = stored.name
  availableKey : table.availableKey = stored.availableKey
  subset : table.entries ⊆ stored.entries
  size_le : table.size ≤ stored.size
  ascending : (stored.entries.map (·.1)).Pairwise (· < ·) → table.entries = stored.entries

theorem exists_of_table {cursor cursor' : Cursor} (h : Reader.table cursor = .ok (table, cursor')) :
    ∃ stored, cursor.rest = storedTable stored ++ cursor'.rest ∧ TableFits stored ∧ ReadFrom stored table := by
  unfold Reader.table at h
  simp only [unless_eq] at h
  obtain ⟨name, c₁, hname, h⟩ := reader_bind_eq_ok.1 h
  obtain ⟨availableKey, c₂, havailable, h⟩ := reader_bind_eq_ok.1 h
  obtain ⟨count, c₃, hcount, h⟩ := reader_bind_eq_ok.1 h
  obtain ⟨gathered, c₄, hentries, h⟩ := reader_bind_eq_ok.1 h
  obtain ⟨hnot, h⟩ := refuse_bind_eq_ok.1 h
  cases h
  obtain ⟨hrest, hfits⟩ := rest_of_text hname
  obtain ⟨entries, hlength, hrest', hfits', hgathers⟩ := exists_of_entries hentries
  have hcontent := SymbolTable.content_raiseAvailableKey (UInt32.not_lt.1 hnot)
  obtain ⟨hname', hcontent⟩ := Prod.mk.inj hcontent
  obtain ⟨hentries', havailable'⟩ := Prod.mk.inj hcontent
  refine ⟨{ name, entries, availableKey }, ?_, ⟨hfits, ?_, hfits'⟩, ?_⟩
  · have hsize : UInt32.ofNat entries.length = count := by rw [hlength, UInt32.ofNat_toNat]
    rw [hrest, rest_of_word havailable, rest_of_word hcount, hrest']
    simp only [storedTable, SymbolTable.size, hsize, List.append_assoc]
  · show entries.length < _
    rw [hlength]
    exact count.toNat_lt
  · refine ⟨rfl, hname'.trans hgathers.name, havailable', ?_, ?_,
      fun hall => hentries'.trans (hgathers.ascending hall)⟩
    · rw [hentries']
      exact hgathers.subset
    · rw [SymbolTable.size, hentries']
      exact hgathers.size_le.trans_eq (Nat.zero_add _)

theorem exists_of_symbols {flags : UInt32} {side : Side} {symbols : Option SymbolTable} {cursor cursor' : Cursor}
    (h : Reader.symbols flags side cursor = .ok (symbols, cursor')) :
    ∃ stored, cursor.rest = storedSymbols stored ++ cursor'.rest ∧ (flags &&& flag side = 0 ↔ stored = none) ∧
      (∀ table ∈ stored, TableFits table) ∧ Option.Rel ReadFrom stored symbols := by
  unfold Reader.symbols at h
  split at h
  · next hflag =>
    cases h
    exact ⟨none, rfl, iff_of_true hflag rfl, nofun, .none⟩
  · next hflag =>
    obtain ⟨table, between, htable, ⟨⟩⟩ := reader_bind_eq_ok.1 h
    obtain ⟨stored, hrest, hfits, hread⟩ := exists_of_table htable
    refine ⟨some stored, hrest, iff_of_false hflag nofun, ?_, .some hread⟩
    rintro _ ⟨⟩
    exact hfits

theorem ReadFrom.tableFits {stored : SymbolTable} (h : ReadFrom stored table) (hfits : TableFits stored) :
    TableFits table where
  name := h.name ▸ hfits.name
  size_lt := h.size_le.trans_lt hfits.size_lt
  symbol entry hentry := hfits.symbol entry (h.subset hentry)

theorem ReadFrom.storedTable_eq {stored : SymbolTable} (h : ReadFrom stored table)
    (hascending : (stored.entries.map (·.1)).Pairwise (· < ·)) : storedTable table = storedTable stored := by
  rw [storedTable, storedTable, SymbolTable.size, SymbolTable.size, h.name, h.availableKey, h.ascending hascending]

theorem ReadFrom.map_plain {stored symbols : Option SymbolTable} (h : Option.Rel ReadFrom stored symbols) :
    stored.map Binary.plain = stored := by
  cases h with
  | none => rfl
  | some hread => exact congrArg some hread.plain

end

/-! ### Outlines -/

/-- The header and the symbol tables of stored data as they stand. -/
structure Outline where
  header : Header
  inputSymbols : Option SymbolTable
  outputSymbols : Option SymbolTable

namespace Outline

/-- The symbol table of a side. -/
def symbols (o : Outline) : Side → Option SymbolTable
  | .input => o.inputSymbols
  | .output => o.outputSymbols

/-- The outline without the versions of the tables. -/
def plain (o : Outline) : Outline :=
  { o with inputSymbols := o.inputSymbols.map Binary.plain, outputSymbols := o.outputSymbols.map Binary.plain }

theorem symbols_plain (o : Outline) (side : Side) : o.plain.symbols side = (o.symbols side).map Binary.plain := by
  cases side <;> rfl

/-- What is stored of the outline. -/
def bytes (o : Outline) : List UInt8 :=
  o.header.bytes ++ storedSymbols o.inputSymbols ++ storedSymbols o.outputSymbols

/-- The outline begins data with weights of the given kind, and announces its tables. -/
structure Valid (kind : WeightKind) (o : Outline) : Prop where
  magic : o.header.magic = magic
  version : o.header.version = version
  weights : o.header.weights = kind.tag
  flag : ∀ side, o.header.flags &&& flag side = 0 ↔ o.symbols side = none
  fits : ∀ side, ∀ table ∈ o.symbols side, TableFits table

/-- Only tables are announced, and their bindings stand in the order of their keys. -/
structure Canonical (o : Outline) : Prop where
  flags : o.header.flags &&& ~~~(flag .input ||| flag .output) = 0
  ascending : ∀ side, ∀ table ∈ o.symbols side, (table.entries.map (·.1)).Pairwise (· < ·)

end Outline

/-- The outline at the beginning of the data. -/
def readOutline : Reader Outline := do
  let (header, _) ← readHeader
  let inputSymbols ← Reader.plainSymbols header.flags .input
  let outputSymbols ← Reader.plainSymbols header.flags .output
  return { header, inputSymbols, outputSymbols }

/-- The outline of stored data. -/
def outlineOf (bytes : List UInt8) : Except Error Outline :=
  ((readOutline.run ⟨bytes, 0⟩).map (·.1)).mapError .format

theorem Outline.Valid.yields {kind : WeightKind} {o : Outline} (h : o.Valid kind) :
    Yields readOutline o.bytes o.plain := by
  rw [readOutline, Outline.bytes, List.append_assoc]
  apply (yields_header h.magic h.version h.weights).bind
  apply (yields_plainSymbols (h.flag .input) (h.fits .input)).bind
  exact (yields_plainSymbols (h.flag .output) (h.fits .output)).map fun outputSymbols =>
    (⟨o.header, o.inputSymbols.map Binary.plain, outputSymbols⟩ : Outline)

theorem Outline.Valid.outlineOf_eq {kind : WeightKind} {o : Outline} (h : o.Valid kind) (more : List UInt8) :
    outlineOf (o.bytes ++ more) = .ok o.plain := by
  rw [outlineOf, StateT.run, h.yields]
  rfl

/-- The data is an outline, followed by the records. The sections are read from it. -/
structure Sections.LaidOut (s : Sections) (kind : WeightKind) (o : Outline) (bytes : List UInt8) : Prop where
  bytes_eq : bytes = o.bytes ++ s.states.flatMap StateRecord.bytes ++ s.arcs.flatMap ArcRecord.bytes
  valid : o.Valid kind
  header : s.header = o.header
  inputSymbols : Option.Rel ReadFrom o.inputSymbols s.inputSymbols
  outputSymbols : Option.Rel ReadFrom o.outputSymbols s.outputSymbols
  length_states : s.states.length = s.header.states.toNat
  announced_eq : announced s.states = s.header.arcs.toNat
  length_arcs : s.arcs.length = announced s.states
  arcs_lt : announced s.states * arcRecordSize < UInt64.size

/-- The outline is the one that is found in the data. -/
theorem Sections.LaidOut.outlineOf_eq {s : Sections} {kind : WeightKind} {o : Outline} {bytes : List UInt8}
    (h : s.LaidOut kind o bytes) : outlineOf bytes = .ok o := by
  have hplain : o.plain = o := by
    rw [Outline.plain, ReadFrom.map_plain h.inputSymbols, ReadFrom.map_plain h.outputSymbols]
  rw [h.bytes_eq, List.append_assoc, h.valid.outlineOf_eq, hplain]

theorem exists_laidOut {kind : WeightKind} {s : Sections} {bytes : List UInt8} {offset : Nat} {cursor' : Cursor}
    (h : readSections kind ⟨bytes, offset⟩ = .ok (s, cursor')) : ∃ o, s.LaidOut kind o bytes := by
  obtain ⟨c₁, c₂, c₃, c₄, states, arcs, hheader, hinput, houtput, hstates, hstates', hannounced, harcs, harcs',
    hend⟩ := exists_of_readSections h
  obtain ⟨hrest, hmagic, hversion, hweights⟩ := rest_of_readHeader hheader
  obtain ⟨input, hrest₁, hflag₁, hfits₁, hread₁⟩ := exists_of_symbols hinput
  obtain ⟨output, hrest₂, hflag₂, hfits₂, hread₂⟩ := exists_of_symbols houtput
  obtain ⟨hrest₃, hlength₃, -⟩ := rest_of_records (fun _ => StateRecord.bytes_ofBytes) hstates
  obtain ⟨hrest₄, hlength₄, hlt⟩ := rest_of_records (fun _ => ArcRecord.bytes_ofBytes) harcs
  refine ⟨⟨s.header, input, output⟩, ?_, ⟨hmagic, hversion, hweights, ?_, ?_⟩, rfl, hread₁, hread₂, ?_, hannounced,
    ?_, hlt⟩
  · show bytes = s.header.bytes ++ storedSymbols input ++ storedSymbols output ++ _ ++ _
    rw [show bytes = _ from hrest, hrest₁, hrest₂, hrest₃, hrest₄, hend, hstates', harcs']
    simp only [List.append_assoc, List.append_nil]
  · rintro (_ | _)
    exacts [hflag₁, hflag₂]
  · rintro (_ | _)
    exacts [hfits₁, hfits₂]
  · rw [hstates', List.length_map, hlength₃]
  · rw [harcs', List.length_map, hlength₄]

end Transducer.Binary
