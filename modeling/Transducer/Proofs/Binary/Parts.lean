import Mathlib
import Transducer.Binary.Writer
import Transducer.Binary.Reader
import Transducer.Proofs.Except
import Transducer.Proofs.SymbolTable.Sound
import Transducer.Proofs.Text.Bytes

/-!
# The parts of stored data

A stored automaton is put together from parts, and it is read back part by part. `Yields reader bytes x` says
that the reader takes exactly these bytes, whatever follows them, and gives `x`; it composes (`Yields.bind`).
For every kind of part this module says which bytes are stored, that they are written if what is counted
fits into a word, and what they yield: words, texts, records of one size, symbol tables and headers.
-/

namespace Transducer.Binary

/-! ### Readers -/

/-- On these bytes, whatever follows them, the reader gives `x` and stops behind them. -/
def Yields {α : Type} (reader : Reader α) (bytes : List UInt8) (x : α) : Prop :=
  ∀ (rest : List UInt8) (offset : Nat),
    reader ⟨bytes ++ rest, offset⟩ = .ok (x, ⟨rest, offset + bytes.length⟩)

section

variable {α β : Type} {reader : Reader α} {next : α → Reader β} {bytes more : List UInt8} {x : α} {y : β}

theorem bind_eq_of_ok {cursor cursor' : Cursor} (h : reader cursor = .ok (x, cursor')) :
    (reader >>= next) cursor = next x cursor' := by
  show (reader cursor >>= fun result => next result.1 result.2) = _
  rw [h]
  rfl

theorem get_bind (next : Cursor → Reader β) (cursor : Cursor) :
    (get >>= next) cursor = next cursor cursor :=
  rfl

theorem yields_pure (x : α) : Yields (pure x) [] x := by
  intro rest offset
  rfl

theorem Yields.bind (h : Yields reader bytes x) (hnext : Yields (next x) more y) :
    Yields (reader >>= next) (bytes ++ more) y := by
  intro rest offset
  rw [List.append_assoc, bind_eq_of_ok (h (more ++ rest) offset), hnext, List.length_append, Nat.add_assoc]

/-- What comes last may also be computed from the parts. -/
theorem Yields.map (h : Yields reader bytes x) (f : α → β) :
    Yields (reader >>= fun x => pure (f x)) bytes (f x) := by
  rw [← List.append_nil bytes]
  apply h.bind
  exact yields_pure (f x)

theorem yields_take {count : Nat} (h : bytes.length = count) : Yields (Reader.take count) bytes bytes := by
  intro rest offset
  have henough : ¬(bytes ++ rest).length < bytes.length := by simp
  rw [← h, Reader.take, if_neg henough, List.take_left, List.drop_left]

/-- What the reader gives, if it gives anything, has the property. -/
def Gives (P : α → Prop) (reader : Reader α) : Prop :=
  ∀ (cursor cursor' : Cursor) (x : α), reader cursor = .ok (x, cursor') → P x

theorem gives_pure {P : α → Prop} (h : P x) : Gives P (pure x) := by
  rintro _ _ _ ⟨⟩
  exact h

/-- It is the last reader that gives the result. -/
theorem Gives.bind {P : β → Prop} (h : ∀ x, Gives P (next x)) : Gives P (reader >>= next) := by
  intro cursor cursor' y heq
  obtain ⟨⟨x, between⟩, -, hy⟩ := bind_eq_ok.1 heq
  exact h x between cursor' y hy

/-- What the next reader gives may depend on what was read before it. -/
theorem Gives.bind_of {Q : α → Prop} {P : β → Prop} (hreader : Gives Q reader) (h : ∀ x, Q x → Gives P (next x)) :
    Gives P (reader >>= next) := by
  intro cursor cursor' y heq
  obtain ⟨⟨x, between⟩, hx, hy⟩ := bind_eq_ok.1 heq
  exact h x (hreader cursor between x hx) between cursor' y hy

/-- A step that does not read gives what it computes. -/
theorem gives_lift {P : α → Prop} {computed : Except Malformation α} (h : ∀ y, computed = .ok y → P y) :
    Gives P (computed : Reader α) := by
  intro cursor cursor' y heq
  cases computed with
  | error e => cases heq
  | ok x =>
    cases heq
    exact h _ rfl

/-- A fault that is looked for in between has no part in the result. -/
theorem Gives.unless {P : α → Prop} {fault : Prop} [Decidable fault] {e : Malformation}
    (h : Gives P reader) :
    Gives P (if fault then do let _ ← (throw e : Reader PUnit); reader else reader) := by
  split
  · exact .bind fun _ => h
  · exact h

end

/-- Of a stored automaton holds what holds of every automaton that is read. -/
theorem of_ofBytes {W : Type} [Weight W] [Costed W] {P : Automaton W → Prop} (h : Gives P readAutomaton)
    {bytes : List UInt8} {a : Automaton W} (ha : Automaton.ofBytes bytes = .ok a) : P a := by
  unfold Automaton.ofBytes at ha
  cases hrun : (readAutomaton (W := W)).run ⟨bytes, 0⟩ with
  | error e =>
    rw [hrun] at ha
    cases ha
  | ok result =>
    rw [hrun] at ha
    obtain rfl := Except.ok.inj ha
    exact h _ _ _ hrun

/-! ### Words and texts -/

theorem yields_word (word : UInt32) : Yields Reader.word (wordBytes word) word := by
  have h := (yields_take (length_wordBytes word)).map ofWordBytes
  rwa [ofWordBytes_wordBytes] at h

theorem toWord_eq {what : String} {n : Nat} (h : n < UInt32.size) : toWord what n = .ok (UInt32.ofNat n) :=
  if_pos h

/-- The bytes of a text can be counted in a word. -/
def Fits (text : String) : Prop := (Text.encode text).length < UInt32.size

instance (text : String) : Decidable (Fits text) := inferInstanceAs (Decidable (_ < _))

/-- What is stored of a text. -/
def storedText (text : String) : List UInt8 :=
  wordBytes (UInt32.ofNat (Text.encode text).length) ++ Text.encode text

theorem textBytes_eq {text : String} (h : Fits text) : textBytes text = .ok (storedText text) := by
  rw [textBytes, toWord_eq h]
  rfl

theorem yields_text {text : String} (h : Fits text) : Yields Reader.text (storedText text) text := by
  intro rest offset
  have hcount : (Text.encode text).length = (UInt32.ofNat (Text.encode text).length).toNat :=
    (UInt32.toNat_ofNat_of_lt' h).symm
  rw [Reader.text, storedText, List.append_assoc, bind_eq_of_ok (yields_word _ _ _), get_bind]
  dsimp only
  rw [bind_eq_of_ok (yields_take hcount _ _), Text.decode?_encode, List.length_append, Nat.add_assoc]
  rfl

/-! ### Records -/

theorem length_flatten_of_forall {pieces : List (List UInt8)} {size : Nat}
    (h : ∀ piece ∈ pieces, piece.length = size) : pieces.flatten.length = pieces.length * size := by
  rw [List.length_flatten, List.eq_replicate_of_mem (a := size) (l := pieces.map List.length) (by simpa using h),
    List.sum_replicate, List.length_map, smul_eq_mul]

theorem pieces_flatten {pieces : List (List UInt8)} {size : Nat}
    (h : ∀ piece ∈ pieces, piece.length = size) :
    Reader.pieces size pieces.length pieces.flatten = pieces := by
  induction pieces with
  | nil => rfl
  | cons piece rest ih =>
    have hpiece := h piece List.mem_cons_self
    rw [List.length_cons, List.flatten_cons, Reader.pieces, List.take_left' hpiece, List.drop_left' hpiece,
      ih fun other hother => h other (List.mem_cons_of_mem _ hother)]

theorem yields_records {α : Type} {bytes : α → List UInt8} {records : List α} {size count : Nat}
    (h : ∀ record, (bytes record).length = size) (hcount : records.length = count)
    (hfits : count * size < UInt64.size) :
    Yields (Reader.records size count) (records.flatMap bytes) (records.map bytes) := by
  have hlength : ∀ piece ∈ records.map bytes, piece.length = size := by
    intro piece hpiece
    obtain ⟨record, -, rfl⟩ := List.mem_map.1 hpiece
    exact h record
  have hpieces := pieces_flatten hlength
  have hsize := length_flatten_of_forall hlength
  rw [List.length_map, hcount] at hpieces hsize
  have htake := (yields_take hsize).map (Reader.pieces size count)
  rw [hpieces] at htake
  rw [Reader.records, if_neg (Nat.not_le_of_lt hfits), List.flatMap_def]
  exact htake

@[simp] theorem StateRecord.length_bytes (record : StateRecord) : record.bytes.length = stateRecordSize := by
  simp [StateRecord.bytes, stateRecordSize]

@[simp] theorem ArcRecord.length_bytes (record : ArcRecord) : record.bytes.length = arcRecordSize := by
  simp [ArcRecord.bytes, arcRecordSize]

theorem StateRecord.ofBytes_bytes (record : StateRecord) : StateRecord.ofBytes record.bytes = record := by
  simp [StateRecord.ofBytes, StateRecord.bytes]

theorem StateRecord.map_ofBytes_bytes (records : List StateRecord) :
    (records.map StateRecord.bytes).map StateRecord.ofBytes = records := by
  rw [List.map_map, List.map_congr_left fun record _ => record.ofBytes_bytes, List.map_id']

theorem ArcRecord.ofBytes_bytes (record : ArcRecord) : ArcRecord.ofBytes record.bytes = record := by
  simp [ArcRecord.ofBytes, ArcRecord.bytes, List.drop_append, List.drop_of_length_le, List.take_of_length_le]

theorem ArcRecord.map_ofBytes_bytes (records : List ArcRecord) :
    (records.map ArcRecord.bytes).map ArcRecord.ofBytes = records := by
  rw [List.map_map, List.map_congr_left fun record _ => record.ofBytes_bytes, List.map_id']

/-! ### Symbol tables -/

/-- The bindings of a table and the bytes of its texts can be counted in words. -/
structure TableFits (table : SymbolTable) : Prop where
  name : Fits table.name
  size_lt : table.size < UInt32.size
  symbol : ∀ entry ∈ table.entries, Fits entry.2

/-- What is stored of a binding. -/
def storedBinding (entry : Label × String) : List UInt8 := wordBytes entry.1 ++ storedText entry.2

/-- What is stored of a symbol table. -/
def storedTable (table : SymbolTable) : List UInt8 :=
  storedText table.name ++ wordBytes table.availableKey ++ wordBytes (UInt32.ofNat table.size) ++
    table.entries.flatMap storedBinding

/-- What is stored of the symbol table of a side. -/
def storedSymbols : Option SymbolTable → List UInt8
  | some table => storedTable table
  | none => []

theorem tableBytes_eq {table : SymbolTable} (h : TableFits table) :
    tableBytes table = .ok (storedTable table) := by
  rw [tableBytes, textBytes_eq h.name, toWord_eq h.size_lt]
  dsimp only [bind, Except.bind]
  rw [mapM_eq_ok (g := storedBinding)]
  · rfl
  · intro entry hentry
    rw [textBytes_eq (h.symbol entry hentry)]
    rfl

theorem yields_entries {table : SymbolTable} {entries : List (Label × String)} (h : table.Extends entries)
    (hfits : ∀ entry ∈ entries, Fits entry.2) :
    Yields (Reader.entries entries.length table) (entries.flatMap storedBinding) (table.bindAll entries) := by
  induction entries generalizing table with
  | nil => exact yields_pure table
  | cons entry rest ih =>
    rw [List.length_cons, List.flatMap_cons, storedBinding, List.append_assoc, Reader.entries]
    apply (yields_word entry.1).bind
    apply (yields_text (hfits entry List.mem_cons_self)).bind
    rw [h.addWithKey_eq]
    exact ih h.bind fun other hother => hfits other (List.mem_cons_of_mem _ hother)

theorem yields_table {table : SymbolTable} (hsound : table.Sound) (hfits : TableFits table) :
    Yields Reader.table (storedTable table) table.rebuild := by
  have hcount : (UInt32.ofNat table.size).toNat = table.entries.length :=
    UInt32.toNat_ofNat_of_lt' hfits.size_lt
  have hentries := yields_entries (hsound.extends_empty table.name) hfits.symbol
  rw [storedTable, List.append_assoc, List.append_assoc, Reader.table]
  apply (yields_text hfits.name).bind
  apply (yields_word table.availableKey).bind
  apply (yields_word (UInt32.ofNat table.size)).bind
  rw [hcount, ← List.append_nil (table.entries.flatMap storedBinding)]
  apply hentries.bind
  dsimp only
  rw [if_neg (UInt32.not_lt.2 (hsound.availableKey_le table.name))]
  exact yields_pure table.rebuild

theorem yields_symbols {flags : UInt32} {side : Side} {symbols : Option SymbolTable}
    (hflag : flags &&& flag side = 0 ↔ symbols = none) (hsound : ∀ table ∈ symbols, table.Sound)
    (hfits : ∀ table ∈ symbols, TableFits table) :
    Yields (Reader.symbols flags side) (storedSymbols symbols) (symbols.map SymbolTable.rebuild) := by
  rw [Reader.symbols]
  cases symbols with
  | none =>
    rw [if_pos (hflag.2 rfl)]
    exact yields_pure none
  | some table =>
    rw [if_neg fun h => by cases hflag.1 h]
    exact (yields_table (hsound table rfl) (hfits table rfl)).map some

/-! ### Headers -/

@[simp] theorem Header.length_bytes (h : Header) : h.bytes.length = headerSize := by
  simp [Header.bytes, headerSize]

theorem Header.ofBytes_bytes (h : Header) : Header.ofBytes h.bytes = h := by
  have harcs : UInt64.ofNat (ofLittleEndian (littleEndian 8 h.arcs.toNat)) = h.arcs := by
    rw [ofLittleEndian_littleEndian, Nat.mod_eq_of_lt h.arcs.toNat_lt, UInt64.ofNat_toNat]
  simp [Header.ofBytes, Header.bytes, List.drop_append, List.drop_of_length_le, harcs]

theorem yields_header {h : Header} {kind : WeightKind} (hmagic : h.magic = magic)
    (hversion : h.version = version) (hkind : h.weights = kind.tag) :
    Yields readHeader h.bytes (h, kind) := by
  rw [readHeader, ← List.append_nil h.bytes]
  apply (yields_take h.length_bytes).bind
  rw [h.ofBytes_bytes]
  dsimp only
  rw [if_neg (not_not.2 hmagic), if_neg (not_not.2 hversion), hkind, WeightKind.ofTag?_tag]
  exact yields_pure (h, kind)

end Transducer.Binary
