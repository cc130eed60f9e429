import Mathlib
import Transducer.Proofs.Binary.Sections

/-!
# Reading by places

A reader has only what is left of the data before it, so that it cannot look anywhere else. A `Scanner` has all of
the data and the place that it has reached. It looks at bytes by their numbers, cuts parts out by their bounds and
computes with places and counts, and each of these steps fails where it goes beyond what is there. Such a failure
is a `Breakdown` that is not a fault of the data.

The scanner of the sections finds what their reader finds, or the same fault of the data (`matches_sections`).
Every failure of the other kind is therefore ruled out by a check that comes before it.
-/

namespace Transducer.Binary

/-! ### Steps that may fail -/

/-- Why a program stops that reads data and puts an automaton together. -/
inductive Breakdown where
  /-- Something is looked at that is not there. -/
  | outOfRange
  /-- A number is below zero, or has more than eight bytes. -/
  | overflow
  /-- The data is refused. -/
  | malformed (m : Malformation)
  /-- A change of the automaton is refused. -/
  | refused (e : Error)

section

variable {α : Type}

/-- An item of a list. -/
def item (xs : List α) (i : Nat) : Except Breakdown α :=
  match xs[i]? with
  | some x => .ok x
  | none => .error .outOfRange

/-- A part of a list. -/
def slice (xs : List α) (first count : Nat) : Except Breakdown (List α) :=
  if first + count ≤ xs.length then .ok ((xs.drop first).take count) else .error .outOfRange

/-- The first parts of one size. -/
def slices (xs : List α) (size count : Nat) : Except Breakdown (List (List α)) :=
  (List.range count).mapM fun i => slice xs (i * size) size

/-- Something of this size is made of the bytes. -/
def exactly (bytes : List UInt8) (size : Nat) : Except Breakdown Unit :=
  if bytes.length = size then .ok () else .error .outOfRange

def minus (m n : Nat) : Except Breakdown Nat := if n ≤ m then .ok (m - n) else .error .overflow

def plus (m n : Nat) : Except Breakdown Nat := if m + n < UInt64.size then .ok (m + n) else .error .overflow

/-- A program that reads all of the data, from the place that it has reached. -/
abbrev Scanner (α : Type) := ReaderT (List UInt8) (StateT Nat (Except Breakdown)) α

end

/-! ### The scanners -/

namespace Scanner

/-- Refuses the data if there is a fault. -/
def refuse (fault : Prop) [Decidable fault] (m : Malformation) : Scanner PUnit :=
  if fault then throw (.malformed m) else pure ⟨⟩

/-- The number of bytes from the place on. -/
def remaining : Scanner Nat := do minus (← read).length (← get)

/-- The next bytes. -/
def take (count : Nat) : Scanner (List UInt8) := do
  let available ← remaining
  let place ← get
  refuse (available < count) (.truncated count place available)
  let bytes ← slice (← read) place count
  set (place + count)
  return bytes

/-- A word of four bytes. -/
def word : Scanner UInt32 := do
  let bytes ← take 4
  return ofWordBytes [← item bytes 0, ← item bytes 1, ← item bytes 2, ← item bytes 3]

/-- A text after the number of its bytes. -/
def text : Scanner String := do
  let length ← word
  match Text.decode? (← take length.toNat) with
  | some text => return text
  | none => throw (.malformed (.encoding (← minus (← get) length.toNat)))

/-- Records of one size. -/
def records (size count : Nat) : Scanner (List (List UInt8)) := do
  refuse (UInt64.size ≤ count * size) (.tooManyRecords count)
  let bytes ← take (count * size)
  exactly bytes (count * size)
  slices bytes size count

/-- Adds the next bindings to a symbol table. -/
def entries : Nat → SymbolTable → Scanner SymbolTable
  | 0, table => return table
  | count + 1, table => do
    let key ← word
    let symbol ← text
    match table.addWithKey symbol key with
    | .ok (_, table) => entries count table
    | .error e => throw (.malformed (.table table.name e.message))

/-- A symbol table. -/
def table : Scanner SymbolTable := do
  let name ← text
  let availableKey ← word
  let count ← word
  let table ← entries count.toNat (.empty name)
  refuse (availableKey < table.availableKey) (.availableKey name availableKey)
  return table.raiseAvailableKey availableKey

/-- The symbol table of a side, if the flags announce it. -/
def symbols (flags : UInt32) (side : Side) : Scanner (Option SymbolTable) := do
  if flags &&& flag side = 0 then return none
  return some (← table)

/-- The header, with the kind of weights that it names. -/
def header : Scanner (Header × WeightKind) := do
  let bytes ← take headerSize
  exactly bytes headerSize
  let header := Header.ofBytes bytes
  refuse (header.magic ≠ magic) .magic
  refuse (header.version ≠ version) (.version header.version.toNat)
  match WeightKind.ofTag? header.weights with
  | some kind => return (header, kind)
  | none => throw (.malformed (.weightTag header.weights.toNat))

/-- The number of arcs that the records of some states announce. -/
def total (states : List StateRecord) : Except Breakdown Nat :=
  states.foldlM (fun count record => plus count record.arcs.toNat) 0

/-- What follows the header. -/
def body (header : Header) : Scanner Sections := do
  let inputSymbols ← symbols header.flags .input
  let outputSymbols ← symbols header.flags .output
  let states := (← records stateRecordSize header.states.toNat).map StateRecord.ofBytes
  let counted ← total states
  refuse (counted ≠ header.arcs.toNat) (.arcCount header.arcs.toNat counted)
  let arcs := (← records arcRecordSize counted).map ArcRecord.ofBytes
  let left ← remaining
  refuse (left ≠ 0) (.trailing left)
  return { header, inputSymbols, outputSymbols, states, arcs }

/-- The sections of an automaton with weights of the given kind. When the header has been looked at, reading begins
again and skips it. -/
def sections (kind : WeightKind) : Scanner Sections := do
  let (header, found) ← header
  refuse (found ≠ kind) (.otherKind found kind)
  set 0
  let _ ← take headerSize
  body header

end Scanner

/-! ### Finding the same -/

/-- At the same place of the data the same has been found, or the same fault of the data. -/
inductive Matches {α : Type} (data : List UInt8) :
    Except Breakdown (α × Nat) → Except Malformation (α × Cursor) → Prop
  | ok (x : α) {place : Nat} (h : place ≤ data.length) :
    Matches data (.ok (x, place)) (.ok (x, ⟨data.drop place, place⟩))
  | error (m : Malformation) : Matches data (.error (.malformed m)) (.error m)

/-- From every place in the data, the scanner finds what the reader finds. -/
def Mirrors {α : Type} (scanner : Scanner α) (reader : Reader α) : Prop :=
  ∀ (data : List UInt8) (place : Nat), place ≤ data.length →
    Matches data (scanner data place) (reader ⟨data.drop place, place⟩)

section

variable {α β : Type} {scanner : Scanner α} {reader : Reader α} {next : α → Scanner β} {next' : α → Reader β}
  {data bytes : List UInt8} {place place' : Nat} {cursor : Cursor}

/-- What comes next may rely on what has been read. -/
theorem Matches.bind (h : Matches data (scanner data place) (reader cursor))
    (hnext : ∀ x place', place' ≤ data.length → reader cursor = .ok (x, ⟨data.drop place', place'⟩) →
      Matches data (next x data place') (next' x ⟨data.drop place', place'⟩)) :
    Matches data ((scanner >>= next) data place) ((reader >>= next') cursor) := by
  show Matches data (scanner data place >>= fun result => next result.1 data result.2)
    (reader cursor >>= fun result => next' result.1 result.2)
  generalize scanner data place = found at h
  generalize reader cursor = found' at h hnext
  cases h with
  | ok x hplace => exact hnext x _ hplace rfl
  | error m => exact .error m

theorem mirrors_pure (x : α) : Mirrors (pure x) (pure x) := fun _ _ h => .ok x h

theorem mirrors_throw (m : Malformation) : Mirrors (throw (.malformed m) : Scanner α) (throw m) :=
  fun _ _ _ => .error m

theorem Mirrors.bind (h : Mirrors scanner reader) (hnext : ∀ x, Mirrors (next x) (next' x)) :
    Mirrors (scanner >>= next) (reader >>= next') := fun data place hplace =>
  (h data place hplace).bind fun x place' hplace' _ => hnext x data place' hplace'

theorem mirrors_refuse (fault : Prop) [Decidable fault] (m : Malformation) :
    Mirrors (Scanner.refuse fault m) (refuse fault m) := by
  unfold Scanner.refuse refuse
  split
  · exact mirrors_throw m
  · exact mirrors_pure PUnit.unit

theorem minus_of_le {m n : Nat} (h : n ≤ m) : minus m n = .ok (m - n) := if_pos h

theorem exactly_of_eq {size : Nat} (h : bytes.length = size) : exactly bytes size = .ok () := if_pos h

theorem slice_of_le {xs : List α} {first count : Nat} (h : first + count ≤ xs.length) :
    slice xs first count = .ok ((xs.drop first).take count) :=
  if_pos h

theorem scanner_bind_of_ok {x : α} (h : scanner data place = .ok (x, place')) :
    (scanner >>= next) data place = next x data place' := by
  show (scanner data place >>= fun result => next result.1 data result.2) = _
  rw [h]
  rfl

theorem step_bind_of_ok {step : Except Breakdown α} {x : α} (h : step = .ok x) :
    ((step : Scanner α) >>= next) data place = next x data place := by
  subst h
  rfl

theorem remaining_of_le (h : place ≤ data.length) :
    Scanner.remaining data place = .ok (data.length - place, place) := by
  show ((minus data.length place : Scanner Nat)) data place = _
  rw [minus_of_le h]
  rfl

theorem read_bind (next : List UInt8 → Scanner β) : (read >>= next) data place = next data data place := rfl

theorem place_bind (next : Nat → Scanner β) : (get >>= next) data place = next place data place := rfl

theorem scanner_refuse_of_not {fault : Prop} [Decidable fault] {m : Malformation} (h : ¬fault) :
    Scanner.refuse fault m data place = .ok (⟨⟩, place) := by
  rw [Scanner.refuse, if_neg h]
  rfl

/-- What is cut out is not more than what remains. -/
theorem scanner_take_of_le {count : Nat} (h : place + count ≤ data.length) :
    Scanner.take count data place = .ok ((data.drop place).take count, place + count) := by
  unfold Scanner.take
  rw [scanner_bind_of_ok (remaining_of_le (by omega)), place_bind,
    scanner_bind_of_ok (scanner_refuse_of_not (by omega)), read_bind, step_bind_of_ok (slice_of_le h)]
  rfl

theorem mirrors_take (count : Nat) : Mirrors (Scanner.take count) (Reader.take count) := by
  intro data place hplace
  rw [Reader.take, List.length_drop]
  by_cases h : place + count ≤ data.length
  · rw [scanner_take_of_le h, if_neg (by omega), List.drop_drop]
    exact .ok _ h
  · rw [if_pos (by omega)]
    unfold Scanner.take
    rw [scanner_bind_of_ok (remaining_of_le (by omega)), place_bind, Scanner.refuse, if_pos (by omega)]
    exact .error _

theorem offset_of_take {count : Nat} {cursor' : Cursor} (h : Reader.take count cursor = .ok (bytes, cursor')) :
    cursor'.offset = cursor.offset + count := by
  unfold Reader.take at h
  dsimp only at h
  split at h
  · cases h
  · cases h
    rfl

/-! ### The scanners find the same -/

theorem mirrors_word : Mirrors Scanner.word Reader.word := by
  intro data place hplace
  refine (mirrors_take 4 data place hplace).bind fun bytes place' hplace' htake => ?_
  obtain ⟨-, hlength⟩ := rest_of_take htake
  match bytes, hlength with
  | [b₀, b₁, b₂, b₃], _ => exact .ok _ hplace'

theorem mirrors_text : Mirrors Scanner.text Reader.text := by
  refine mirrors_word.bind fun length data place hplace => ?_
  rw [get_bind]
  refine (mirrors_take length.toNat data place hplace).bind fun bytes place' hplace' htake => ?_
  obtain rfl : place' = place + length.toNat := offset_of_take htake
  cases Text.decode? bytes with
  | some text => exact .ok text hplace'
  | none =>
    show Matches data ((get >>= fun place => (minus place length.toNat : Scanner Nat) >>= _) data _) _
    rw [place_bind, step_bind_of_ok (minus_of_le (Nat.le_add_left _ _)), Nat.add_sub_cancel]
    exact .error _

theorem pieces_eq (size count : Nat) (bytes : List UInt8) :
    Reader.pieces size count bytes = (List.range count).map fun i => (bytes.drop (i * size)).take size := by
  induction count generalizing bytes with
  | zero => rfl
  | succ count ih =>
    rw [Reader.pieces, ih, List.range_succ_eq_map, List.map_cons, List.map_map, Nat.zero_mul, List.drop_zero]
    congr 2
    funext i
    rw [Function.comp, List.drop_drop, Nat.succ_mul, Nat.add_comm]

/-- The records are cut out one by one, where the reader takes the first one off what is left. -/
theorem slices_eq {size count : Nat} (h : bytes.length = count * size) :
    slices bytes size count = .ok (Reader.pieces size count bytes) := by
  rw [slices, pieces_eq]
  apply mapM_eq_ok
  intro i hi
  apply slice_of_le
  have hle := Nat.mul_le_mul_right size (Nat.succ_le_of_lt (List.mem_range.1 hi))
  rw [Nat.succ_mul] at hle
  omega

theorem mirrors_records (size count : Nat) : Mirrors (Scanner.records size count) (Reader.records size count) := by
  unfold Reader.records Scanner.records
  rw [unless_eq]
  refine (mirrors_refuse _ _).bind fun _ data place hplace => ?_
  refine (mirrors_take (count * size) data place hplace).bind fun bytes place' hplace' htake => ?_
  obtain ⟨-, hlength⟩ := rest_of_take htake
  rw [step_bind_of_ok (exactly_of_eq hlength), slices_eq hlength]
  exact .ok _ hplace'

theorem mirrors_entries (count : Nat) (table : SymbolTable) :
    Mirrors (Scanner.entries count table) (Reader.entries count table) := by
  induction count generalizing table with
  | zero => exact mirrors_pure table
  | succ count ih =>
    refine mirrors_word.bind fun key => mirrors_text.bind fun symbol => ?_
    cases table.addWithKey symbol key with
    | ok result => exact ih result.2
    | error e => exact mirrors_throw _

theorem mirrors_table : Mirrors Scanner.table Reader.table := by
  unfold Reader.table
  simp only [unless_eq]
  exact mirrors_text.bind fun name => mirrors_word.bind fun available => mirrors_word.bind fun count =>
    (mirrors_entries _ _).bind fun table => (mirrors_refuse _ _).bind fun _ => mirrors_pure _

theorem mirrors_symbols (flags : UInt32) (side : Side) :
    Mirrors (Scanner.symbols flags side) (Reader.symbols flags side) := by
  unfold Reader.symbols Scanner.symbols
  split
  · exact mirrors_pure none
  · exact mirrors_table.bind fun table => mirrors_pure (some table)

theorem mirrors_header : Mirrors Scanner.header readHeader := by
  unfold readHeader
  simp only [unless_eq]
  intro data place hplace
  refine (mirrors_take headerSize data place hplace).bind fun bytes place' hplace' htake => ?_
  obtain ⟨-, hlength⟩ := rest_of_take htake
  rw [step_bind_of_ok (exactly_of_eq hlength)]
  refine (mirrors_refuse _ _).bind (fun _ => (mirrors_refuse _ _).bind fun _ => ?_) data place' hplace'
  cases WeightKind.ofTag? (Header.ofBytes bytes).weights with
  | some kind => exact mirrors_pure _
  | none => exact mirrors_throw _

theorem announced_le (states : List StateRecord) : announced states ≤ states.length * (UInt32.size - 1) := by
  induction states with
  | nil => exact Nat.zero_le _
  | cons record states ih =>
    have hrecord : record.arcs.toNat ≤ UInt32.size - 1 := Nat.le_pred_of_lt record.arcs.toNat_lt
    rw [announced_cons, List.length_cons, Nat.succ_mul]
    omega

/-- The counts of as many records as a word counts are added up in eight bytes. -/
theorem total_eq {states : List StateRecord} (h : states.length < UInt32.size) :
    Scanner.total states = .ok (announced states) := by
  have hfold : ∀ (states : List StateRecord) (count : Nat), count + announced states < UInt64.size →
      states.foldlM (fun count record => plus count record.arcs.toNat) count = .ok (count + announced states) := by
    intro states
    induction states with
    | nil => exact fun _ _ => rfl
    | cons record states ih =>
      intro count hlt
      rw [announced_cons, ← Nat.add_assoc] at hlt ⊢
      rw [List.foldlM_cons, plus, if_pos (by omega)]
      exact ih _ hlt
  have hle := (announced_le states).trans (Nat.mul_le_mul_right _ (Nat.le_pred_of_lt h))
  rw [Scanner.total, hfold states 0 (by rw [Nat.zero_add]; exact hle.trans_lt (by decide)), Nat.zero_add]

theorem offset_of_readHeader {cursor' : Cursor} {header : Header × WeightKind}
    (h : readHeader cursor = .ok (header, cursor')) : cursor'.offset = cursor.offset + headerSize := by
  unfold readHeader at h
  simp only [unless_eq] at h
  obtain ⟨bytes, _, hbytes, h⟩ := reader_bind_eq_ok.1 h
  obtain ⟨-, h⟩ := refuse_bind_eq_ok.1 h
  obtain ⟨-, h⟩ := refuse_bind_eq_ok.1 h
  have hoffset := offset_of_take hbytes
  cases hkind : WeightKind.ofTag? (Header.ofBytes bytes).weights with
  | none =>
    rw [hkind] at h
    cases h
  | some kind =>
    rw [hkind] at h
    cases h
    exact hoffset

/-- The scanner finds the sections that are read, or the fault for which they are not. -/
theorem matches_sections (kind : WeightKind) (data : List UInt8) :
    Matches data (Scanner.sections kind data 0) (readSections kind ⟨data, 0⟩) := by
  unfold readSections Scanner.sections
  simp only [unless_eq]
  refine (mirrors_header data 0 (Nat.zero_le _)).bind fun result place hplace hheader => ?_
  obtain ⟨header, found⟩ := result
  obtain rfl : place = 0 + headerSize := offset_of_readHeader hheader
  by_cases hkind : found ≠ kind
  · rw [Scanner.refuse, refuse, if_pos hkind, if_pos hkind]
    exact .error _
  rw [scanner_bind_of_ok (scanner_refuse_of_not hkind), refuse, if_neg hkind, pure_bind]
  -- the header is there, so that it can be skipped
  show Matches data ((Scanner.take headerSize >>= fun _ => Scanner.body header) data 0) _
  rw [scanner_bind_of_ok (scanner_take_of_le hplace)]
  refine ((mirrors_symbols _ .input).bind fun input => (mirrors_symbols _ .output).bind fun output => ?_)
    data _ hplace
  intro data place hplace
  refine (mirrors_records _ _ data place hplace).bind fun records place' hplace' hrecords => ?_
  have hlength : (records.map StateRecord.ofBytes).length < UInt32.size := by
    rw [List.length_map, gives_records _ _ _ _ _ hrecords]
    exact header.states.toNat_lt
  rw [step_bind_of_ok (total_eq hlength)]
  refine ((mirrors_refuse _ _).bind fun _ => (mirrors_records _ _).bind fun arcs => ?_) data place' hplace'
  intro data place hplace
  rw [scanner_bind_of_ok (remaining_of_le hplace), get_bind]
  dsimp only
  rw [List.length_drop]
  exact ((mirrors_refuse _ _).bind fun _ => mirrors_pure _) data place hplace

end

end Transducer.Binary
