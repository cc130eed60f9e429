import Mathlib
import Transducer.Proofs.Binary.Sections

/-!
# Stored data says where it ends

If bytes store an automaton, neither a part of them from the beginning nor a continuation of them stores one
(`ofBytes_of_cut_or_continued`): what is cut off is missed, and what is added is left over.

A reader is `Exact` if whatever it takes it takes again, no matter what follows, and if it misses bytes whenever
some of these are missing. Readers that follow each other are exact if each of them is; so are those of all
sections. Only the end of the data is looked at by a reader that takes nothing. It makes the reader of all
sections `Complete`.
-/

namespace Transducer.Binary

variable {α β : Type} {reader : Reader α} {next : α → Reader β} {bytes more : List UInt8} {x : α} {y : β}

/-! ### Exact readers -/

/-- If some of these bytes are cut off at the end, the reader says that they are missing. -/
def Starves (reader : Reader α) (bytes : List UInt8) : Prop :=
  ∀ n < bytes.length, ∀ offset, ∃ needed place available,
    reader ⟨bytes.take n, offset⟩ = .error (.truncated needed place available)

/-- The reader takes the same bytes, whatever follows them, and none of them can be missing. -/
def Exact (reader : Reader α) : Prop :=
  ∀ (cursor cursor' : Cursor) (x : α), reader cursor = .ok (x, cursor') →
    ∃ bytes, cursor.rest = bytes ++ cursor'.rest ∧ Yields reader bytes x ∧ Starves reader bytes

theorem bind_eq_of_error {cursor : Cursor} {e : Malformation} (h : reader cursor = .error e) :
    (reader >>= next) cursor = .error e := by
  show (reader cursor >>= fun result => next result.1 result.2) = _
  rw [h]
  rfl

/-- The bytes are missed by the reader that would have taken them. -/
theorem Starves.bind (h : Starves reader bytes) (hyields : Yields reader bytes x) (hnext : Starves (next x) more) :
    Starves (reader >>= next) (bytes ++ more) := by
  intro n hn offset
  rw [List.length_append] at hn
  rcases Nat.lt_or_ge n bytes.length with hlt | hge
  · obtain ⟨needed, place, available, herror⟩ := h n hlt offset
    rw [List.take_append_of_le_length hlt.le]
    exact ⟨needed, place, available, bind_eq_of_error herror⟩
  · rw [List.take_append, List.take_of_length_le hge, bind_eq_of_ok (hyields _ _)]
    exact hnext _ (by omega) _

theorem exact_pure (x : α) : Exact (pure x) := by
  rintro cursor _ _ ⟨⟩
  exact ⟨[], rfl, yields_pure x, nofun⟩

theorem exact_throw (e : Malformation) : Exact (throw e : Reader α) := nofun

theorem Exact.bind (h : Exact reader) (hnext : ∀ x, Exact (next x)) : Exact (reader >>= next) := by
  intro cursor cursor' y heq
  obtain ⟨x, between, hx, hy⟩ := reader_bind_eq_ok.1 heq
  obtain ⟨bytes, hbytes, hyields, hstarves⟩ := h cursor between x hx
  obtain ⟨more, hmore, hyields', hstarves'⟩ := hnext x between cursor' y hy
  refine ⟨bytes ++ more, ?_, hyields.bind hyields', hstarves.bind hyields hstarves'⟩
  rw [hbytes, hmore, List.append_assoc]

theorem exact_refuse (fault : Prop) [Decidable fault] (e : Malformation) : Exact (refuse fault e) := by
  unfold refuse
  split
  · exact exact_throw e
  · exact exact_pure _

theorem starves_take {count : Nat} (h : bytes.length = count) : Starves (Reader.take count) bytes := by
  intro n hn offset
  have hfew : (bytes.take n).length < count := by simpa [h] using hn
  exact ⟨_, _, _, if_pos hfew⟩

theorem exact_take (count : Nat) : Exact (Reader.take count) := by
  intro cursor cursor' bytes h
  obtain ⟨hbytes, hlength⟩ := rest_of_take h
  exact ⟨bytes, hbytes, yields_take hlength, starves_take hlength⟩

/-! ### The readers of the sections -/

theorem exact_word : Exact Reader.word := (exact_take 4).bind fun _ => exact_pure _

/-- How much has been read is looked at, but has a part in the error only. -/
theorem exact_text : Exact Reader.text := by
  refine exact_word.bind fun length => ?_
  intro cursor cursor' text h
  obtain ⟨_, _, ⟨⟩, h⟩ := reader_bind_eq_ok.1 h
  obtain ⟨bytes, between, hbytes, h⟩ := reader_bind_eq_ok.1 h
  obtain ⟨hrest, hlength⟩ := rest_of_take hbytes
  cases hdecode : Text.decode? bytes with
  | none =>
    rw [hdecode] at h
    cases h
  | some text =>
    rw [hdecode] at h
    cases h
    refine ⟨bytes, hrest, fun rest offset => ?_, fun n hn offset => ?_⟩
    · rw [get_bind, bind_eq_of_ok (yields_take hlength rest offset), hdecode]
      rfl
    · obtain ⟨needed, place, available, herror⟩ := starves_take hlength n hn offset
      refine ⟨needed, place, available, ?_⟩
      rw [get_bind, bind_eq_of_error herror]

theorem exact_records (size count : Nat) : Exact (Reader.records size count) := by
  unfold Reader.records
  rw [unless_eq]
  exact (exact_refuse _ _).bind fun _ => (exact_take _).bind fun _ => exact_pure _

theorem exact_entries (count : Nat) (table : SymbolTable) : Exact (Reader.entries count table) := by
  induction count generalizing table with
  | zero => exact exact_pure table
  | succ count ih =>
    refine exact_word.bind fun key => exact_text.bind fun symbol => ?_
    cases table.addWithKey symbol key with
    | ok result => exact ih result.2
    | error e => exact exact_throw _

theorem exact_table : Exact Reader.table := by
  unfold Reader.table
  simp only [unless_eq]
  exact exact_text.bind fun name => exact_word.bind fun available => exact_word.bind fun count =>
    (exact_entries _ _).bind fun table => (exact_refuse _ _).bind fun _ => exact_pure _

theorem exact_symbols (flags : UInt32) (side : Side) : Exact (Reader.symbols flags side) := by
  unfold Reader.symbols
  split
  · exact exact_pure none
  · exact exact_table.bind fun table => exact_pure (some table)

theorem exact_readHeader : Exact readHeader := by
  unfold readHeader
  simp only [unless_eq]
  refine (exact_take _).bind fun bytes => (exact_refuse _ _).bind fun _ => (exact_refuse _ _).bind fun _ => ?_
  split
  · exact exact_pure _
  · exact exact_throw _

/-! ### The end of the data -/

/-- What the reader accepts is all of the data: it misses what is cut off, and what is added is left over. -/
def Complete (reader : Reader α) : Prop :=
  ∀ (bytes : List UInt8) (offset : Nat) (cursor' : Cursor) (x : α), reader ⟨bytes, offset⟩ = .ok (x, cursor') →
    Starves reader bytes ∧
      ∀ more ≠ [], ∀ offset, reader ⟨bytes ++ more, offset⟩ = .error (.trailing more.length)

theorem Exact.complete (h : Exact reader) (hnext : ∀ x, Complete (next x)) : Complete (reader >>= next) := by
  intro bytes offset cursor' y heq
  obtain ⟨x, ⟨rest, offset'⟩, hx, hy⟩ := reader_bind_eq_ok.1 heq
  obtain ⟨taken, hbytes, hyields, hstarves⟩ := h _ _ _ hx
  obtain ⟨hstarves', hleft⟩ := hnext x rest offset' cursor' y hy
  obtain rfl : bytes = taken ++ rest := hbytes
  refine ⟨hstarves.bind hyields hstarves', fun more hmore offset => ?_⟩
  rw [List.append_assoc, bind_eq_of_ok (hyields _ _)]
  exact hleft more hmore _

/-- Nothing may be left at the end. -/
theorem complete_end (x : α) :
    Complete (get >>= fun cursor =>
      refuse (cursor.rest.length ≠ 0) (.trailing cursor.rest.length) >>= fun _ => pure x) := by
  intro bytes offset cursor' y h
  rw [get_bind] at h
  obtain ⟨hleft, -⟩ := refuse_bind_eq_ok.1 h
  obtain rfl := List.length_eq_zero_iff.1 (not_not.1 hleft)
  refine ⟨nofun, fun more hmore offset => ?_⟩
  rw [get_bind]
  apply bind_eq_of_error
  exact congrFun (if_pos (mt List.length_eq_zero_iff.1 hmore)) _

theorem complete_readSections (kind : WeightKind) : Complete (readSections kind) := by
  unfold readSections
  simp only [unless_eq]
  exact exact_readHeader.complete fun _ => (exact_refuse _ _).complete fun _ =>
    (exact_symbols _ _).complete fun _ => (exact_symbols _ _).complete fun _ =>
      (exact_records _ _).complete fun _ => (exact_refuse _ _).complete fun _ =>
        (exact_records _ _).complete fun _ => complete_end _

end Transducer.Binary

namespace Transducer.Automaton

variable {W : Type} [Weight W] [Costed W]

/-- Where bytes store an automaton, no beginning and no continuation of them does. -/
theorem ofBytes_of_cut_or_continued {bytes : List UInt8} {a : Automaton W} (h : ofBytes bytes = .ok a) :
    (∀ n < bytes.length, ∃ needed place available,
      (ofBytes (bytes.take n) : Except Error (Automaton W)) =
        .error (.format (.truncated needed place available))) ∧
    ∀ more ≠ [],
      (ofBytes (bytes ++ more) : Except Error (Automaton W)) = .error (.format (.trailing more.length)) := by
  obtain ⟨s, cursor, hread, -⟩ := Binary.ofBytes_eq_ok_iff.1 h
  obtain ⟨hstarves, hleft⟩ := Binary.complete_readSections _ _ _ _ _ hread
  constructor
  · intro n hn
    obtain ⟨needed, place, available, herror⟩ := hstarves n hn 0
    refine ⟨needed, place, available, ?_⟩
    rw [Binary.ofBytes_eq, herror]
    rfl
  · intro more hmore
    rw [Binary.ofBytes_eq, hleft more hmore 0]
    rfl

theorem ofBytes_of_cut_or_continued_tollgate : ofBytes tollgateBytes = .ok tollgate ∧
    (∀ n < tollgateBytes.length, ∃ needed place available,
      (ofBytes (tollgateBytes.take n) : Except Error (Automaton Tropical)) =
        .error (.format (.truncated needed place available))) ∧
    ∀ more ≠ [],
      (ofBytes (tollgateBytes ++ more) : Except Error (Automaton Tropical)) =
        .error (.format (.trailing more.length)) :=
  have hread : ofBytes tollgateBytes = .ok tollgate := by rfl
  ⟨hread, ofBytes_of_cut_or_continued hread⟩

end Transducer.Automaton
