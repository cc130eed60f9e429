import Mathlib
import Transducer.Proofs.Binary.Sections

/-!
# What has been taken

What is read tells which bytes it was read from: numbers, texts, records and headers are stored in one way only. If a
reader of such a part succeeds, the data begins with the bytes in which the part is stored, and the rest is what comes
after them. For symbol tables this is not so, as their bindings may stand in any order.
-/

namespace Transducer.Binary

/-! ### Bytes that are read -/

theorem ofLittleEndian_lt (bytes : List UInt8) : ofLittleEndian bytes < Nat.pow 256 bytes.length := by
  induction bytes with
  | nil => decide
  | cons byte rest ih =>
    have step : Nat.pow 256 (rest.length + 1) = 256 * Nat.pow 256 rest.length := Nat.mul_comm _ _
    have hbyte := byte.toNat_lt
    rw [ofLittleEndian, List.length_cons, step]
    omega

/-- To store a number that has been read gives the bytes. -/
theorem littleEndian_ofLittleEndian (bytes : List UInt8) :
    littleEndian bytes.length (ofLittleEndian bytes) = bytes := by
  induction bytes with
  | nil => rfl
  | cons byte rest ih =>
    have hbyte := byte.toNat_lt
    have hlow : (byte.toNat + 256 * ofLittleEndian rest) % 256 = byte.toNat := by omega
    have hhigh : (byte.toNat + 256 * ofLittleEndian rest) / 256 = ofLittleEndian rest := by omega
    rw [ofLittleEndian, List.length_cons, littleEndian, hlow, hhigh, ih, UInt8.ofNat_toNat]

theorem wordBytes_ofWordBytes {bytes : List UInt8} (h : bytes.length = 4) :
    wordBytes (ofWordBytes bytes) = bytes := by
  have hlt := ofLittleEndian_lt bytes
  rw [h] at hlt
  rw [wordBytes, ofWordBytes, UInt32.toNat_ofNat_of_lt' hlt, ← h, littleEndian_ofLittleEndian]

/-- Four bytes in the middle. -/
theorem wordBytes_ofWordBytes_drop {bytes : List UInt8} {n : Nat} (h : n + 4 ≤ bytes.length) :
    wordBytes (ofWordBytes ((bytes.drop n).take 4)) = (bytes.drop n).take 4 :=
  wordBytes_ofWordBytes (by simp; omega)

theorem Header.bytes_ofBytes {bytes : List UInt8} (h : bytes.length = headerSize) :
    (Header.ofBytes bytes).bytes = bytes := by
  rw [headerSize] at h
  have harcs : littleEndian 8 (UInt64.ofNat (ofLittleEndian (bytes.drop 24))).toNat = bytes.drop 24 := by
    have hlength : (bytes.drop 24).length = 8 := by simp [h]
    have hlt := ofLittleEndian_lt (bytes.drop 24)
    rw [hlength] at hlt
    rw [UInt64.toNat_ofNat_of_lt' hlt, ← hlength, littleEndian_ofLittleEndian]
  have hword : ∀ n, n + 4 ≤ 32 → wordBytes (ofWordBytes ((bytes.drop n).take 4)) = (bytes.drop n).take 4 :=
    fun n hn => wordBytes_ofWordBytes_drop (by omega)
  simp only [Header.bytes, Header.ofBytes, harcs]
  rw [hword _ (by decide), hword _ (by decide), hword _ (by decide), hword _ (by decide), hword _ (by decide),
    hword _ (by decide)]
  simp only [Nat.mul_zero, List.drop_zero, ← List.take_add, Nat.reduceMul, Nat.reduceAdd, List.take_append_drop]

theorem StateRecord.bytes_ofBytes {bytes : List UInt8} (h : bytes.length = stateRecordSize) :
    (StateRecord.ofBytes bytes).bytes = bytes := by
  rw [stateRecordSize] at h
  rw [StateRecord.bytes, StateRecord.ofBytes, wordBytes_ofWordBytes (by simp [h]),
    wordBytes_ofWordBytes (by simp [h]), List.take_append_drop]

theorem ArcRecord.bytes_ofBytes {bytes : List UInt8} (h : bytes.length = arcRecordSize) :
    (ArcRecord.ofBytes bytes).bytes = bytes := by
  rw [arcRecordSize] at h
  have hword : ∀ n, n + 4 ≤ 16 → wordBytes (ofWordBytes ((bytes.drop n).take 4)) = (bytes.drop n).take 4 :=
    fun n hn => wordBytes_ofWordBytes_drop (by omega)
  simp only [ArcRecord.bytes, ArcRecord.ofBytes]
  rw [hword _ (by decide), hword _ (by decide), hword _ (by decide), hword _ (by decide)]
  simp only [Nat.mul_zero, List.drop_zero, ← List.take_add, Nat.reduceMul, Nat.reduceAdd]
  exact List.take_of_length_le h.le

/-! ### What the readers have taken -/

section

variable {cursor cursor' : Cursor}

theorem rest_of_word {word : UInt32} (h : Reader.word cursor = .ok (word, cursor')) :
    cursor.rest = wordBytes word ++ cursor'.rest := by
  obtain ⟨bytes, _, hbytes, ⟨⟩⟩ := reader_bind_eq_ok.1 h
  obtain ⟨hrest, hlength⟩ := rest_of_take hbytes
  rw [hrest, wordBytes_ofWordBytes hlength]

theorem rest_of_text {text : String} (h : Reader.text cursor = .ok (text, cursor')) :
    cursor.rest = storedText text ++ cursor'.rest ∧ Fits text := by
  obtain ⟨length, between, hword, h⟩ := reader_bind_eq_ok.1 h
  obtain ⟨_, _, ⟨⟩, h⟩ := reader_bind_eq_ok.1 h
  obtain ⟨bytes, _, hbytes, h⟩ := reader_bind_eq_ok.1 h
  obtain ⟨hrest, hlength⟩ := rest_of_take hbytes
  cases hdecode : Text.decode? bytes with
  | none =>
    rw [hdecode] at h
    cases h
  | some text =>
    rw [hdecode] at h
    cases h
    have hencode := Text.encode_of_decode? hdecode
    have hfits : Fits text := by
      rw [Fits, hencode, hlength]
      exact length.toNat_lt
    refine ⟨?_, hfits⟩
    rw [rest_of_word hword, hrest, storedText, hencode, hlength, UInt32.ofNat_toNat, List.append_assoc]

theorem flatten_pieces {size count : Nat} {bytes : List UInt8} (h : bytes.length = count * size) :
    (Reader.pieces size count bytes).flatten = bytes ∧
      ∀ piece ∈ Reader.pieces size count bytes, piece.length = size := by
  induction count generalizing bytes with
  | zero => exact ⟨(List.length_eq_zero_iff.1 (by simpa using h)).symm, nofun⟩
  | succ count ih =>
    rw [Nat.succ_mul] at h
    have hdrop : (bytes.drop size).length = count * size := by
      rw [List.length_drop]
      omega
    obtain ⟨hflatten, hpieces⟩ := ih hdrop
    rw [Reader.pieces, List.flatten_cons, hflatten, List.take_append_drop]
    exact ⟨rfl, List.forall_mem_cons.2 ⟨List.length_take_of_le (by omega), hpieces⟩⟩

/-- Records of any kind are stored as the bytes from which they are made. -/
theorem rest_of_records {α : Type} {ofBytes : List UInt8 → α} {toBytes : α → List UInt8} {size count : Nat}
    {records : List (List UInt8)} (hstored : ∀ bytes, bytes.length = size → toBytes (ofBytes bytes) = bytes)
    (h : Reader.records size count cursor = .ok (records, cursor')) :
    cursor.rest = (records.map ofBytes).flatMap toBytes ++ cursor'.rest ∧ records.length = count ∧
      count * size < UInt64.size := by
  unfold Reader.records at h
  rw [unless_eq] at h
  obtain ⟨hfew, h⟩ := refuse_bind_eq_ok.1 h
  obtain ⟨bytes, _, hbytes, ⟨⟩⟩ := reader_bind_eq_ok.1 h
  obtain ⟨hrest, hlength⟩ := rest_of_take hbytes
  obtain ⟨hflatten, hpieces⟩ := flatten_pieces hlength
  refine ⟨?_, length_pieces size count bytes, Nat.lt_of_not_le hfew⟩
  have hmap : (Reader.pieces size count bytes).map (fun piece => toBytes (ofBytes piece)) =
      Reader.pieces size count bytes := by
    rw [List.map_congr_left fun piece hpiece => hstored piece (hpieces piece hpiece), List.map_id']
  rw [hrest, List.flatMap_map, List.flatMap_def, hmap, hflatten]

theorem eq_tag_of_ofTag? {tag : UInt32} {kind : WeightKind} (h : WeightKind.ofTag? tag = some kind) :
    tag = kind.tag := by
  unfold WeightKind.ofTag? at h
  split at h
  · next htag =>
    cases h
    exact htag
  · split at h
    · next htag =>
      cases h
      exact htag
    · cases h

theorem rest_of_readHeader {header : Header} {kind : WeightKind}
    (h : readHeader cursor = .ok ((header, kind), cursor')) :
    cursor.rest = header.bytes ++ cursor'.rest ∧ header.magic = magic ∧ header.version = version ∧
      header.weights = kind.tag := by
  unfold readHeader at h
  simp only [unless_eq] at h
  obtain ⟨bytes, _, hbytes, h⟩ := reader_bind_eq_ok.1 h
  obtain ⟨hmagic, h⟩ := refuse_bind_eq_ok.1 h
  obtain ⟨hversion, h⟩ := refuse_bind_eq_ok.1 h
  obtain ⟨hrest, hlength⟩ := rest_of_take hbytes
  cases hkind : WeightKind.ofTag? (Header.ofBytes bytes).weights with
  | none =>
    rw [hkind] at h
    cases h
  | some kind =>
    rw [hkind] at h
    cases h
    refine ⟨?_, not_not.1 hmagic, not_not.1 hversion, eq_tag_of_ofTag? hkind⟩
    rw [hrest, Header.bytes_ofBytes hlength]

end

end Transducer.Binary
