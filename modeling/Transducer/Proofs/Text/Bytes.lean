import Mathlib
import Transducer.Text.Utf8

/-!
# Texts and their bytes

A text is read back from its bytes, and the bytes are those of its characters, one character after the other. A byte
below 128 is the number of the character it stands for; no other character has such a byte. So the bytes without a
certain one of these are the bytes of the text without that character (`filter_encode`).
-/

namespace Transducer.Text

/-- The bytes of a text are read back as the text. -/
theorem decode?_encode (text : String) : decode? (encode text) = some text := by
  have hbytes : (encode text).toByteArray = text.toByteArray := by
    apply ByteArray.ext
    rw [List.data_toByteArray, encode, Array.toArray_toList]
  rw [decode?, hbytes]
  exact dif_pos text.isValidUTF8

/-- Bytes that are read as a text are its bytes. -/
theorem encode_of_decode? {bytes : List UInt8} {text : String} (h : decode? bytes = some text) :
    encode text = bytes := by
  unfold decode? String.fromUTF8? at h
  split at h
  · cases h
    rw [encode]
    show bytes.toByteArray.data.toList = bytes
    rw [List.data_toByteArray]
  · cases h

theorem encode_ofList (cs : List Char) : encode (String.ofList cs) = cs.flatMap String.utf8EncodeChar := by
  rw [encode, String.toByteArray_ofList, List.utf8Encode, List.data_toByteArray]

theorem encode_eq_flatMap (text : String) : encode text = text.toList.flatMap String.utf8EncodeChar := by
  rw [← encode_ofList, String.ofList_toList]

theorem encode_append (text other : String) : encode (text ++ other) = encode text ++ encode other := by
  simp only [encode_eq_flatMap, String.toList_append, List.flatMap_append]

theorem encode_join (texts : List String) : encode (String.join texts) = texts.flatMap encode := by
  induction texts with
  | nil => rfl
  | cons text texts ih => rw [String.join_cons, encode_append, ih, List.flatMap_cons]

/-! ### The first 128 characters -/

variable {c : Char} {byte : UInt8}

theorem utf8EncodeChar_of_lt (h : c.toNat < 128) : String.utf8EncodeChar c = [UInt8.ofNat c.toNat] :=
  if_pos (Nat.le_of_lt_succ h)

/-- All bytes of any other character are beyond the first 128. -/
theorem le_of_mem_utf8EncodeChar (hc : 128 ≤ c.toNat) (h : byte ∈ String.utf8EncodeChar c) : 128 ≤ byte.toNat := by
  have hfirst : ¬ c.val.toNat ≤ 127 := Nat.not_le.2 hc
  unfold String.utf8EncodeChar at h
  dsimp only at h
  rw [if_neg hfirst] at h
  -- two, three or four bytes, each with its highest bit set
  split at h
  · simp only [List.mem_cons, List.not_mem_nil, or_false] at h
    rcases h with rfl | rfl <;> simp only [UInt8.toNat_ofNat'] <;> omega
  · split at h
    · simp only [List.mem_cons, List.not_mem_nil, or_false] at h
      rcases h with rfl | rfl | rfl <;> simp only [UInt8.toNat_ofNat'] <;> omega
    · simp only [List.mem_cons, List.not_mem_nil, or_false] at h
      rcases h with rfl | rfl | rfl | rfl <;> simp only [UInt8.toNat_ofNat'] <;> omega

/-- A byte below 128 is the number of its character. -/
theorem toNat_eq_of_mem_utf8EncodeChar (hbyte : byte.toNat < 128) (h : byte ∈ String.utf8EncodeChar c) :
    c.toNat = byte.toNat := by
  by_cases hc : c.toNat < 128
  · rw [utf8EncodeChar_of_lt hc, List.mem_singleton] at h
    rw [h, UInt8.toNat_ofNat', Nat.mod_eq_of_lt (Nat.lt_trans hc (by decide))]
  · exact absurd (le_of_mem_utf8EncodeChar (Nat.not_lt.1 hc) h) (Nat.not_le.2 hbyte)

/-- Such a byte is there only with its character. -/
theorem mem_toList_of_mem_encode {text : String} (hc : c.toNat = byte.toNat) (hbyte : byte.toNat < 128)
    (h : byte ∈ encode text) : c ∈ text.toList := by
  rw [encode_eq_flatMap, List.mem_flatMap] at h
  obtain ⟨d, hd, hmem⟩ := h
  have heq : c.toNat = d.toNat := hc.trans (toNat_eq_of_mem_utf8EncodeChar hbyte hmem).symm
  rwa [Char.toNat_inj.1 heq]

/-- The bytes without those of one such character. -/
theorem filter_encode (hc : c.toNat < 128) (text : String) :
    (encode text).filter (· ≠ UInt8.ofNat c.toNat) = encode (String.ofList (text.toList.filter (· ≠ c))) := by
  have hbyte : (UInt8.ofNat c.toNat).toNat = c.toNat := by
    rw [UInt8.toNat_ofNat', Nat.mod_eq_of_lt (Nat.lt_trans hc (by decide))]
  rw [encode_ofList, encode_eq_flatMap]
  induction text.toList with
  | nil => rfl
  | cons d cs ih =>
    rw [List.flatMap_cons, List.filter_append, ih]
    by_cases hd : d = c
    · rw [hd, utf8EncodeChar_of_lt hc, List.filter_cons_of_neg (by simp), List.filter_cons_of_neg (by simp)]
      rfl
    · have hkept : ∀ byte ∈ String.utf8EncodeChar d, byte ≠ UInt8.ofNat c.toNat := by
        rintro _ h rfl
        rw [← hbyte] at hc
        exact hd (Char.toNat_inj.1 ((toNat_eq_of_mem_utf8EncodeChar hc h).trans hbyte))
      rw [List.filter_cons_of_pos (by simpa using hd), List.flatMap_cons,
        List.filter_eq_self.2 (by simpa using hkept)]

end Transducer.Text
