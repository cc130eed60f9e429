import Mathlib
import Transducer.Text.Fields

/-!
# Fields, lines and numbers

Each way to cut a text undoes the way to put it together: fields with blanks between them, lines that are each
terminated, the digits of a number. And what `fields` gives is unbroken, whatever the text.
-/

namespace Transducer.Text

/-! ### Fields -/

/-- Not empty, and without blanks. -/
structure Unbroken (cs : List Char) : Prop where
  ne_nil : cs ≠ []
  not_blank : ∀ c ∈ cs, isBlank c = false

theorem unbroken_iff {cs : List Char} : Unbroken cs ↔ cs ≠ [] ∧ cs.all (!isBlank ·) = true := by
  constructor
  · intro h
    refine ⟨h.ne_nil, List.all_eq_true.2 fun c hc => ?_⟩
    rw [h.not_blank c hc]
    rfl
  · rintro ⟨hne, hall⟩
    refine ⟨hne, fun c hc => ?_⟩
    have hblank := List.all_eq_true.1 hall c hc
    rwa [Bool.not_eq_true'] at hblank

instance (cs : List Char) : Decidable (Unbroken cs) := decidable_of_iff _ unbroken_iff.symm

/-- No piece contains what the pieces are separated by. -/
theorem not_of_mem_splitOnP {α : Type} {p : α → Bool} {l piece : List α} (h : piece ∈ l.splitOnP p) :
    ∀ x ∈ piece, p x = false := by
  induction l generalizing piece with
  | nil =>
    rw [List.splitOnP_nil, List.mem_singleton] at h
    simp [h]
  | cons y l ih =>
    rw [List.splitOnP_cons_eq_if_modifyHead] at h
    split at h
    · rcases List.mem_cons.1 h with rfl | h
      · simp
      · exact ih h
    · next hy =>
      obtain ⟨first, rest, heq⟩ := List.exists_cons_of_ne_nil (List.splitOnP_ne_nil p l)
      rw [heq, List.modifyHead_cons] at h
      rw [heq] at ih
      rcases List.mem_cons.1 h with rfl | h
      · exact List.forall_mem_cons.2 ⟨Bool.eq_false_of_not_eq_true hy, ih List.mem_cons_self⟩
      · exact ih (List.mem_cons_of_mem _ h)

theorem unbroken_of_mem_fields {cs field : List Char} (h : field ∈ fields cs) : Unbroken field := by
  obtain ⟨hpiece, hne⟩ := List.mem_filter.1 h
  exact ⟨by simpa using hne, not_of_mem_splitOnP hpiece⟩

theorem fields_of_unbroken {cs : List Char} (h : Unbroken cs) : fields cs = [cs] := by
  rw [fields, List.splitOnP_eq_singleton h.not_blank]
  simp [h.ne_nil]

/-- A blank separates fields. -/
theorem fields_append_cons {c : Char} (hc : isBlank c = true) (cs others : List Char) :
    fields (cs ++ c :: others) = fields cs ++ fields others := by
  rw [fields, List.splitOnP_append_cons cs others hc, List.filter_append]
  rfl

theorem fields_cons_of_blank {c : Char} (h : isBlank c = true) (cs : List Char) : fields (c :: cs) = fields cs :=
  fields_append_cons h [] cs

theorem fields_cons_ne_nil {c : Char} (h : isBlank c = false) (cs : List Char) : fields (c :: cs) ≠ [] := by
  obtain ⟨first, rest, heq⟩ := List.exists_cons_of_ne_nil (List.splitOnP_ne_nil isBlank cs)
  rw [fields, List.splitOnP_cons_eq_if_modifyHead, if_neg (by simp [h]), heq, List.modifyHead_cons]
  simp

theorem fields_eq_nil_iff {cs : List Char} : fields cs = [] ↔ ∀ c ∈ cs, isBlank c = true := by
  induction cs with
  | nil => simp [fields]
  | cons c cs ih =>
    rw [List.forall_mem_cons]
    cases hc : isBlank c with
    | true => rw [fields_cons_of_blank hc, ih, eq_self, true_and]
    | false => simp [fields_cons_ne_nil hc]

/-- Blanks at the end are in no field. -/
theorem fields_append_of_blank {cs blanks : List Char} (h : ∀ c ∈ blanks, isBlank c = true) :
    fields (cs ++ blanks) = fields cs := by
  cases blanks with
  | nil => rw [List.append_nil]
  | cons c blanks =>
    rw [List.forall_mem_cons] at h
    rw [fields_append_cons h.1, fields_eq_nil_iff.2 h.2, List.append_nil]

/-! ### Lines -/

theorem dropEnd_eq_self {p : Char → Bool} {cs : List Char} (h : ∀ c ∈ cs, p c = false) : dropEnd p cs = cs := by
  have hdrop : cs.reverse.dropWhile p = cs.reverse := by
    rw [List.dropWhile_eq_self_iff]
    intro hlength
    rw [h _ (List.mem_reverse.1 (List.getElem_mem hlength))]
    simp
  rw [dropEnd, hdrop, List.reverse_reverse]

theorem fields_dropEnd {p : Char → Bool} (h : ∀ c, p c = true → isBlank c = true) (cs : List Char) :
    fields (dropEnd p cs) = fields cs := by
  have happend : dropEnd p cs ++ (cs.reverse.takeWhile p).reverse = cs := by
    rw [dropEnd, ← List.reverse_append, List.takeWhile_append_dropWhile, List.reverse_reverse]
  have hblank : ∀ c ∈ (cs.reverse.takeWhile p).reverse, isBlank c = true :=
    fun c hc => h c (List.mem_takeWhile_imp (List.mem_reverse.1 hc))
  rw [← fields_append_of_blank hblank, happend]

/-- Terminated lines are read as lines, and so is what comes after them, if there is something. -/
theorem byteLines_flatMap_append {lines : List (List UInt8)} {last : List UInt8} (h : ∀ line ∈ lines, 10 ∉ line)
    (hlast : 10 ∉ last) :
    byteLines (lines.flatMap (· ++ [10]) ++ last) = if last = [] then lines else lines ++ [last] := by
  have hsplit : (lines.flatMap (· ++ [10]) ++ last).splitOn 10 = lines ++ [last] := by
    induction lines with
    | nil => exact List.splitOn_eq_singleton hlast
    | cons line lines ih =>
      rw [List.forall_mem_cons] at h
      rw [List.flatMap_cons, List.append_assoc, List.append_assoc, List.singleton_append,
        List.splitOn_append_cons_self_of_not_mem h.1, ih h.2, List.cons_append]
  rw [byteLines, hsplit]
  simp

/-- Lines that are each terminated are read as lines. -/
theorem byteLines_flatMap {lines : List (List UInt8)} (h : ∀ line ∈ lines, 10 ∉ line) :
    byteLines (lines.flatMap (· ++ [10])) = lines := by
  simpa using byteLines_flatMap_append h (List.not_mem_nil : 10 ∉ ([] : List UInt8))

/-! ### Numbers -/

theorem isDigit_iff {c : Char} : c.isDigit = true ↔ 48 ≤ c.toNat ∧ c.toNat ≤ 57 := by
  simp [Char.isDigit, UInt32.le_iff_toNat_le]

theorem digit?_of_isDigit {c : Char} (h : c.isDigit = true) : digit? c = some (c.toNat - '0'.toNat) :=
  if_pos (isDigit_iff.1 h)

theorem not_isBlank_of_isDigit {c : Char} (h : c.isDigit = true) : isBlank c = false := by
  obtain ⟨hlow, hhigh⟩ := isDigit_iff.1 h
  simp only [isBlank, Bool.or_eq_false_iff, Bool.and_eq_false_iff, decide_eq_false_iff_not, beq_eq_false_iff_ne]
  omega

theorem digitsFrom?_eq {cs : List Char} (h : ∀ c ∈ cs, c.isDigit = true) (n : Nat) :
    digitsFrom? n cs = some (Nat.ofDigitChars 10 cs n) := by
  induction cs generalizing n with
  | nil => rfl
  | cons c cs ih =>
    rw [List.forall_mem_cons] at h
    rw [digitsFrom?, digit?_of_isDigit h.1, Option.bind_some, ih h.2, Nat.ofDigitChars_cons]

theorem isDigit_of_mem_toDigits {n : Nat} {c : Char} (h : c ∈ Nat.toDigits 10 n) : c.isDigit = true :=
  Nat.isDigit_of_mem_toDigits (by decide) (by decide) h

theorem unbroken_toDigits (n : Nat) : Unbroken (Nat.toDigits 10 n) :=
  ⟨Nat.toDigits_ne_nil, fun _ hc => not_isBlank_of_isDigit (isDigit_of_mem_toDigits hc)⟩

/-- A sign is no digit, so what begins with a digit is read as digits only. -/
theorem natural?_of_isDigit {c : Char} (h : c.isDigit = true) (cs : List Char) :
    natural? (c :: cs) = digitsFrom? 0 (c :: cs) := by
  unfold natural?
  split
  · next heq => cases heq
  · next heq => cases heq; cases h
  · next heq => cases heq; cases h
  · rfl

/-- The digits of a number are read as the number. -/
theorem natural?_toDigits (n : Nat) : natural? (Nat.toDigits 10 n) = some n := by
  have hread := digitsFrom?_eq (fun _ hc => isDigit_of_mem_toDigits (n := n) hc) 0
  rw [Nat.ofDigitChars_ten_toDigits] at hread
  obtain ⟨c, cs, heq⟩ := List.exists_cons_of_ne_nil (Nat.toDigits_ne_nil (n := n) (b := 10))
  have hc : c.isDigit = true := isDigit_of_mem_toDigits (heq ▸ List.mem_cons_self)
  rw [heq] at hread ⊢
  rw [natural?_of_isDigit hc, hread]

end Transducer.Text
