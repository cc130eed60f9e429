import Mathlib
import Transducer.SymbolTable.Listing
import Transducer.Proofs.Except
import Transducer.Proofs.SymbolTable.Sound
import Transducer.Proofs.Text.Bytes
import Transducer.Proofs.Text.Fields

/-!
# Symbol tables that can be read back

The text of a table is read back as the same bindings if and only if every symbol is unbroken: it is not empty and
holds no blank (`exists_ofText_listing_iff`). Another symbol may split its line in two or leave it with one field or
with three, and what is read then may even be a table. But it is another one: whatever is read has symbols that are
fields of lines, and so unbroken.
-/

namespace Transducer.SymbolTable

open Text

variable {table table' : SymbolTable} {entry : Label × String} {entries : List (Label × String)}

/-! ### What is read -/

/-- A line adds nothing or an unbroken symbol. -/
theorem addLine_cases {number : Nat} {line : String} (h : table.addLine number line = .ok table') :
    table' = table ∨ ∃ symbol key result, Unbroken symbol.toList ∧ table.addWithKey symbol key = .ok result ∧
      table' = result.2 := by
  unfold addLine at h
  dsimp only at h
  split at h
  · exact .inl (Except.ok.inj h).symm
  · next symbol field heq =>
    have hsymbol : Unbroken symbol := unbroken_of_mem_fields (heq ▸ List.mem_cons_self)
    split at h
    · obtain ⟨result, hresult, rfl⟩ := map_eq_ok.1 h
      exact .inr ⟨_, _, result, by rwa [String.toList_ofList], hresult, rfl⟩
    · cases h
  · cases h

/-- What adding such symbols to a table keeps holds of every table that is read. -/
theorem of_ofBytes {P : SymbolTable → Prop} {name : String} {bytes : List UInt8} (hempty : P (empty name))
    (hadd : ∀ {table : SymbolTable} {symbol : String} {key : Label} {result : Label × SymbolTable},
      P table → Unbroken symbol.toList → table.addWithKey symbol key = .ok result → P result.2)
    (h : ofBytes name bytes = .ok table) : P table := by
  refine of_foldlM_eq_ok (fun {table line table'} htable hline => ?_) hempty h
  split at hline
  · obtain rfl | ⟨symbol, key, result, hsymbol, hresult, rfl⟩ := addLine_cases hline
    · exact htable
    · exact hadd htable hsymbol hresult
  · cases hline

/-- Every symbol fits into a column of its own. -/
def Tabular (table : SymbolTable) : Prop := ∀ entry ∈ table.entries, Unbroken entry.2.toList

theorem tabular_empty (name : String) : (empty name).Tabular := fun _ h => nomatch h

theorem Tabular.addWithKey (h : table.Tabular) {symbol : String} {key : Label} {result : Label × SymbolTable}
    (hsymbol : Unbroken symbol.toList) (hadd : table.addWithKey symbol key = .ok result) : result.2.Tabular := by
  obtain ⟨-, rfl⟩ | ⟨-, -, rfl⟩ := addWithKey_cases hadd
  · exact h
  · intro entry hentry
    rw [(entries_bind_perm table symbol key).mem_iff] at hentry
    rcases List.mem_cons.1 hentry with rfl | hentry
    · exact hsymbol
    · exact h entry hentry

theorem tabular_of_ofBytes {name : String} {bytes : List UInt8} (h : ofBytes name bytes = .ok table) :
    table.Tabular :=
  of_ofBytes (tabular_empty name) (fun htable hsymbol hadd => htable.addWithKey hsymbol hadd) h

/-! ### What is written -/

/-- The line of a binding, without its end. -/
def row (entry : Label × String) : String := entry.2 ++ "\t" ++ toString entry.1

theorem toList_row (entry : Label × String) :
    (row entry).toList = entry.2.toList ++ '\t' :: Nat.toDigits 10 entry.1.toNat := by
  have hkey : (toString entry.1).toList = Nat.toDigits 10 entry.1.toNat := Nat.toList_repr
  rw [row, String.toList_append, String.toList_append, hkey, List.append_assoc]
  rfl

/-- The only blank in the line is the tab. -/
theorem of_mem_row (h : Unbroken entry.2.toList) {c : Char} (hc : c ∈ (row entry).toList) :
    isBlank c = false ∨ c = '\t' := by
  rw [toList_row, List.mem_append, List.mem_cons] at hc
  rcases hc with hc | rfl | hc
  · exact .inl (h.not_blank c hc)
  · exact .inr rfl
  · exact .inl ((unbroken_toDigits _).not_blank c hc)

theorem encode_listing (table : SymbolTable) :
    encode table.listing = (table.entries.map fun entry => encode (row entry)).flatMap (· ++ [10]) := by
  have hlisting : table.listing = String.join (table.entries.map fun entry => row entry ++ "\n") := rfl
  rw [hlisting, encode_join, List.flatMap_map, List.flatMap_map]
  refine congrArg (table.entries.flatMap ·) (funext fun entry => ?_)
  rw [encode_append]
  rfl

theorem parseKey?_toDigits (key : Label) : parseKey? (Nat.toDigits 10 key.toNat) = some key := by
  rw [parseKey?, natural?_toDigits, Option.bind_some, if_pos key.toNat_lt, UInt32.ofNat_toNat]

/-- The line of a binding is read as the binding. -/
theorem addLine_row (h : Unbroken entry.2.toList) (table : SymbolTable) (number : Nat) :
    table.addLine number (row entry) = (table.addWithKey entry.2 entry.1).map (·.2) := by
  have hends : ∀ c ∈ (row entry).toList, (c == '\r' || c == '\n') = false := by
    intro c hc
    rcases of_mem_row h hc with hblank | rfl
    · rw [Bool.or_eq_false_iff, beq_eq_false_iff_ne, beq_eq_false_iff_ne]
      constructor <;> (rintro rfl; cases hblank)
    · rfl
  have hfields : fields (row entry).toList = [entry.2.toList, Nat.toDigits 10 entry.1.toNat] := by
    rw [toList_row, fields_append_cons rfl, fields_of_unbroken h, fields_of_unbroken (unbroken_toDigits _)]
    rfl
  unfold SymbolTable.addLine
  dsimp only
  rw [dropEnd_eq_self hends, hfields]
  dsimp only
  rw [parseKey?_toDigits, String.ofList_toList]

/-- The line of a binding is one line. -/
theorem not_mem_encode_row (h : Unbroken entry.2.toList) : 10 ∉ encode (row entry) := by
  intro hmem
  have hmem : '\n' ∈ (row entry).toList := mem_toList_of_mem_encode rfl (by decide) hmem
  rcases of_mem_row h hmem with hblank | heq
  · cases hblank
  · cases heq

/-! ### Reading back -/

/-- Bindings that come on top of those of a table are read one after the other. -/
theorem foldlM_rows {read : SymbolTable → List UInt8 × Nat → Except Error SymbolTable}
    (hread : ∀ table number text, read table (encode text, number) = table.addLine number text)
    (hsymbols : ∀ entry ∈ entries, Unbroken entry.2.toList) (h : table.Extends entries) (number : Nat) :
    ((entries.map fun entry => encode (row entry)).zipIdx number).foldlM read table = .ok (table.bindAll entries) := by
  induction entries generalizing table number with
  | nil => rfl
  | cons entry entries ih =>
    rw [List.forall_mem_cons] at hsymbols
    rw [List.map_cons, List.zipIdx_cons, List.foldlM_cons, hread, addLine_row hsymbols.1, h.addWithKey_eq]
    exact ih hsymbols.2 h.bind (number + 1)

/-- The text of a table is read back as its bindings if and only if every symbol is unbroken. -/
theorem exists_ofText_listing_iff (h : table.Sound) (name : String) :
    (∃ table', ofText name table.listing = .ok table' ∧ table'.entries = table.entries) ↔
      ∀ entry ∈ table.entries, Unbroken entry.2.toList := by
  constructor
  · -- whatever the listing looks like, what is read from it has unbroken symbols
    rintro ⟨table', hread, hentries⟩
    rw [← hentries]
    exact tabular_of_ofBytes hread
  · intro hsymbols
    have hlines : ∀ line ∈ table.entries.map fun entry => encode (row entry), 10 ∉ line := by
      intro line hline
      obtain ⟨entry, hentry, rfl⟩ := List.mem_map.1 hline
      exact not_mem_encode_row (hsymbols entry hentry)
    have hextends := h.extends_empty name
    refine ⟨(empty name).bindAll table.entries, ?_, hextends.entries_bindAll⟩
    rw [ofText, ofBytes, encode_listing, byteLines_flatMap hlines]
    refine foldlM_rows (fun table number text => ?_) hsymbols hextends 1
    rw [decode?_encode]

/-- A table with the last key and a symbol of several bytes. -/
def letters : SymbolTable := { name := "letters", entries := [(0, "<eps>"), (lastKey, "ω")], availableKey := lastKey }

/-- A table whose only symbol is written on two lines, and so is read as two others. -/
def twofold : SymbolTable := { name := "twofold", entries := [(2, "a\t1\nb")], availableKey := 3 }

theorem exists_ofText_listing_iff_letters_twofold :
    (∃ table, ofText "letters" letters.listing = .ok table ∧ table.entries = letters.entries) ∧
      ¬ ∃ table, ofText "twofold" twofold.listing = .ok table ∧ table.entries = twofold.entries :=
  ⟨(exists_ofText_listing_iff (by decide) "letters").2 (by decide +kernel),
    mt (exists_ofText_listing_iff (by decide) "twofold").1 (by decide +kernel)⟩

end Transducer.SymbolTable
