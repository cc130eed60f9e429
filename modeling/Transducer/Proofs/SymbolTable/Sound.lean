import Mathlib
import Transducer.SymbolTable.Basic

/-!
# Sound symbol tables

What every symbol table satisfies that is built by its operations: its keys ascend, no symbol has two keys,
and the available key covers every bound key, which means that it lies above it or that both are the last
key. Every operation keeps this (`Sound.bind` and what follows from it).

Binding the symbols of a sound table again, one after the other in the order of their keys, gives the same
bindings. The available key may fall short of the old one, and is raised to it (`Sound.content_rebuild`).
-/

namespace Transducer.SymbolTable

/-! ### Keys -/

/-- The available key lies above the bound one, or both are the last key. -/
def Covers (available key : Label) : Prop := key < available ∨ (key = lastKey ∧ available = lastKey)

instance (available key : Label) : Decidable (Covers available key) :=
  inferInstanceAs (Decidable (_ ∨ _))

theorem covers_nextKey (key : Label) : Covers (nextKey key) key := by
  rw [nextKey]
  split
  · next h => exact .inr ⟨h, rfl⟩
  · next h =>
    left
    rw [lastKey, ← UInt32.toNat_inj] at h
    simp only [UInt32.lt_iff_toNat_lt, UInt32.toNat_add, UInt32.reduceToNat] at h ⊢
    have := key.toNat_lt
    omega

/-- No available key that covers a key is below the next one. -/
theorem Covers.nextKey_le {available key : Label} (h : Covers available key) :
    nextKey key ≤ available := by
  rw [nextKey]
  split
  · next hlast =>
    rcases h with h | h
    · exact UInt32.le_of_lt (hlast ▸ h)
    · rw [h.2]
      apply UInt32.le_refl
  · next hlast =>
    rcases h with h | h
    · simp only [UInt32.lt_iff_toNat_lt, UInt32.le_iff_toNat_le, UInt32.toNat_add, UInt32.reduceToNat] at h ⊢
      omega
    · exact absurd h.1 hlast

theorem Covers.mono {available other key : Label} (h : Covers available key) (hle : available ≤ other) :
    Covers other key := by
  rcases h with h | ⟨hkey, h⟩
  · exact .inl (UInt32.lt_of_lt_of_le h hle)
  · refine .inr ⟨hkey, UInt32.le_antisymm ?_ (h ▸ hle)⟩
    have := other.toNat_lt
    simp only [lastKey, UInt32.le_iff_toNat_le, UInt32.reduceToNat]
    omega

/-! ### Insertion -/

variable {entries : List (Label × String)} {key : Label} {symbol : String}

theorem insertEntry_perm (key : Label) (symbol : String) (entries : List (Label × String)) :
    (insertEntry key symbol entries).Perm ((key, symbol) :: entries) := by
  induction entries with
  | nil => exact .refl _
  | cons entry rest ih =>
    rw [insertEntry]
    split
    · exact .refl _
    · exact (ih.cons entry).trans (.swap ..)

/-- A free key comes between the smaller ones and the larger ones. -/
theorem pairwise_insertEntry (h : (entries.map (·.1)).Pairwise (· < ·)) (hfree : key ∉ entries.map (·.1)) :
    ((insertEntry key symbol entries).map (·.1)).Pairwise (· < ·) := by
  induction entries with
  | nil => exact List.pairwise_singleton ..
  | cons entry rest ih =>
    rw [List.map_cons, List.pairwise_cons] at h
    rw [List.map_cons, List.mem_cons, not_or] at hfree
    rw [insertEntry]
    split
    · next hlt =>
      rw [List.map_cons, List.pairwise_cons]
      refine ⟨fun other hother => ?_, List.pairwise_cons.2 h⟩
      rcases List.mem_cons.1 hother with rfl | hother
      · exact hlt
      · exact UInt32.lt_trans hlt (h.1 other hother)
    · next hle =>
      rw [List.map_cons, List.pairwise_cons]
      refine ⟨fun other hother => ?_, ih h.2 hfree.2⟩
      rw [((insertEntry_perm key symbol rest).map (·.1)).mem_iff] at hother
      rcases List.mem_cons.1 hother with rfl | hother
      · exact UInt32.lt_of_le_of_ne (UInt32.not_lt.1 hle) (Ne.symm hfree.1)
      · exact h.1 other hother

/-- A key above all others comes last. -/
theorem insertEntry_eq_append (h : ∀ other ∈ entries.map (·.1), other < key) :
    insertEntry key symbol entries = entries ++ [(key, symbol)] := by
  induction entries with
  | nil => rfl
  | cons entry rest ih =>
    have hentry := h entry.1 (by simp)
    have hrest := ih fun other hother => h other (List.mem_cons_of_mem _ hother)
    rw [insertEntry, if_neg (UInt32.lt_asymm hentry), hrest]
    rfl

/-! ### Lookup -/

variable {table : SymbolTable}

theorem symbol?_eq_none_iff : table.symbol? key = none ↔ key ∉ table.entries.map (·.1) := by
  rw [symbol?, List.lookup_eq_none_iff, List.mem_map]
  constructor
  · rintro h ⟨entry, hentry, rfl⟩
    simpa using h entry hentry
  · intro h entry hentry
    rw [bne_iff_ne]
    rintro rfl
    exact h ⟨entry, hentry, rfl⟩

theorem key?_eq_none_iff : table.key? symbol = none ↔ symbol ∉ table.entries.map (·.2) := by
  rw [key?, Option.map_eq_none_iff, List.find?_eq_none, List.mem_map]
  constructor
  · rintro h ⟨entry, hentry, rfl⟩
    simpa using h entry hentry
  · intro h entry hentry heq
    exact h ⟨entry, hentry, eq_of_beq heq⟩

/-- The key of a symbol is bound. -/
theorem hasKey_of_key? (h : table.key? symbol = some key) : table.hasKey key = true := by
  obtain ⟨entry, hentry, rfl⟩ := Option.map_eq_some_iff.1 h
  rw [hasKey, Option.isSome_iff_ne_none, ne_eq, symbol?_eq_none_iff, not_not]
  exact List.mem_map.2 ⟨entry, List.mem_of_find?_eq_some hentry, rfl⟩

/-- A symbol and a key that are both free are bound to each other. -/
theorem addWithKey_eq (hsymbol : symbol ∉ table.entries.map (·.2)) (hkey : key ∉ table.entries.map (·.1)) :
    table.addWithKey symbol key = .ok (key, table.bind symbol key) := by
  rw [addWithKey, key?_eq_none_iff.2 hsymbol, symbol?_eq_none_iff.2 hkey]

/-- A symbol and a key are bound to each other already, or they are both free and are bound now. -/
theorem addWithKey_cases {result : Label × SymbolTable} (h : table.addWithKey symbol key = .ok result) :
    (table.key? symbol = some key ∧ result = (key, table)) ∨
      (symbol ∉ table.entries.map (·.2) ∧ key ∉ table.entries.map (·.1) ∧ result = (key, table.bind symbol key)) := by
  rw [addWithKey] at h
  split at h
  · next bound _ hbound =>
    split at h
    · next heq => exact .inl ⟨heq ▸ hbound, (Except.ok.inj h).symm⟩
    · cases h
  · cases h
  · next hsymbol hkey =>
    exact .inr ⟨key?_eq_none_iff.1 hsymbol, symbol?_eq_none_iff.1 hkey, (Except.ok.inj h).symm⟩

/-! ### The invariant -/

/-- What the operations guarantee. -/
structure Sound (table : SymbolTable) : Prop where
  ascending : (table.entries.map (·.1)).Pairwise (· < ·)
  nodup : (table.entries.map (·.2)).Nodup
  covers : ∀ entry ∈ table.entries, Covers table.availableKey entry.1

theorem sound_iff : table.Sound ↔ (table.entries.map (·.1)).Pairwise (· < ·) ∧
    (table.entries.map (·.2)).Nodup ∧ ∀ entry ∈ table.entries, Covers table.availableKey entry.1 :=
  ⟨fun h => ⟨h.ascending, h.nodup, h.covers⟩, fun h => ⟨h.1, h.2.1, h.2.2⟩⟩

instance (table : SymbolTable) : Decidable table.Sound := decidable_of_iff _ sound_iff.symm

theorem sound_empty (name : String) : (empty name).Sound where
  ascending := List.Pairwise.nil
  nodup := List.nodup_nil
  covers _ h := by cases h

theorem le_availableKey_bind (table : SymbolTable) (symbol : String) (key : Label) :
    table.availableKey ≤ (table.bind symbol key).availableKey := by
  show _ ≤ ite _ _ _
  split
  · apply UInt32.le_refl
  · next h =>
    refine UInt32.le_trans (UInt32.not_lt.1 h) ?_
    rcases covers_nextKey key with h | ⟨hkey, h⟩
    · exact UInt32.le_of_lt h
    · rw [h, hkey]
      apply UInt32.le_refl

theorem covers_bind (table : SymbolTable) (symbol : String) (key : Label) :
    Covers (table.bind symbol key).availableKey key := by
  show Covers (ite _ _ _) key
  split
  · next h => exact .inl h
  · exact covers_nextKey key

/-- The bindings of the new table, in any order. -/
theorem entries_bind_perm (table : SymbolTable) (symbol : String) (key : Label) :
    (table.bind symbol key).entries.Perm ((key, symbol) :: table.entries) :=
  insertEntry_perm key symbol table.entries

theorem Sound.bind (h : table.Sound) (hsymbol : symbol ∉ table.entries.map (·.2))
    (hkey : key ∉ table.entries.map (·.1)) : (table.bind symbol key).Sound where
  ascending := pairwise_insertEntry h.ascending hkey
  nodup := by
    rw [((entries_bind_perm table symbol key).map (·.2)).nodup_iff]
    exact List.nodup_cons.2 ⟨hsymbol, h.nodup⟩
  covers other hother := by
    rw [(entries_bind_perm table symbol key).mem_iff] at hother
    rcases List.mem_cons.1 hother with rfl | hother
    · exact covers_bind table symbol key
    · exact (h.covers other hother).mono (le_availableKey_bind table symbol key)

theorem sound_withEpsilon (name : String) : (withEpsilon name).Sound := by
  apply (sound_empty name).bind <;> simp [empty]

theorem Sound.rename (h : table.Sound) (name : String) : (table.rename name).Sound where
  ascending := h.ascending
  nodup := h.nodup
  covers := h.covers

theorem Sound.addWithKey (h : table.Sound) {result : Label × SymbolTable}
    (hadd : table.addWithKey symbol key = .ok result) : result.2.Sound := by
  obtain ⟨-, rfl⟩ | ⟨hsymbol, hkey, rfl⟩ := addWithKey_cases hadd
  · exact h
  · exact h.bind hsymbol hkey

theorem Sound.add (h : table.Sound) {result : Label × SymbolTable}
    (hadd : table.add symbol = .ok result) : result.2.Sound := by
  rw [SymbolTable.add] at hadd
  split at hadd
  · cases hadd
  · next hsymbol =>
    dsimp only at hadd
    split at hadd
    · cases hadd
    · next hkey =>
      cases hadd
      rw [hasKey, Option.not_isSome_iff_eq_none] at hkey
      exact h.bind (key?_eq_none_iff.1 hsymbol) (symbol?_eq_none_iff.1 hkey)

theorem Sound.raiseAvailableKey (h : table.Sound) (key : Label) : (table.raiseAvailableKey key).Sound := by
  rw [SymbolTable.raiseAvailableKey]
  split
  · next hlt =>
    exact ⟨h.ascending, h.nodup, fun other hother => (h.covers other hother).mono (UInt32.le_of_lt hlt)⟩
  · exact h

/-! ### Binding again -/

/-- A table without its history. -/
def content (table : SymbolTable) : String × List (Label × String) × Label :=
  (table.name, table.entries, table.availableKey)

/-- The table with more bindings, in this order. -/
def bindAll (table : SymbolTable) (entries : List (Label × String)) : SymbolTable :=
  entries.foldl (fun table entry => table.bind entry.2 entry.1) table

/-- The table that is built by binding the symbols of a table again. -/
def rebuild (table : SymbolTable) : SymbolTable :=
  ((empty table.name).bindAll table.entries).raiseAvailableKey table.availableKey

/-- The bindings come on top of those of the table: their keys are higher and their symbols are new. -/
structure Extends (table : SymbolTable) (entries : List (Label × String)) : Prop where
  ascending : ((table.entries ++ entries).map (·.1)).Pairwise (· < ·)
  nodup : ((table.entries ++ entries).map (·.2)).Nodup

variable {entry : Label × String}

theorem Sound.extends_empty (h : table.Sound) (name : String) : (empty name).Extends table.entries :=
  ⟨h.ascending, h.nodup⟩

theorem Extends.entries_bind (h : table.Extends (entry :: entries)) :
    (table.bind entry.2 entry.1).entries = table.entries ++ [entry] := by
  have hkeys := h.ascending
  rw [List.map_append, List.pairwise_append] at hkeys
  exact insertEntry_eq_append fun other hother => hkeys.2.2 other hother entry.1 (by simp)

theorem Extends.bind (h : table.Extends (entry :: entries)) :
    (table.bind entry.2 entry.1).Extends entries := by
  constructor <;> rw [h.entries_bind, List.append_assoc, List.singleton_append]
  · exact h.ascending
  · exact h.nodup

theorem Extends.addWithKey_eq (h : table.Extends (entry :: entries)) :
    table.addWithKey entry.2 entry.1 = .ok (entry.1, table.bind entry.2 entry.1) := by
  have hkeys := h.ascending
  have hsymbols := h.nodup
  rw [List.map_append, List.pairwise_append] at hkeys
  rw [List.map_append, List.nodup_append] at hsymbols
  apply SymbolTable.addWithKey_eq
  · intro hmem
    exact hsymbols.2.2 entry.2 hmem entry.2 (by simp) rfl
  · intro hmem
    exact UInt32.lt_irrefl _ (hkeys.2.2 entry.1 hmem entry.1 (by simp))

theorem Extends.entries_bindAll (h : table.Extends entries) :
    (table.bindAll entries).entries = table.entries ++ entries := by
  induction entries generalizing table with
  | nil => exact (List.append_nil _).symm
  | cons entry rest ih =>
    show ((table.bind entry.2 entry.1).bindAll rest).entries = _
    rw [ih h.bind, h.entries_bind, List.append_assoc, List.singleton_append]

theorem name_bindAll (table : SymbolTable) (entries : List (Label × String)) :
    (table.bindAll entries).name = table.name := by
  induction entries generalizing table with
  | nil => rfl
  | cons entry rest ih => exact ih (table.bind entry.2 entry.1)

/-- No more keys are used than an available key covers that covers all bindings. -/
theorem availableKey_bindAll_le {available : Label} (htable : table.availableKey ≤ available)
    (h : ∀ entry ∈ entries, Covers available entry.1) :
    (table.bindAll entries).availableKey ≤ available := by
  induction entries generalizing table with
  | nil => exact htable
  | cons entry rest ih =>
    show ((table.bind entry.2 entry.1).bindAll rest).availableKey ≤ available
    apply ih
    · show ite _ _ _ ≤ _
      split
      · exact htable
      · exact (h entry List.mem_cons_self).nextKey_le
    · intro other hother
      exact h other (List.mem_cons_of_mem _ hother)

theorem content_raiseAvailableKey {available : Label} (h : table.availableKey ≤ available) :
    (table.raiseAvailableKey available).content = (table.name, table.entries, available) := by
  rw [SymbolTable.raiseAvailableKey]
  split
  · rfl
  · next hlt => rw [content, UInt32.le_antisymm h (UInt32.not_lt.1 hlt)]

theorem Sound.availableKey_le (h : table.Sound) (name : String) :
    ((empty name).bindAll table.entries).availableKey ≤ table.availableKey := by
  apply availableKey_bindAll_le _ h.covers
  show 0 ≤ table.availableKey
  simp [UInt32.le_iff_toNat_le]

/-- A table that is bound again is the same table, but for its history. -/
theorem Sound.content_rebuild (h : table.Sound) : table.rebuild.content = table.content := by
  rw [rebuild, content_raiseAvailableKey (h.availableKey_le table.name), name_bindAll,
    (h.extends_empty table.name).entries_bindAll]
  rfl

end Transducer.SymbolTable
