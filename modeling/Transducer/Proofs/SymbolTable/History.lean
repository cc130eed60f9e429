import Mathlib
import Transducer.Proofs.SymbolTable.Listing
import Transducer.Proofs.Binary.Parts

/-!
# The history of a symbol table

A table is new, or read from text or from stored data. From then on it is revised: symbols get the available
key or a given one, and the table gets other names. Some of that may be refused. The available key is the one
that the next symbol gets, unless it is the last one and bound itself (`Sound.exists_add_iff`, `Sound.of_add`).

A later state of a table `Revises` an earlier one: bindings are kept, the available key does not fall, and the
version has grown unless nothing has changed. Every table that comes about is `Grown`: it is `Sound`, and a later
state of an empty one.
-/

namespace Transducer.SymbolTable

variable {table table' table'' : SymbolTable} {symbol : String} {key : Label}

/-! ### Lookup from either side -/

theorem lookup_eq_some_iff {entries : List (Label × String)} (h : (entries.map (·.1)).Nodup) :
    entries.lookup key = some symbol ↔ (key, symbol) ∈ entries := by
  induction entries with
  | nil => simp
  | cons entry rest ih =>
    obtain ⟨hnew, hrest⟩ := List.nodup_cons.1 h
    rw [List.lookup_cons, List.mem_cons, ← ih hrest]
    by_cases hkey : key = entry.1
    · subst hkey
      have hfree : rest.lookup entry.1 ≠ some symbol := fun hsome =>
        hnew (List.mem_map.2 ⟨_, (ih hrest).1 hsome, rfl⟩)
      simp [hfree, Prod.ext_iff, eq_comm]
    · simp [beq_false_of_ne hkey, Prod.ext_iff, hkey]

theorem find?_eq_some_iff {entries : List (Label × String)} (h : (entries.map (·.2)).Nodup) :
    (entries.find? (·.2 == symbol)).map (·.1) = some key ↔ (key, symbol) ∈ entries := by
  induction entries with
  | nil => simp
  | cons entry rest ih =>
    obtain ⟨hnew, hrest⟩ := List.nodup_cons.1 h
    rw [List.find?_cons, List.mem_cons, ← ih hrest]
    by_cases hsymbol : entry.2 = symbol
    · subst hsymbol
      have hfree : (rest.find? (·.2 == entry.2)).map (·.1) ≠ some key := fun hsome =>
        hnew (List.mem_map.2 ⟨_, (ih hrest).1 hsome, rfl⟩)
      rw [beq_self_eq_true]
      simp only [Option.map_some, hfree, or_false, Option.some.injEq, Prod.ext_iff, and_true, eq_comm]
    · simp [beq_false_of_ne hsymbol, Prod.ext_iff, Ne.symm hsymbol]

theorem Sound.symbol?_eq_some_iff (h : table.Sound) :
    table.symbol? key = some symbol ↔ (key, symbol) ∈ table.entries :=
  lookup_eq_some_iff (h.ascending.imp UInt32.ne_of_lt)

theorem Sound.key?_eq_some_iff (h : table.Sound) :
    table.key? symbol = some key ↔ (key, symbol) ∈ table.entries :=
  find?_eq_some_iff h.nodup

theorem findSymbol_eq_ok_iff : table.findSymbol key = .ok symbol ↔ table.symbol? key = some symbol := by
  rw [findSymbol]
  cases table.symbol? key <;> simp

theorem findKey_eq_ok_iff : table.findKey symbol = .ok key ↔ table.key? symbol = some key := by
  rw [findKey]
  cases table.key? symbol <;> simp

/-! ### Revisions -/

/-- The second table is a later state of the first one. -/
structure Revises (table table' : SymbolTable) : Prop where
  entries_subset : ∀ entry ∈ table.entries, entry ∈ table'.entries
  availableKey_le : table.availableKey ≤ table'.availableKey
  version_lt : table' = table ∨ table.version < table'.version

theorem Revises.refl (table : SymbolTable) : table.Revises table := ⟨fun _ h => h, UInt32.le_refl _, .inl rfl⟩

theorem Revises.trans (h : table.Revises table') (h' : table'.Revises table'') : table.Revises table'' where
  entries_subset entry hentry := h'.entries_subset entry (h.entries_subset entry hentry)
  availableKey_le := UInt32.le_trans h.availableKey_le h'.availableKey_le
  version_lt := by
    rcases h'.version_lt with rfl | hlt'
    · exact h.version_lt
    · rcases h.version_lt with rfl | hlt
      · exact .inr hlt'
      · exact .inr (hlt.trans hlt')

theorem revises_bind (table : SymbolTable) (symbol : String) (key : Label) : table.Revises (table.bind symbol key) where
  entries_subset _ h := (entries_bind_perm table symbol key).mem_iff.2 (List.mem_cons_of_mem _ h)
  availableKey_le := le_availableKey_bind table symbol key
  version_lt := .inr (Nat.lt_succ_self _)

theorem revises_rename (table : SymbolTable) (name : String) : table.Revises (table.rename name) where
  entries_subset _ h := h
  availableKey_le := UInt32.le_refl _
  version_lt := .inr (Nat.lt_succ_self _)

theorem revises_raiseAvailableKey (table : SymbolTable) (key : Label) :
    table.Revises (table.raiseAvailableKey key) := by
  rw [raiseAvailableKey]
  split
  · next hlt => exact ⟨fun _ h => h, UInt32.le_of_lt hlt, .inr (Nat.lt_succ_self _)⟩
  · exact .refl table

/-- A symbol is bound to the available key, if it is free and a key is left. -/
theorem add_eq_ok_iff {result : Label × SymbolTable} :
    table.add symbol = .ok result ↔ table.key? symbol = none ∧ table.symbol? table.availableKey = none ∧
      result = (table.availableKey, table.bind symbol table.availableKey) := by
  unfold add
  cases table.key? symbol with
  | some key => simp
  | none =>
    cases hkey : table.symbol? table.availableKey with
    | some other => simp [hasKey, hkey]
    | none =>
      simp only [hasKey, hkey, Option.isSome_none, Bool.false_eq_true, if_false, Except.ok.injEq, true_and]
      exact eq_comm

theorem revises_addWithKey {result : Label × SymbolTable} (h : table.addWithKey symbol key = .ok result) :
    table.Revises result.2 := by
  obtain ⟨-, rfl⟩ | ⟨-, -, rfl⟩ := addWithKey_cases h
  · exact .refl table
  · exact revises_bind table symbol key

theorem addWithKey_of_bound (h : table.key? symbol = some key) : table.addWithKey symbol key = .ok (key, table) := by
  rw [addWithKey, h]
  simp

/-! ### Tables that are read -/

/-- The table is sound, and a later state of an empty one. -/
structure Grown (table : SymbolTable) : Prop where
  sound : table.Sound
  revises : ∃ name, (empty name).Revises table

theorem grown_empty (name : String) : (empty name).Grown := ⟨sound_empty name, name, .refl _⟩

theorem Grown.next (h : table.Grown) (hsound : table'.Sound) (hrevises : table.Revises table') : table'.Grown := by
  obtain ⟨name, hname⟩ := h.revises
  exact ⟨hsound, name, hname.trans hrevises⟩

theorem Grown.addWithKey (h : table.Grown) {result : Label × SymbolTable}
    (hadd : table.addWithKey symbol key = .ok result) : result.2.Grown :=
  h.next (h.sound.addWithKey hadd) (revises_addWithKey hadd)

theorem grown_of_ofBytes {name : String} {bytes : List UInt8} (h : ofBytes name bytes = .ok table) :
    table.Grown :=
  of_ofBytes (grown_empty name) (fun hgrown _ hadd => hgrown.addWithKey hadd) h

section

open Binary

theorem gives_entries (count : Nat) (h : table.Grown) : Gives Grown (Reader.entries count table) := by
  induction count generalizing table with
  | zero => exact gives_pure h
  | succ count ih =>
    refine .bind fun key => .bind fun symbol => ?_
    cases hadd : table.addWithKey symbol key with
    | ok result => exact ih (h.addWithKey hadd)
    | error e => exact fun _ _ _ hthrow => nomatch hthrow

theorem gives_table : Gives Grown Reader.table := by
  refine .bind fun name => .bind fun available => .bind fun count => ?_
  refine .bind_of (gives_entries count.toNat (grown_empty name)) fun table h => ?_
  exact .unless (gives_pure (h.next (h.sound.raiseAvailableKey available) (revises_raiseAvailableKey table available)))

end

/-! ### What is done with a table -/

/-- Where a table comes from. -/
inductive Origin where
  /-- Nothing is bound. -/
  | empty (name : String)
  /-- Epsilon is bound, and nothing else. -/
  | withEpsilon (name : String)
  /-- The table is written in these bytes. -/
  | written (name : String) (bytes : List UInt8)
  /-- The table is stored in the data from the cursor on. -/
  | stored (cursor : Binary.Cursor)

/-- The table of this origin, unless it cannot be read. -/
def Origin.read : Origin → Except Error SymbolTable
  | empty name => .ok (.empty name)
  | withEpsilon name => .ok (.withEpsilon name)
  | written name bytes => ofBytes name bytes
  | stored cursor => ((Binary.Reader.table cursor).map (·.1)).mapError .format

/-- A change of a table. -/
inductive Revision where
  /-- Binds a symbol to the available key. -/
  | add (symbol : String)
  /-- Binds a symbol to a given key. -/
  | addWithKey (symbol : String) (key : Label)
  /-- Gives the table another name. -/
  | rename (name : String)

/-- The table after the change, unless it is refused. -/
def Revision.of (table : SymbolTable) : Revision → Except Error SymbolTable
  | add symbol => (table.add symbol).map (·.2)
  | addWithKey symbol key => (table.addWithKey symbol key).map (·.2)
  | rename name => .ok (table.rename name)

/-- The table after a change that may be refused; it is as before then. -/
def Revision.apply (table : SymbolTable) (revision : Revision) : SymbolTable :=
  match revision.of table with
  | .ok table' => table'
  | .error _ => table

/-- Something is done with a table. -/
inductive Event where
  /-- A table takes the place of the one that there is. -/
  | make (origin : Origin)
  /-- The table that there is is changed. -/
  | revise (revision : Revision)

/-- The table after an event. -/
def Event.next (table? : Option SymbolTable) : Event → Option SymbolTable
  | make origin =>
    match origin.read with
    | .ok table => some table
    | .error _ => table?
  | revise revision => table?.map revision.apply

/-- The table after some events, of which there is none before. -/
def after (events : List Event) : Option SymbolTable := events.foldl Event.next none

theorem Origin.grown_of_read (origin : Origin) (h : origin.read = .ok table) : table.Grown := by
  cases origin with
  | empty name =>
    cases h
    exact grown_empty name
  | withEpsilon name =>
    cases h
    exact (grown_empty name).next (sound_withEpsilon name) (revises_bind _ _ _)
  | written name bytes => exact grown_of_ofBytes h
  | stored cursor =>
    rw [Origin.read] at h
    cases hread : Binary.Reader.table cursor with
    | error e =>
      rw [hread] at h
      cases h
    | ok result =>
      rw [hread] at h
      cases h
      exact gives_table cursor result.2 result.1 hread

/-- A change keeps the table sound and makes a later state of it. -/
theorem Revision.spec (revision : Revision) (h : table.Sound) :
    (revision.apply table).Sound ∧ table.Revises (revision.apply table) := by
  unfold Revision.apply
  split
  · next table' heq =>
    cases revision with
    | add symbol =>
      obtain ⟨result, hadd, rfl⟩ := map_eq_ok.1 heq
      refine ⟨h.add hadd, ?_⟩
      obtain ⟨-, -, rfl⟩ := add_eq_ok_iff.1 hadd
      exact revises_bind _ _ _
    | addWithKey symbol key =>
      obtain ⟨result, hadd, rfl⟩ := map_eq_ok.1 heq
      exact ⟨h.addWithKey hadd, revises_addWithKey hadd⟩
    | rename name =>
      cases heq
      exact ⟨h.rename name, revises_rename _ _⟩
  · exact ⟨h, .refl table⟩

/-- An event keeps the table sound, or gives another one that is. -/
theorem Event.grown_next {table? : Option SymbolTable} (event : Event) (h : ∀ table ∈ table?, table.Grown) :
    ∀ table ∈ event.next table?, table.Grown := by
  cases event with
  | make origin =>
    dsimp only [Event.next]
    split
    · next table heq =>
      rintro _ ⟨⟩
      exact origin.grown_of_read heq
    · exact h
  | revise revision =>
    rintro _ hmem
    obtain ⟨table, htable, rfl⟩ := Option.map_eq_some_iff.1 hmem
    obtain ⟨hsound, hrevises⟩ := revision.spec (h table htable).sound
    exact (h table htable).next hsound hrevises

/-- Any number of changes make a later state of the table. -/
theorem Sound.revises_foldl (h : table.Sound) (revisions : List Revision) :
    table.Revises (revisions.foldl Revision.apply table) := by
  induction revisions generalizing table with
  | nil => exact .refl table
  | cons revision revisions ih =>
    obtain ⟨hsound, hrevises⟩ := revision.spec h
    exact hrevises.trans (ih hsound)

/-! ### The next key -/

/-- The available key is free unless it is the last one. -/
theorem Sound.symbol?_availableKey (h : table.Sound) :
    table.symbol? table.availableKey = none ↔
      ¬(table.availableKey = lastKey ∧ table.hasKey lastKey = true) := by
  rw [hasKey]
  cases hsymbol : table.symbol? table.availableKey with
  | none =>
    simp only [true_iff, not_and]
    intro hlast
    simp [← hlast, hsymbol]
  | some symbol =>
    have hcovers := h.covers _ (h.symbol?_eq_some_iff.1 hsymbol)
    obtain hlt | ⟨hlast, -⟩ := hcovers
    · exact absurd hlt (UInt32.lt_irrefl _)
    · dsimp only at hlast
      simp [← hlast, hsymbol]

/-- A symbol can be added if it is free and a key is left for it. -/
theorem Sound.exists_add_iff (h : table.Sound) :
    (∃ result, table.add symbol = .ok result) ↔
      table.hasSymbol symbol = false ∧ ¬(table.availableKey = lastKey ∧ table.hasKey lastKey = true) := by
  rw [← h.symbol?_availableKey, hasSymbol, Option.isSome_eq_false_iff, Option.isNone_iff_eq_none]
  constructor
  · rintro ⟨result, hadd⟩
    obtain ⟨hsymbol, hkey, -⟩ := add_eq_ok_iff.1 hadd
    exact ⟨hsymbol, hkey⟩
  · rintro ⟨hsymbol, hkey⟩
    exact ⟨_, add_eq_ok_iff.2 ⟨hsymbol, hkey, rfl⟩⟩

/-- A symbol that is added gets the available key, which was free. -/
theorem Sound.of_add (h : table.Sound) (hadd : table.add symbol = .ok (key, table')) :
    key = table.availableKey ∧ table.hasKey key = false ∧ table'.findKey symbol = .ok key := by
  have hsound := h.add hadd
  obtain ⟨-, hkey, heq⟩ := add_eq_ok_iff.1 hadd
  obtain ⟨rfl, rfl⟩ := Prod.mk.inj heq
  refine ⟨rfl, by rw [hasKey, hkey]; rfl, ?_⟩
  rw [findKey_eq_ok_iff, hsound.key?_eq_some_iff, (entries_bind_perm ..).mem_iff]
  exact List.mem_cons_self

end Transducer.SymbolTable
