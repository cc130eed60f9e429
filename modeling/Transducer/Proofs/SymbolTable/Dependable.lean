import Mathlib
import Transducer.Proofs.SymbolTable.Index

/-!
# What can be relied on in a symbol table

Whatever has been done with a symbol table, and if some of it was refused, its two maps determine each other, the
available key covers every bound key, and it is the key that the next symbol gets, unless it is the last one and bound
itself (`dependable_after`). A call that is refused leaves everything as it was.

The version is a word, and it grows with every change as long as there have been fewer changes than there are words:
more of them take longer than any program runs.
-/

namespace Transducer.SymbolIndex

open SymbolTable (lastKey Origin Revision Event)

variable {index index' : SymbolIndex} {table : SymbolTable} {symbol : String} {key : Label}

/-! ### What is done with an index -/

/-- The index of this origin, unless it cannot be read. -/
def read : Origin → Except Error SymbolIndex
  | .empty name => .ok { name }
  | .withEpsilon name => .ok (withEpsilon name)
  | .written name bytes => ofBytes name bytes
  | .stored cursor => ((stored cursor).map (·.1)).mapError .format

/-- The change as an action on the index. -/
def revise : Revision → Update Unit
  | .add symbol => do let _ ← add symbol
  | .addWithKey symbol key => do let _ ← addWithKey symbol key
  | .rename name => modify (·.rename name)

/-- The index that a change leaves, whether it is refused or not. -/
def left (index : SymbolIndex) (revision : Revision) : SymbolIndex :=
  match revise revision index with
  | .ok _ index => index
  | .error _ index => index

/-- The index after an event. -/
def next (index? : Option SymbolIndex) : Event → Option SymbolIndex
  | .make origin =>
    match read origin with
    | .ok index => some index
    | .error _ => index?
  | .revise revision => index?.map (·.left revision)

/-- The index after some events, of which there is none before. -/
def after (events : List Event) : Option SymbolIndex := events.foldl next none

/-! ### The table that it stands for -/

theorem alike_read (origin : Origin) : Alike Represents (read origin) origin.read := by
  cases origin with
  | empty name => exact .ok (represents_empty name)
  | withEpsilon name => exact .ok ((represents_empty name).bind rfl rfl)
  | written name bytes => exact alike_ofBytes name bytes
  | stored cursor =>
    have h := alike_stored cursor
    rw [read, Origin.read]
    generalize stored cursor = result, Binary.Reader.table cursor = result' at h ⊢
    cases h with
    | ok h => exact .ok h.1
    | error => exact .error

theorem Follows.discard {α : Type} {update : Update α} {r : Except Error (α × SymbolTable)}
    (h : Follows index (update index) r) :
    Follows index ((do let _ ← update : Update Unit) index) ((r.map (·.2)).map fun table => ((), table)) := by
  simp only [Bind.bind, EStateM.bind]
  generalize update index = result at h ⊢
  cases h with
  | ok h => exact .ok h
  | error => exact .error

theorem Represents.revise (h : index.Represents table) (hsound : table.Sound) (revision : Revision) :
    Follows index (SymbolIndex.revise revision index) ((revision.of table).map fun table => ((), table)) := by
  cases revision with
  | add symbol => exact (h.add hsound symbol).discard
  | addWithKey symbol key => exact (h.addWithKey symbol key).discard
  | rename name => exact .ok (h.rename name)

/-- A change leaves the index with what it makes of the table. -/
theorem Represents.left (h : index.Represents table) (hsound : table.Sound) (revision : Revision) :
    (index.left revision).Represents (revision.apply table) := by
  have hfollows := h.revise hsound revision
  rw [SymbolIndex.left, Revision.apply]
  generalize SymbolIndex.revise revision index = result, revision.of table = result' at hfollows ⊢
  cases result' with
  | ok table' =>
    cases hfollows with
    | ok h' => exact h'
  | error e =>
    cases hfollows with
    | error => exact h

theorem Represents.foldl_left (h : index.Represents table) (hsound : table.Sound) (revisions : List Revision) :
    (revisions.foldl SymbolIndex.left index).Represents (revisions.foldl Revision.apply table) := by
  induction revisions generalizing index table with
  | nil => exact h
  | cons revision revisions ih => exact ih (h.left hsound revision) (revision.spec hsound).1

section

variable {index? : Option SymbolIndex} {table? : Option SymbolTable}

theorem rel_next (h : Option.Rel Represents index? table?) (hgrown : ∀ table ∈ table?, table.Grown) (event : Event) :
    Option.Rel Represents (next index? event) (event.next table?) := by
  cases event with
  | make origin =>
    have hread := alike_read origin
    simp only [next, Event.next]
    generalize read origin = result, origin.read = result' at hread ⊢
    cases hread with
    | ok h' => exact .some h'
    | error => exact h
  | revise revision =>
    cases h with
    | none => exact .none
    | some h => exact .some (h.left (hgrown _ rfl).sound revision)

theorem rel_foldl_next (h : Option.Rel Represents index? table?) (hgrown : ∀ table ∈ table?, table.Grown)
    (events : List Event) :
    Option.Rel Represents (events.foldl next index?) (events.foldl Event.next table?) ∧
      ∀ table ∈ events.foldl Event.next table?, table.Grown := by
  induction events generalizing index? table? with
  | nil => exact ⟨h, hgrown⟩
  | cons event events ih => exact ih (rel_next h hgrown event) (event.grown_next hgrown)

end

/-- At any time, an index stands for the table to which the same has been done. -/
theorem rel_after (events : List Event) : Option.Rel Represents (after events) (SymbolTable.after events) :=
  (rel_foldl_next .none nofun events).1

theorem grown_after {events : List Event} (hafter : SymbolTable.after events = some table) : table.Grown :=
  (rel_foldl_next .none nofun events).2 table hafter

/-! ### What can be relied on -/

section

variable {α : Type} {result : EStateM.Result Error SymbolIndex α} {r : Except Error (α × SymbolTable)} {a : α}

theorem Follows.exists_of_ok (h : Follows index (.ok a index') r) :
    ∃ table', r = .ok (a, table') ∧ index'.Represents table' := by
  cases h with
  | ok h => exact ⟨_, rfl, h⟩

theorem Follows.exists_ok_iff (h : Follows index result r) : (∃ a index', result = .ok a index') ↔ ∃ u, r = .ok u := by
  cases h with
  | ok => exact ⟨fun _ => ⟨_, rfl⟩, fun _ => ⟨_, _, rfl⟩⟩
  | error =>
    constructor
    · rintro ⟨_, _, h⟩
      cases h
    · rintro ⟨_, h⟩
      cases h

end

/-- A binding that exists already is kept as it is. -/
theorem addWithKey_of_bound (h : index.findKey symbol = .ok key) : addWithKey symbol key index = .ok key index := by
  rw [findKey] at h
  split at h
  · next bound hbound =>
    obtain rfl := Except.ok.inj h
    simp only [addWithKey, Bind.bind, EStateM.bind, get, getThe, MonadStateOf.get, EStateM.get, hbound, if_true]
    rfl
  · cases h

namespace Represents

theorem findKey_eq (h : index.Represents table) (symbol : String) : index.findKey symbol = table.findKey symbol := by
  rw [findKey, h.bySymbol_eq]
  rfl

theorem findSymbol_eq (h : index.Represents table) (key : Label) : index.findSymbol key = table.findSymbol key := by
  rw [findSymbol, h.byKey_eq]
  rfl

theorem mem_bySymbol_iff (h : index.Represents table) : symbol ∈ index.bySymbol ↔ table.hasSymbol symbol = true := by
  rw [Std.HashMap.mem_iff_isSome_getElem?, h.bySymbol_eq, SymbolTable.hasSymbol]

theorem mem_byKey_iff (h : index.Represents table) : key ∈ index.byKey ↔ table.hasKey key = true := by
  rw [Std.TreeMap.mem_iff_isSome_getElem?, h.byKey_eq, SymbolTable.hasKey]

/-- The version is the number of the changes, as long as there are words for it. -/
theorem toNat_version (h : index.Represents table) (hcount : table.version < UInt64.size) :
    index.version.toNat = table.version := by
  rw [h.version_eq, UInt64.toNat_ofNat_of_lt' hcount]

end Represents

/-- A change is refused and leaves the index as it was, or does nothing, or the version goes on by one. -/
theorem revise_cases (index : SymbolIndex) (revision : Revision) :
    (∃ e, revise revision index = .error e index) ∨ revise revision index = .ok () index ∨
      ∃ index', revise revision index = .ok () index' ∧ index'.version = index.version + 1 := by
  cases revision with
  | rename name => exact .inr (.inr ⟨_, rfl, rfl⟩)
  | add symbol =>
    simp only [revise, add, Bind.bind, EStateM.bind, get, getThe, MonadStateOf.get, EStateM.get]
    cases index.bySymbol[symbol]? with
    | some key => exact .inl ⟨_, rfl⟩
    | none =>
      cases freeKey index.byKey index.availableKey with
      | error key => exact .inl ⟨_, rfl⟩
      | ok key => exact .inr (.inr ⟨_, rfl, rfl⟩)
  | addWithKey symbol key =>
    simp only [revise, addWithKey, Bind.bind, EStateM.bind, get, getThe, MonadStateOf.get, EStateM.get]
    cases index.bySymbol[symbol]? with
    | some bound =>
      by_cases heq : bound = key
      · simp only [heq, if_true]
        exact .inr (.inl rfl)
      · simp only [heq, if_false]
        exact .inl ⟨_, rfl⟩
    | none =>
      cases index.byKey[key]? with
      | some other => exact .inl ⟨_, rfl⟩
      | none => exact .inr (.inr ⟨_, rfl, rfl⟩)

theorem eq_of_revise_eq_error {revision : Revision} {e : Error} (h : revise revision index = .error e index') :
    index' = index := by
  obtain ⟨_, heq⟩ | heq | ⟨_, heq, -⟩ := index.revise_cases revision
  · exact (EStateM.Result.error.inj (h.symm.trans heq)).2
  · cases h.symm.trans heq
  · cases h.symm.trans heq

theorem version_left {revision : Revision} (h : index.left revision ≠ index) :
    (index.left revision).version = index.version + 1 := by
  obtain ⟨_, heq⟩ | heq | ⟨_, heq, hversion⟩ := index.revise_cases revision <;> rw [left, heq] at h ⊢
  · exact absurd rfl h
  · exact absurd rfl h
  · exact hversion

/-- What an index guarantees as it is, and for every change to come. The version of the table that it stands for is the
number of the changes that have been made, which no run brings to the number of the words. -/
structure Dependable (index : SymbolIndex) (table : SymbolTable) : Prop where
  represents : index.Represents table
  findKey_iff : ∀ symbol key, index.findKey symbol = .ok key ↔ index.findSymbol key = .ok symbol
  covers : ∀ symbol key, index.findSymbol key = .ok symbol →
    key < index.availableKey ∨ key = lastKey ∧ index.availableKey = lastKey
  add_iff : ∀ symbol, (∃ key index', add symbol index = .ok key index') ↔
    symbol ∉ index.bySymbol ∧ ¬(index.availableKey = lastKey ∧ lastKey ∈ index.byKey)
  add_eq : ∀ symbol key index', add symbol index = .ok key index' →
    key = index.availableKey ∧ key ∉ index.byKey ∧ index'.findKey symbol = .ok key
  refused : ∀ (revision : Revision) (e : Error) (index' : SymbolIndex),
    revise revision index = .error e index' → index' = index
  repeated : ∀ symbol key, index.findKey symbol = .ok key → addWithKey symbol key index = .ok key index
  availableKey_le : ∀ revision : Revision, index.availableKey ≤ (index.left revision).availableKey
  version_lt : ∀ revision : Revision, index.left revision ≠ index →
    (index.left revision).version = index.version + 1 ∧
      (table.version + 1 < UInt64.size → index.version < (index.left revision).version)
  represents_foldl : ∀ revisions : List Revision,
    (revisions.foldl SymbolIndex.left index).Represents (revisions.foldl Revision.apply table) ∧
      table.Revises (revisions.foldl Revision.apply table)

/-- Whatever has been done, also if some of it was refused, the index that there is can be relied on. -/
theorem dependable_after {events : List Event} (hafter : after events = some index) :
    ∃ table, SymbolTable.after events = some table ∧ index.Dependable table := by
  have hrel := rel_after events
  rw [hafter] at hrel
  generalize htable : SymbolTable.after events = table? at hrel
  cases hrel with
  | @some _ table h =>
  have hsound := (grown_after htable).sound
  refine ⟨table, rfl, h, fun symbol key => ?_, fun symbol key hfind => ?_, fun symbol => ?_,
    fun symbol key index' hadd => ?_, fun revision e index' hrevise => ?_, fun symbol key hfind => ?_,
    fun revision => ?_, fun revision hne => ?_, fun revisions => ?_⟩
  · rw [h.findKey_eq, h.findSymbol_eq, SymbolTable.findKey_eq_ok_iff, SymbolTable.findSymbol_eq_ok_iff,
      hsound.key?_eq_some_iff, hsound.symbol?_eq_some_iff]
  · rw [h.findSymbol_eq, SymbolTable.findSymbol_eq_ok_iff, hsound.symbol?_eq_some_iff] at hfind
    exact h.availableKey_eq ▸ hsound.covers _ hfind
  · rw [h.mem_bySymbol_iff, h.mem_byKey_iff, h.availableKey_eq, Bool.not_eq_true, ← hsound.exists_add_iff]
    exact (h.add hsound symbol).exists_ok_iff
  · have hfollows := h.add hsound symbol
    rw [hadd] at hfollows
    obtain ⟨table', htable', h'⟩ := hfollows.exists_of_ok
    obtain ⟨heq, hfree, hfind⟩ := hsound.of_add htable'
    exact ⟨heq.trans h.availableKey_eq.symm, by simp [h.mem_byKey_iff, hfree], (h'.findKey_eq symbol).trans hfind⟩
  · exact eq_of_revise_eq_error hrevise
  · exact addWithKey_of_bound hfind
  · have hrevises := (revision.spec hsound).2
    rw [h.availableKey_eq, (h.left hsound revision).availableKey_eq]
    exact hrevises.availableKey_le
  · refine ⟨version_left hne, fun hcount => ?_⟩
    rw [version_left hne, UInt64.lt_iff_toNat_lt, UInt64.toNat_add, h.toNat_version (Nat.lt_of_succ_lt hcount)]
    exact (Nat.lt_succ_self _).trans_eq (Nat.mod_eq_of_lt hcount).symm
  · exact ⟨h.foldl_left hsound revisions, hsound.revises_foldl revisions⟩

/-- A table is read from two lines of text, of which the second one binds the last key. No other symbol can be
added then, but one can be bound to a lower key. At last a table cannot be read. -/
def exhaustion : List Event :=
  [.make (.written "t" (Text.encode "a 1\nω 4294967295\n")), .revise (.add "b"), .revise (.addWithKey "b" 3),
    .revise (.addWithKey "a" 2), .revise (.rename "u"), .make (.stored ⟨[1, 0], 0⟩)]

theorem dependable_after_exhaustion : ∃ index, after exhaustion = some index ∧ index.name = "u" ∧
    index.byKey[(3 : Label)]? = some "b" ∧ index.bySymbol["ω"]? = some lastKey ∧ index.availableKey = lastKey ∧
    index.version = 4 ∧ ∃ table, SymbolTable.after exhaustion = some table ∧ index.Dependable table := by
  have hrel := rel_after exhaustion
  have htable : SymbolTable.after exhaustion = some
      { name := "u", entries := [(1, "a"), (3, "b"), (lastKey, "ω")], availableKey := lastKey, version := 4 } := by
    rfl
  rw [htable] at hrel
  generalize hafter : after exhaustion = index? at hrel
  cases hrel with
  | @some index _ h =>
  exact ⟨index, rfl, h.name_eq, h.byKey_eq 3, h.bySymbol_eq "ω", h.availableKey_eq, h.version_eq,
    dependable_after hafter⟩

end Transducer.SymbolIndex
