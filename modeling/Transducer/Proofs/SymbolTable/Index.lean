import Mathlib
import Std.Data.TreeMap.Lemmas
import Transducer.Binary.Reader
import Transducer.Proofs.SymbolTable.History
import Transducer.SymbolTable.Listing

/-!
# Symbol tables with two maps

A `SymbolTable` is one list of bindings, and it is only there once nothing is wrong with it. The table that is looked
up has a map for either direction and a version that is a word. It is changed in place, and a symbol that is added
gets the first key that is free from the available one on.

Each action on it is what the list makes of the same action, or both are refused with one error (`Follows`).
-/

namespace Transducer

/-- A symbol table in which symbols and keys are looked up directly. -/
structure SymbolIndex where
  name : String
  /-- The symbol of each key that is bound. -/
  byKey : Std.TreeMap Label String := ∅
  /-- The key of each symbol that is bound. -/
  bySymbol : Std.HashMap String Label := ∅
  availableKey : Label := 0
  /-- The number of changes, as far as it fits into a word. -/
  version : UInt64 := 0

namespace SymbolIndex

open SymbolTable (lastKey nextKey)

/-- The index with one more binding. -/
def bind (index : SymbolIndex) (symbol : String) (key : Label) : SymbolIndex :=
  { index with
    bySymbol := index.bySymbol.insert symbol key
    byKey := index.byKey.insert key symbol
    availableKey := if index.availableKey ≤ key then nextKey key else index.availableKey
    version := index.version + 1 }

/-- The index under another name. -/
def rename (index : SymbolIndex) (name : String) : SymbolIndex :=
  { index with name, version := index.version + 1 }

/-- The index with an available key of at least `key`. -/
def raiseAvailableKey (index : SymbolIndex) (key : Label) : SymbolIndex :=
  if index.availableKey < key then { index with availableKey := key, version := index.version + 1 } else index

/-- An action on an index, which may be refused; what it has done before that stays. -/
abbrev Update (α : Type) := EStateM Error SymbolIndex α

/-- The first key from this one on that is not bound, or the last key if there is none. -/
def freeKey (byKey : Std.TreeMap Label String) (key : Label) : Except Label Label :=
  if byKey.contains key then
    if h : key = lastKey then .error key
    else freeKey byKey (key + 1)
  else .ok key
termination_by UInt32.size - key.toNat
decreasing_by
  rw [lastKey, ← UInt32.toNat_inj] at h
  have := key.toNat_lt
  simp only [UInt32.toNat_add, UInt32.reduceToNat, UInt32.size] at h ⊢
  omega

/-- Binds a symbol to the first key that is free from the available one on. -/
def add (symbol : String) : Update Label := do
  let index ← get
  match index.bySymbol[symbol]? with
  | some key => throw (.duplicateSymbol symbol key)
  | none =>
    match freeKey index.byKey index.availableKey with
    | .error key => throw (.symbolConflict symbol key .keysExhausted)
    | .ok key =>
      set (index.bind symbol key)
      return key

/-- Binds a symbol to a given key. A binding that exists already is kept as it is. -/
def addWithKey (symbol : String) (key : Label) : Update Label := do
  let index ← get
  match index.bySymbol[symbol]?, index.byKey[key]? with
  | some bound, _ =>
    if bound = key then return key
    else throw (.symbolConflict symbol key (.symbolBound bound))
  | none, some other => throw (.symbolConflict symbol key (.keyBound other))
  | none, none =>
    set (index.bind symbol key)
    return key

/-- The key of a symbol, which must have one. -/
def findKey (index : SymbolIndex) (symbol : String) : Except Error Label :=
  match index.bySymbol[symbol]? with
  | some key => .ok key
  | none => .error (.symbolNotFound symbol)

/-- The symbol of a key, which must have one. -/
def findSymbol (index : SymbolIndex) (key : Label) : Except Error String :=
  match index.byKey[key]? with
  | some symbol => .ok symbol
  | none => .error (.keyNotFound key)

/-- An index of the epsilon symbol alone. -/
def withEpsilon (name : String) : SymbolIndex := { name : SymbolIndex }.bind SymbolTable.epsilonSymbol epsilon

/-- What an action makes of an index, unless it is refused. -/
def Update.result {α : Type} (update : Update α) (index : SymbolIndex) : Except Error SymbolIndex :=
  match update index with
  | .ok _ index => .ok index
  | .error e _ => .error e

/-- The index after one more line. Lines are counted from one. -/
def addLine (index : SymbolIndex) (number : Nat) (line : String) : Except Error SymbolIndex :=
  let text := Text.dropEnd (fun c => c == '\r' || c == '\n') line.toList
  match Text.fields text with
  | [] => .ok index
  | [symbol, field] =>
    match SymbolTable.parseKey? field with
    | some key => (addWithKey (String.ofList symbol) key).result index
    | none => .error (.format (.symbolKey number (String.ofList field)))
  | _ => .error (.format (.symbolLine number (String.ofList text)))

/-- The index that is written in these bytes, line by line. -/
def ofBytes (name : String) (bytes : List UInt8) : Except Error SymbolIndex :=
  ((Text.byteLines bytes).zipIdx 1).foldlM
    (fun index line =>
      match Text.decode? line.1 with
      | some text => index.addLine line.2 text
      | none => .error .notText)
    { name }

open Binary in
/-- Adds the next bindings of the data. -/
def addEntries : Nat → SymbolIndex → Reader SymbolIndex
  | 0, index => return index
  | count + 1, index => do
    let key ← Reader.word
    let symbol ← Reader.text
    match addWithKey symbol key index with
    | .ok _ index => addEntries count index
    | .error e index => throw (.table index.name e.message)

open Binary in
/-- The next index of the data. -/
def stored : Reader SymbolIndex := do
  let name ← Reader.text
  let availableKey ← Reader.word
  let count ← Reader.word
  let index ← addEntries count.toNat { name }
  if availableKey < index.availableKey then throw (.availableKey name availableKey)
  return index.raiseAvailableKey availableKey

/-! ### What an index stands for -/

variable {index index' : SymbolIndex} {table table' : SymbolTable} {symbol : String} {key : Label}

/-- The index has the bindings of the table, in either map, and the version is the number of its changes. -/
structure Represents (index : SymbolIndex) (table : SymbolTable) : Prop where
  name_eq : index.name = table.name
  byKey_eq : ∀ key, index.byKey[key]? = table.symbol? key
  bySymbol_eq : ∀ symbol, index.bySymbol[symbol]? = table.key? symbol
  availableKey_eq : index.availableKey = table.availableKey
  version_eq : index.version = UInt64.ofNat table.version

theorem represents_empty (name : String) : Represents { name } (.empty name) where
  name_eq := rfl
  byKey_eq := fun _ => Std.TreeMap.getElem?_emptyc
  bySymbol_eq := fun _ => Std.HashMap.getElem?_empty
  availableKey_eq := rfl
  version_eq := rfl

/-- What an action on an index makes of it is what the table becomes, or both refuse and the index is as before. -/
inductive Follows {α : Type} (index : SymbolIndex) :
    EStateM.Result Error SymbolIndex α → Except Error (α × SymbolTable) → Prop where
  | ok {index' : SymbolIndex} {table' : SymbolTable} {a : α} : Represents index' table' →
      Follows index (.ok a index') (.ok (a, table'))
  | error {e : Error} : Follows index (.error e index) (.error e)

theorem Follows.alike {α : Type} {update : Update α} {r : Except Error (α × SymbolTable)}
    (h : Follows index (update index) r) : Alike Represents (update.result index) (r.map (·.2)) := by
  rw [Update.result]
  generalize update index = result at h
  cases h with
  | ok hrepresents => exact .ok hrepresents
  | error => exact .error

namespace Represents

theorem bind (h : index.Represents table) (hsymbol : table.key? symbol = none) (hkey : table.symbol? key = none) :
    (index.bind symbol key).Represents (table.bind symbol key) where
  name_eq := h.name_eq
  byKey_eq other := by
    rw [SymbolTable.symbol?_bind table symbol key other hkey, ← h.byKey_eq other]
    refine Std.TreeMap.getElem?_insert.trans (if_congr ?_ rfl rfl)
    rw [Std.LawfulEqCmp.compare_eq_iff_eq, eq_comm]
  bySymbol_eq other := by
    rw [SymbolTable.key?_bind table symbol other key hsymbol, ← h.bySymbol_eq other]
    refine Std.HashMap.getElem?_insert.trans (if_congr ?_ rfl rfl)
    rw [beq_iff_eq, eq_comm]
  availableKey_eq := by
    simp only [SymbolIndex.bind, SymbolTable.bind, h.availableKey_eq, ← UInt32.not_lt, ite_not]
  version_eq := by
    simp only [SymbolIndex.bind, SymbolTable.version_bind, h.version_eq, UInt64.ofNat_add]
    rfl

theorem rename (h : index.Represents table) (name : String) : (index.rename name).Represents (table.rename name) where
  name_eq := rfl
  byKey_eq := h.byKey_eq
  bySymbol_eq := h.bySymbol_eq
  availableKey_eq := h.availableKey_eq
  version_eq := by
    simp only [SymbolIndex.rename, SymbolTable.rename, h.version_eq, UInt64.ofNat_add]
    rfl

theorem raiseAvailableKey (h : index.Represents table) (key : Label) :
    (index.raiseAvailableKey key).Represents (table.raiseAvailableKey key) := by
  unfold SymbolIndex.raiseAvailableKey SymbolTable.raiseAvailableKey
  rw [h.availableKey_eq]
  split
  · refine ⟨h.name_eq, h.byKey_eq, h.bySymbol_eq, rfl, ?_⟩
    simp only [h.version_eq, UInt64.ofNat_add]
    rfl
  · exact h

theorem addWithKey (h : index.Represents table) (symbol : String) (key : Label) :
    Follows index (SymbolIndex.addWithKey symbol key index) (table.addWithKey symbol key) := by
  simp only [SymbolIndex.addWithKey, SymbolTable.addWithKey, Bind.bind, EStateM.bind, get, getThe, MonadStateOf.get,
    EStateM.get, h.bySymbol_eq, h.byKey_eq]
  cases hsymbol : table.key? symbol with
  | some bound =>
    dsimp only
    split
    · exact .ok h
    · exact .error
  | none =>
    cases hkey : table.symbol? key with
    | some other => exact .error
    | none => exact .ok (h.bind hsymbol hkey)

/-- From the available key of a sound table on, the first key or none is free. -/
theorem freeKey_eq (h : index.Represents table) (hsound : table.Sound) :
    freeKey index.byKey index.availableKey =
      if table.hasKey table.availableKey then .error table.availableKey else .ok table.availableKey := by
  have hcontains : index.byKey.contains index.availableKey = table.hasKey table.availableKey := by
    rw [Std.TreeMap.contains_eq_isSome_getElem?, h.byKey_eq, h.availableKey_eq, SymbolTable.hasKey]
  rw [freeKey, hcontains, h.availableKey_eq]
  split
  · next hbound =>
    -- a key that is bound although it is available is the last one
    obtain ⟨symbol, hsymbol⟩ := Option.isSome_iff_exists.1 hbound
    have hlast : table.availableKey = lastKey := by
      by_contra hne
      exact absurd (hsound.symbol?_availableKey.2 fun hlast => hne hlast.1) (by simp [hsymbol])
    rw [dif_pos hlast]
  · rfl

theorem add (h : index.Represents table) (hsound : table.Sound) (symbol : String) :
    Follows index (SymbolIndex.add symbol index) (table.add symbol) := by
  simp only [SymbolIndex.add, SymbolTable.add, Bind.bind, EStateM.bind, get, getThe, MonadStateOf.get, EStateM.get,
    h.bySymbol_eq, h.freeKey_eq hsound]
  cases hsymbol : table.key? symbol with
  | some key => exact .error
  | none =>
    by_cases hkey : table.hasKey table.availableKey = true
    · simp only [hkey, if_true]
      exact .error
    · simp only [hkey]
      exact .ok (h.bind hsymbol (Option.not_isSome_iff_eq_none.1 hkey))

/-! ### Indexes that are read -/

theorem addLine (h : index.Represents table) (number : Nat) (line : String) :
    Alike Represents (index.addLine number line) (table.addLine number line) := by
  unfold SymbolIndex.addLine SymbolTable.addLine
  dsimp only
  generalize Text.fields _ = fields
  rcases fields with _ | ⟨symbol, _ | ⟨field, _ | ⟨_, _⟩⟩⟩
  · exact .ok h
  · exact .error
  · cases hkey : SymbolTable.parseKey? field with
    | none =>
      simp only [hkey]
      exact .error
    | some key =>
      simp only [hkey]
      exact (h.addWithKey (String.ofList symbol) key).alike
  · exact .error

open Binary

theorem addEntries (h : index.Represents table) (count : Nat) (cursor : Cursor) :
    Alike (fun u v => Represents u.1 v.1 ∧ u.2 = v.2) (SymbolIndex.addEntries count index cursor)
      (Reader.entries count table cursor) := by
  induction count generalizing index table cursor with
  | zero => exact .ok ⟨h, rfl⟩
  | succ count ih =>
    refine (Alike.refl (Reader.word cursor)).bind ?_
    rintro ⟨key, cursor⟩ _ rfl
    refine (Alike.refl (Reader.text cursor)).bind ?_
    rintro ⟨symbol, cursor⟩ _ rfl
    dsimp only
    have hadd := h.addWithKey symbol key
    generalize SymbolIndex.addWithKey symbol key index = result, table.addWithKey symbol key = result' at hadd ⊢
    cases hadd with
    | ok h' => exact ih h' cursor
    | error =>
      dsimp only
      rw [h.name_eq]
      exact .error

end Represents

theorem alike_stored (cursor : Binary.Cursor) :
    Alike (fun u v => Represents u.1 v.1 ∧ u.2 = v.2) (stored cursor) (Binary.Reader.table cursor) := by
  refine (Alike.refl (Binary.Reader.text cursor)).bind ?_
  rintro ⟨name, cursor⟩ _ rfl
  refine (Alike.refl (Binary.Reader.word cursor)).bind ?_
  rintro ⟨availableKey, cursor⟩ _ rfl
  refine (Alike.refl (Binary.Reader.word cursor)).bind ?_
  rintro ⟨count, cursor⟩ _ rfl
  refine ((represents_empty name).addEntries count.toNat cursor).bind ?_
  rintro ⟨index, cursor⟩ ⟨table, _⟩ ⟨h, rfl⟩
  dsimp only at h ⊢
  rw [h.availableKey_eq]
  split
  · exact .error
  · exact .ok ⟨h.raiseAvailableKey availableKey, rfl⟩

theorem alike_ofBytes (name : String) (bytes : List UInt8) :
    Alike Represents (ofBytes name bytes) (SymbolTable.ofBytes name bytes) := by
  refine Alike.foldlM _ (fun index table line h => ?_) (represents_empty name)
  cases Text.decode? line.1 with
  | none => exact .error
  | some text => exact h.addLine line.2 text

end SymbolIndex

end Transducer
