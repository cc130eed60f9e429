import Transducer.Error

/-!
# Symbol tables

A symbol table binds texts and keys to each other, one to one. The bindings are kept in ascending order
of their keys. The available key is the one that the next symbol gets: it lies above every bound key,
or is the last key there is. It never falls, so that keys are not used twice. The version counts the
changes.

Operations that fail give no new table, and so change nothing.
-/

namespace Transducer

/-- A one-to-one binding of symbols to keys. -/
structure SymbolTable where
  name : String
  /-- The bindings, in ascending order of their keys. -/
  entries : List (Label × String) := []
  availableKey : Label := 0
  version : Nat := 0
  deriving Inhabited, Repr

namespace SymbolTable

/-- The last key there is. -/
def lastKey : Label := 0xFFFFFFFF

/-- The key after this one; the last key is its own successor. -/
def nextKey (key : Label) : Label := if key = lastKey then lastKey else key + 1

/-- The bindings with one more, at its place. -/
def insertEntry (key : Label) (symbol : String) : List (Label × String) → List (Label × String)
  | [] => [(key, symbol)]
  | entry :: rest =>
    if key < entry.1 then (key, symbol) :: entry :: rest
    else entry :: insertEntry key symbol rest

theorem lookup_insertEntry (key other : Label) (symbol : String) (entries : List (Label × String))
    (free : entries.lookup key = none) :
    (insertEntry key symbol entries).lookup other =
      if other = key then some symbol else entries.lookup other := by
  induction entries with
  | nil => grind [insertEntry]
  | cons entry rest ih => grind [insertEntry]

theorem find?_insertEntry (key : Label) (symbol other : String) (entries : List (Label × String))
    (free : entries.find? (·.2 == symbol) = none) :
    (insertEntry key symbol entries).find? (·.2 == other) =
      if other = symbol then some (key, symbol) else entries.find? (·.2 == other) := by
  induction entries with
  | nil => grind [insertEntry]
  | cons entry rest ih => grind [insertEntry]

/-- A table that binds nothing. -/
def empty (name : String) : SymbolTable := { name }

/-! ### Lookup -/

/-- The number of bindings. -/
def size (table : SymbolTable) : Nat := table.entries.length

/-- Whether nothing is bound. -/
def isEmpty (table : SymbolTable) : Bool := table.entries.isEmpty

/-- The symbol of a key. -/
def symbol? (table : SymbolTable) (key : Label) : Option String := table.entries.lookup key

/-- The key of a symbol. -/
def key? (table : SymbolTable) (symbol : String) : Option Label :=
  (table.entries.find? (·.2 == symbol)).map (·.1)

/-- Whether a symbol is bound. -/
def hasSymbol (table : SymbolTable) (symbol : String) : Bool := (table.key? symbol).isSome

/-- Whether a key is bound. -/
def hasKey (table : SymbolTable) (key : Label) : Bool := (table.symbol? key).isSome

/-- The key of a symbol, which must have one. -/
def findKey (table : SymbolTable) (symbol : String) : Except Error Label :=
  match table.key? symbol with
  | some key => .ok key
  | none => .error (.symbolNotFound symbol)

/-- The symbol of a key, which must have one. -/
def findSymbol (table : SymbolTable) (key : Label) : Except Error String :=
  match table.symbol? key with
  | some symbol => .ok symbol
  | none => .error (.keyNotFound key)

/-! ### New bindings -/

/-- The table with one more binding of a symbol and a key that are both free. -/
def bind (table : SymbolTable) (symbol : String) (key : Label) : SymbolTable :=
  { table with
    entries := insertEntry key symbol table.entries
    availableKey := if key < table.availableKey then table.availableKey else nextKey key
    version := table.version + 1 }

/-- A new binding is found by its key, and the others are found as before. -/
theorem symbol?_bind (table : SymbolTable) (symbol : String) (key other : Label)
    (free : table.symbol? key = none) :
    (table.bind symbol key).symbol? other =
      if other = key then some symbol else table.symbol? other :=
  lookup_insertEntry key other symbol table.entries free

/-- A new binding is found by its symbol, and the others are found as before. -/
theorem key?_bind (table : SymbolTable) (symbol other : String) (key : Label)
    (free : table.key? symbol = none) :
    (table.bind symbol key).key? other = if other = symbol then some key else table.key? other := by
  have free : table.entries.find? (·.2 == symbol) = none := Option.map_eq_none_iff.1 free
  rw [key?, bind, find?_insertEntry key symbol other table.entries free]
  split <;> rfl

@[simp] theorem version_bind (table : SymbolTable) (symbol : String) (key : Label) :
    (table.bind symbol key).version = table.version + 1 := rfl

/-- The symbol that stands for epsilon where a table names it. -/
def epsilonSymbol : String := "<eps>"

/-- A table that binds the epsilon symbol to the label epsilon. -/
def withEpsilon (name : String) : SymbolTable := (empty name).bind epsilonSymbol epsilon

/-- The table under another name. -/
def rename (table : SymbolTable) (name : String) : SymbolTable :=
  { table with name, version := table.version + 1 }

/-- Binds a symbol to the available key. That key is itself bound only if it is the last one; then no
key is left. -/
def add (table : SymbolTable) (symbol : String) : Except Error (Label × SymbolTable) :=
  match table.key? symbol with
  | some key => .error (.duplicateSymbol symbol key)
  | none =>
    let key := table.availableKey
    if table.hasKey key then .error (.symbolConflict symbol key .keysExhausted)
    else .ok (key, table.bind symbol key)

/-- Binds a symbol to a given key. A binding that exists already is kept as it is. -/
def addWithKey (table : SymbolTable) (symbol : String) (key : Label) :
    Except Error (Label × SymbolTable) :=
  match table.key? symbol, table.symbol? key with
  | some bound, _ =>
    if bound = key then .ok (key, table)
    else .error (.symbolConflict symbol key (.symbolBound bound))
  | none, some other => .error (.symbolConflict symbol key (.keyBound other))
  | none, none => .ok (key, table.bind symbol key)

/-- The table with an available key of at least `key`. -/
def raiseAvailableKey (table : SymbolTable) (key : Label) : SymbolTable :=
  if table.availableKey < key then
    { table with availableKey := key, version := table.version + 1 }
  else table

/-! ### Comparison -/

/-- Whether two tables hold the same bindings. -/
def isCompatible (table other : SymbolTable) : Bool := table.entries == other.entries

/-- Tables are equal if they agree on everything but their history. -/
instance : BEq SymbolTable where
  beq table other :=
    table.name == other.name && table.availableKey == other.availableKey &&
      table.entries == other.entries

end SymbolTable

end Transducer
