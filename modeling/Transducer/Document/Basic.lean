import Transducer.Number.Single

/-!
# Documents

Trees of plain values, as configurations are written in. A record can also be written as a list of its
fields in their order, of which the last ones may be missing; a choice without contents can be written as
its name or as a record with that name and nothing in it.
-/

namespace Transducer

/-- A tree of plain values. -/
inductive Document where
  | null
  | bool (value : Bool)
  | integer (value : Int)
  | real (value : Single)
  | text (value : String)
  | list (items : List Document)
  | record (fields : List (String × Document))
  deriving Inhabited

namespace Document

/-- The fields of a record with these names, in this order; each may be missing. Other fields do not
count. -/
def fields? (names : List String) : Document → Option (List (Option Document))
  | record fields => some (names.map fun name => fields.lookup name)
  | list items =>
    if items.length ≤ names.length then
      some (items.map some ++ List.replicate (names.length - items.length) none)
    else none
  | _ => none

/-- A truth value. -/
def bool? : Document → Option Bool
  | bool value => some value
  | _ => none

/-- An integer from zero up to a limit. -/
def natural? (limit : Nat) : Document → Option Nat
  | integer value => if 0 ≤ value ∧ value < limit then some value.toNat else none
  | _ => none

/-- A number, rounded to single precision. -/
def single? : Document → Option Single
  | integer value => some (.ofInt value)
  | real value => some value
  | _ => none

/-- A choice without contents, by its name. -/
def choice? {α : Type} (options : List (String × α)) : Document → Option α
  | text name => options.lookup name
  | record [(name, null)] => options.lookup name
  | _ => none

/-- A list of values. -/
def list? {α : Type} (decode : Document → Option α) : Document → Option (List α)
  | list items => items.mapM decode
  | _ => none

end Document

end Transducer
