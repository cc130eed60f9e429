import Transducer.Label
import Transducer.Text.Quoted
import Transducer.Weight.Cost

/-!
# Errors

Why an operation is refused. Every cause is a constructor that holds what the message needs; the words
are in the `message` functions, and nowhere else.
-/

namespace Transducer

/-- Why a symbol and a key cannot be bound to each other. -/
inductive Conflict where
  /-- No key is left above the available one. -/
  | keysExhausted
  /-- The symbol has another key. -/
  | symbolBound (key : Label)
  /-- The key has another symbol. -/
  | keyBound (symbol : String)
  deriving DecidableEq, Repr

/-- The cause of a conflict, in words. -/
def Conflict.message : Conflict → String
  | keysExhausted => "key space exhausted"
  | symbolBound key => "symbol is already bound to key " ++ toString key
  | keyBound symbol => "key is already bound to " ++ Text.quoted symbol

/-- What is wrong with a configuration, or with a query that a configuration does not allow. -/
inductive Misconfiguration where
  /-- A layer uses the label of epsilon or of the implicit arc. -/
  | reservedLabel (layer : String) (label : Label)
  /-- Layers were given, but no side to match. -/
  | layersWithoutSide
  /-- The matcher has no side to match. -/
  | notQueryable
  /-- A layered matcher was asked for the label of one of its layers. -/
  | ownLabel (layer : String) (label : Label)
  /-- Which failure arc to follow is not determined. -/
  | ambiguousFailure (state count : Nat) (label : Label)
  /-- The left matcher of a composition matches input labels. -/
  | leftMatchesInput
  /-- The right matcher of a composition matches output labels. -/
  | rightMatchesOutput
  /-- Neither matcher of a composition can be queried. -/
  | nothingQueryable
  /-- The matcher that would have to be queried has no side to match. -/
  | queriedWithoutSide
  /-- The operand whose arcs are listed has a layered matcher. -/
  | layersOnListed (operand : String)
  /-- The symbol tables between the operands differ. -/
  | incompatibleSymbols (left right : String)
  /-- Both operand states would have to be queried. -/
  | bothSpecial (state left right : Nat)
  /-- A beam that holds nothing. -/
  | emptyBeam
  /-- A side without a symbol table cannot be re-keyed. -/
  | noTable (side : Side)
  deriving DecidableEq, Repr

/-- The fault, in words. -/
def Misconfiguration.message : Misconfiguration → String
  | reservedLabel layer label => layer ++ " label " ++ toString label ++ " is reserved"
  | layersWithoutSide => "special matching needs an input or output match type"
  | notQueryable => "matcher with match type none cannot be queried"
  | ownLabel layer label =>
    "cannot query a " ++ layer ++ " matcher with its own label " ++ toString label
  | ambiguousFailure state count label =>
    "state " ++ toString state ++ " has " ++ toString count ++ " phi arcs labelled " ++
      toString label
  | leftMatchesInput => "left matcher must match on output labels"
  | rightMatchesOutput => "right matcher must match on input labels"
  | nothingQueryable => "neither matcher can be queried"
  | queriedWithoutSide => "queried matcher has match type none"
  | layersOnListed operand =>
    "the " ++ operand ++
      " operand is always enumerated, so its matcher cannot use special labels"
  | incompatibleSymbols left right =>
    "output symbols " ++ Text.quoted left ++
      " of the left operand do not match input symbols " ++ Text.quoted right ++
      " of the right operand"
  | bothSpecial state left right =>
    "composite state " ++ toString state ++ ": operand states " ++ toString left ++ " and " ++
      toString right ++ " both carry special-labelled arcs"
  | emptyBeam => "beam width must be at least 1"
  | noTable side => "no " ++ side.name ++ " symbol table to convert from"

/-- Why an automaton is not well formed. Weights are given by their text, sets of properties by their
names. -/
inductive Violation where
  | startOutOfRange (start count : Nat)
  | finalWeight (state : Nat) (weight : String)
  | missingTarget (arc state target : Nat)
  | arcWeight (arc state : Nat) (weight : String)
  | reservedLabel (arc state : Nat) (side : Side) (label : Label)
  | unboundLabel (arc state : Nat) (side : Side) (label : Label) (table : String)
  | staleProperties (cached fresh : String)
  deriving DecidableEq, Repr

/-- The violation, in words. -/
def Violation.message : Violation → String
  | startOutOfRange start count =>
    "start state " ++ toString start ++ " out of range (" ++ toString count ++ " states)"
  | finalWeight state weight =>
    "state " ++ toString state ++ " has invalid final weight " ++ weight
  | missingTarget arc state target =>
    "arc " ++ toString arc ++ " of state " ++ toString state ++ " points to missing state " ++
      toString target
  | arcWeight arc state weight =>
    "arc " ++ toString arc ++ " of state " ++ toString state ++ " has invalid weight " ++ weight
  | reservedLabel arc state side label =>
    "arc " ++ toString arc ++ " of state " ++ toString state ++ " carries the reserved " ++
      side.name ++ " label " ++ toString label
  | unboundLabel arc state side label table =>
    side.name ++ " label " ++ toString label ++ " on arc " ++ toString arc ++ " of state " ++
      toString state ++ " is not in symbol table " ++ Text.quoted table
  | staleProperties cached fresh =>
    "cached properties " ++ cached ++ " disagree with computed " ++ fresh

/-- Why an automaton is not a single chain. -/
inductive Obstacle where
  | noStart
  | cycle (state : Nat)
  | deadEnd (state : Nat)
  | branch (state arcs : Nat) (final : Bool)
  deriving DecidableEq, Repr

/-- The obstacle, in words. -/
def Obstacle.message : Obstacle → String
  | noStart => "no start state"
  | cycle state => "cycle through state " ++ toString state
  | deadEnd state => "state " ++ toString state ++ " is a dead end"
  | branch state arcs final =>
    "state " ++ toString state ++ " branches (" ++ toString arcs ++ " arcs" ++
      (if final then ", final" else "") ++ ")"

/-- Why data is not a stored automaton or a written symbol table, or why an automaton cannot be
stored. -/
inductive Malformation where
  | truncated (needed offset available : Nat)
  | magic
  | version (found : Nat)
  | weightTag (tag : Nat)
  | otherKind (found expected : WeightKind)
  | tooManyRecords (count : Nat)
  | encoding (offset : Nat)
  | table (name problem : String)
  | availableKey (name : String) (key : Label)
  | arcCount (declared counted : Nat)
  | trailing (count : Nat)
  | finalWeight (state : Nat) (value : Single)
  | target (state destination count : Nat)
  | arcWeight (state : Nat) (value : Single)
  | start (state count : Nat)
  | tooLarge (what : String) (value : Nat)
  | symbolLine (line : Nat) (text : String)
  | symbolKey (line : Nat) (key : String)
  deriving DecidableEq, Repr

/-- The malformation, in words. -/
def Malformation.message : Malformation → String
  | truncated needed offset available =>
    "truncated data: need " ++ toString needed ++ " bytes at offset " ++ toString offset ++ ", " ++
      toString available ++ " available"
  | magic => "invalid magic number"
  | version found => "unsupported format version " ++ toString found
  | weightTag tag => "unknown semiring tag " ++ toString tag
  | otherKind found expected =>
    "file holds a " ++ found.name ++ " automaton, expected " ++ expected.name
  | tooManyRecords count => "record count " ++ toString count ++ " overflows"
  | encoding offset => "invalid UTF-8 at offset " ++ toString offset
  | table name problem => "symbol table " ++ Text.quoted name ++ ": " ++ problem
  | availableKey name key =>
    "symbol table " ++ Text.quoted name ++ ": available key " ++ toString key ++
      " below bound keys"
  | arcCount declared counted =>
    "header declares " ++ toString declared ++ " arcs, state table declares " ++ toString counted
  | trailing count => toString count ++ " trailing bytes after arc table"
  | finalWeight state value =>
    "final weight of state " ++ toString state ++ " is not a valid weight: " ++ value.text
  | target state destination count =>
    "arc of state " ++ toString state ++ " points to state " ++ toString destination ++ ", only " ++
      toString count ++ " exist"
  | arcWeight state value =>
    "arc weight at state " ++ toString state ++ " is not a valid weight: " ++ value.text
  | start state count =>
    "start state " ++ toString state ++ " out of range (" ++ toString count ++ " states)"
  | tooLarge what value => what ++ " " ++ toString value ++ " does not fit in 32 bits"
  | symbolLine line text =>
    "symbol table line " ++ toString line ++ ": expected `symbol key`, got " ++ Text.quoted text
  | symbolKey line key =>
    "symbol table line " ++ toString line ++ ": bad key " ++ Text.quoted key

/-- Why an operation was refused. -/
inductive Error where
  /-- The state does not exist. -/
  | invalidState (state count : Nat)
  /-- The state has no arc at this position. -/
  | invalidArc (state index count : Nat)
  /-- The symbol already has a key. -/
  | duplicateSymbol (symbol : String) (key : Label)
  /-- The symbol and the key cannot be bound to each other. -/
  | symbolConflict (symbol : String) (key : Label) (conflict : Conflict)
  /-- The symbol has no key. -/
  | symbolNotFound (symbol : String)
  /-- The key has no symbol. -/
  | keyNotFound (key : Label)
  /-- The configuration makes no sense, or does not allow the query. -/
  | config (fault : Misconfiguration)
  /-- The automaton is not well formed. -/
  | verification (violation : Violation)
  /-- The automaton is not a single chain. -/
  | ambiguousPath (obstacle : Obstacle)
  /-- The label stands for no text. -/
  | labelNotText (label : Label)
  /-- The label has no symbol, or its symbol has no key in the other table. -/
  | unknownSymbol (state arc : Nat) (label : Label) (side : Side)
  /-- A cycle of epsilon arcs has a weight. -/
  | epsilonCycle (state : Nat)
  /-- The data does not follow the format. -/
  | format (malformation : Malformation)
  /-- The bytes are not a text. -/
  | notText
  deriving DecidableEq, Repr

/-- The error, in words. -/
def Error.message : Error → String
  | invalidState state count =>
    "invalid state " ++ toString state ++ " (automaton has " ++ toString count ++ " states)"
  | invalidArc state index count =>
    "invalid arc index " ++ toString index ++ " at state " ++ toString state ++ " (state has " ++
      toString count ++ " arcs)"
  | duplicateSymbol symbol key =>
    "symbol " ++ Text.quoted symbol ++ " is already bound to key " ++ toString key
  | symbolConflict symbol key conflict =>
    "cannot bind " ++ Text.quoted symbol ++ " to key " ++ toString key ++ ": " ++ conflict.message
  | symbolNotFound symbol => "symbol " ++ Text.quoted symbol ++ " not found"
  | keyNotFound key => "key " ++ toString key ++ " not found"
  | config fault => "invalid configuration: " ++ fault.message
  | verification violation => "verification failed: " ++ violation.message
  | ambiguousPath obstacle => "automaton is not a single linear path: " ++ obstacle.message
  | labelNotText label => "label " ++ toString label ++ " does not encode text"
  | unknownSymbol state arc label side =>
    "unknown " ++ side.name ++ " symbol for label " ++ toString label ++ " on arc " ++
      toString arc ++ " of state " ++ toString state
  | epsilonCycle state =>
    "epsilon cycle through state " ++ toString state ++ " carries a non-one weight"
  | format malformation => "malformed automaton data: " ++ malformation.message
  | notText => "stream did not contain valid UTF-8"

end Transducer
