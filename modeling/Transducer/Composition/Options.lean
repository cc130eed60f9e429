import Transducer.Automaton.Basic
import Transducer.Matching.Config

/-!
# Options of a composition

A composition lists the arcs of one operand and looks up what matches them in the other. Which operand is
listed is either fixed or decided at each state; `Options.plan` settles that and refuses options under
which some state could not be expanded.
-/

namespace Transducer.Composition

/-- One of the two automata that are composed. -/
inductive Operand where
  | left
  | right
  deriving DecidableEq, Repr

/-- The name of the operand. -/
def Operand.name : Operand → String
  | left => "left"
  | right => "right"

/-- Which operand should have its arcs listed. -/
inductive Driver where
  /-- The left one, unless it can only be listed or only be asked. -/
  | auto
  /-- The left one. -/
  | left
  /-- The right one. -/
  | right
  deriving DecidableEq, Repr

/-- How to compose. -/
structure Options where
  /-- How to look up arcs of the left operand, by what they write. -/
  left : Matching.Config := { side := some .output }
  /-- How to look up arcs of the right operand, by what they read. -/
  right : Matching.Config := {}
  driver : Driver := .auto
  /-- Whether the result is trimmed to its useful states. -/
  trim : Bool := true
  deriving DecidableEq, Repr

/-- Which operand is listed. -/
inductive Plan where
  /-- Always the same one. -/
  | fixed (listed : Operand)
  /-- At each state the left one, unless its state there has arcs with a special label. -/
  | perState
  deriving DecidableEq, Repr

namespace Options

/-- Refuses to list an operand always if the other one cannot be asked, or if the listed one has special
labels, which would then be taken for ordinary ones. -/
def fix (opts : Options) (listed : Operand) : Except Misconfiguration Plan :=
  let (asked, other) := match listed with
    | .left => (opts.right, opts.left)
    | .right => (opts.left, opts.right)
  if asked.side.isNone then .error .queriedWithoutSide
  else if !other.isPlain then .error (.layersOnListed listed.name)
  else .ok (.fixed listed)

/-- Which operand to list under these options. -/
def plan (opts : Options) : Except Misconfiguration Plan :=
  if opts.left.side = some .input then .error .leftMatchesInput
  else if opts.right.side = some .output then .error .rightMatchesOutput
  else
    match opts.driver, opts.left.side.isSome, opts.right.side.isSome with
    | .left, _, _ => opts.fix .left
    | .right, _, _ => opts.fix .right
    | .auto, true, true => .ok .perState
    | .auto, false, true => opts.fix .left
    | .auto, true, false => opts.fix .right
    | .auto, false, false => .error .nothingQueryable

end Options

/-- Refuses operands whose tables give the labels between them different meanings. -/
def checkSymbols {W : Type} (left right : Automaton W) : Except Misconfiguration Unit :=
  match left.outputSymbols, right.inputSymbols with
  | some written, some read =>
    if written.isCompatible read then .ok ()
    else .error (.incompatibleSymbols written.name read.name)
  | _, _ => .ok ()

end Transducer.Composition
