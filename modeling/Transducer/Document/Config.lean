import Transducer.Automaton.EpsilonRemoval
import Transducer.Composition.Options
import Transducer.Document.Basic
import Transducer.Weight.Cost

/-!
# Configurations as documents

How the configurations of matchers, compositions, epsilon removal and path searches are written. A
missing field has its default; a field of another form than expected makes the document no
configuration at all. `Matching.Config.toDocument` and `Composition.Options.toDocument` write every
field out.
-/

namespace Transducer

/-- How to search for best paths, with bounds of type `D` for comparing weights. -/
structure BestPathSearch (D : Type) where
  /-- How many paths to find. -/
  count : Nat
  /-- Up to which bound distances are computed. -/
  bound : D
  deriving Repr

namespace Matching

/-- The sides that a matcher can match, by their names. -/
def sideNames : List (String × Option Side) :=
  [("input", some .input), ("output", some .output), ("none", none)]

/-- The ways of substitution, by their names. -/
def substitutionNames : List (String × Substitution) :=
  [("auto", .auto), ("always", .always), ("never", .never)]

/-- The kinds of layers, by their names. -/
def layerNames : List (String × LayerKind) :=
  [("sigma", .sigma), ("rho", .rho), ("phi", .phi)]

/-- The name that a list of names has for a value. -/
def nameOf {α : Type} [BEq α] (names : List (String × α)) (value : α) : String :=
  ((names.find? (·.2 == value)).map (·.1)).getD ""

/-- The layer that a document describes: a record of one field, with the kind as its name. -/
def Layer.ofDocument? : Document → Option Layer
  | .record [(name, label)] => do
    let kind ← layerNames.lookup name
    let label ← label.natural? UInt32.size
    return { kind, label := UInt32.ofNat label }
  | _ => none

/-- The document of a layer. -/
def Layer.toDocument (layer : Layer) : Document :=
  .record [(layer.kind.name, .integer layer.label.toNat)]

/-- The matcher configuration that a document describes. -/
def Config.ofDocument? (d : Document) : Option Config :=
  match d.fields? ["match_type", "layers", "rewrite", "phi_loop"] with
  | some [side, layers, substitution, phiLoop] => do
    let default : Config := {}
    let side ← side.elim (some default.side) (Document.choice? sideNames)
    let layers ← layers.elim (some default.layers) (Document.list? Layer.ofDocument?)
    let substitution ←
      substitution.elim (some default.substitution) (Document.choice? substitutionNames)
    let phiLoop ← phiLoop.elim (some default.phiLoop) Document.bool?
    return { side, layers, substitution, phiLoop }
  | _ => none

/-- The document of a matcher configuration. -/
def Config.toDocument (config : Config) : Document :=
  .record
    [("match_type", .text (nameOf sideNames config.side)),
      ("layers", .list (config.layers.map Layer.toDocument)),
      ("rewrite", .text (nameOf substitutionNames config.substitution)),
      ("phi_loop", .bool config.phiLoop)]

end Matching

namespace Composition

/-- The drivers, by their names. -/
def driverNames : List (String × Driver) := [("auto", .auto), ("left", .left), ("right", .right)]

/-- The options that a document describes. -/
def Options.ofDocument? (d : Document) : Option Options :=
  match d.fields? ["left", "right", "driver", "connect"] with
  | some [left, right, driver, trim] => do
    let default : Options := {}
    let left ← left.elim (some default.left) Matching.Config.ofDocument?
    let right ← right.elim (some default.right) Matching.Config.ofDocument?
    let driver ← driver.elim (some default.driver) (Document.choice? driverNames)
    let trim ← trim.elim (some default.trim) Document.bool?
    return { left, right, driver, trim }
  | _ => none

/-- The document of the options. -/
def Options.toDocument (opts : Options) : Document :=
  .record
    [("left", opts.left.toDocument), ("right", opts.right.toDocument),
      ("driver", .text (Matching.nameOf driverNames opts.driver)), ("connect", .bool opts.trim)]

end Composition

namespace EpsilonRemoval

/-- What is done where nothing is said. -/
def default : EpsilonRemoval Single := { trim := true, bound := Cost.tolerance }

/-- The epsilon removal that a document describes. -/
def ofDocument? (d : Document) : Option (EpsilonRemoval Single) :=
  match d.fields? ["connect", "delta"] with
  | some [trim, bound] => do
    let trim ← trim.elim (some default.trim) Document.bool?
    let bound ← bound.elim (some default.bound) Document.single?
    return { trim, bound }
  | _ => none

end EpsilonRemoval

namespace BestPathSearch

/-- What is done where nothing is said. -/
def default : BestPathSearch Single := { count := 1, bound := Cost.tolerance }

/-- The search that a document describes. -/
def ofDocument? (d : Document) : Option (BestPathSearch Single) :=
  match d.fields? ["nbest", "delta"] with
  | some [count, bound] => do
    let count ← count.elim (some default.count) (Document.natural? UInt64.size)
    let bound ← bound.elim (some default.bound) Document.single?
    return { count, bound }
  | _ => none

end BestPathSearch

end Transducer
