import Transducer.Error

/-!
# How to match labels

A matcher looks up the arcs of a state by the label on one side. Over this exact lookup lie layers, each
of which gives one label a special meaning: a sigma arc matches every label, a rho arc every label that
has no other match, and a phi arc leads to the state where the search goes on if nothing matches.
-/

namespace Transducer.Matching

/-- The meaning that a layer gives to its label. -/
inductive LayerKind where
  /-- Matches every label, beside the exact matches. -/
  | sigma
  /-- Matches every label that has no exact match. -/
  | rho
  /-- Where nothing matches, the search goes on at the target. -/
  | phi
  deriving DecidableEq, Repr

/-- The name of the meaning. -/
def LayerKind.name : LayerKind → String
  | sigma => "sigma"
  | rho => "rho"
  | phi => "phi"

/-- A label with a special meaning. -/
structure Layer where
  kind : LayerKind
  label : Label
  deriving DecidableEq, Repr

/-- Whether arcs that were found by a special label get the label that was asked for on both sides, or
only on the side that is matched. -/
inductive Substitution where
  /-- On both sides if every arc of the automaton reads what it writes. -/
  | auto
  /-- On both sides. -/
  | always
  /-- On the matched side. -/
  | never
  deriving DecidableEq, Repr

/-- How to match labels. -/
structure Config where
  /-- The side to match; with none, nothing can be looked up. -/
  side : Option Side := some .input
  /-- The layers, the outermost first. -/
  layers : List Layer := []
  substitution : Substitution := .auto
  /-- Whether a phi arc from a state to itself matches what nothing else matches. -/
  phiLoop : Bool := true
  deriving DecidableEq, Repr

namespace Config

/-- Whether labels are matched exactly, without any layer. -/
def isPlain (config : Config) : Bool := config.layers.isEmpty

/-- Why the configuration cannot be used, if so. -/
def fault? (config : Config) : Option Misconfiguration :=
  let reserved := config.layers.find? fun layer =>
    layer.label == epsilon || layer.label == noLabel
  match reserved with
  | some layer => some (.reservedLabel layer.kind.name layer.label)
  | none =>
    if config.side.isNone && !config.isPlain then some .layersWithoutSide else none

end Config

end Transducer.Matching
