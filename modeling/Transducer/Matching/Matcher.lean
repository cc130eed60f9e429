import Transducer.Automaton.Structure
import Transducer.Matching.Config

/-!
# Matchers

A matcher answers which arcs of a state match a label. The exact lookup uses binary search where the
arcs are known to be sorted, and lists all arcs otherwise. Asked for epsilon it also gives the implicit
arc by which the state stays where it is; asked for the label of that arc it gives the epsilon arcs that
are really there.

The layers wrap the exact lookup from the outermost to the innermost. Epsilon and the label of the
implicit arc pass through all of them.
-/

namespace Transducer

/-- The first index from `low` on, below `high`, at which a monotone test fails. -/
def partitionPoint (p : Nat → Bool) (low high : Nat) : Nat :=
  if low < high then
    let middle := (low + high) / 2
    if p middle then partitionPoint p (middle + 1) high else partitionPoint p low middle
  else low
termination_by high - low

/-- A lookup of arcs by the label on one side. -/
structure Matcher (W : Type) where
  automaton : Automaton W
  /-- The side that is matched, if any. -/
  side : Option Side
  /-- The layers, the outermost first. -/
  layers : List Matching.Layer
  phiLoop : Bool
  /-- Whether an arc that a special label found gets the label that was asked for on both sides. -/
  substituteBoth : Bool
  /-- Whether the arcs of every state are in the order of the labels on the matched side. -/
  sorted : Bool

namespace Matcher

open Matching

variable {W : Type}

/-- The matcher of an automaton, which remembers what had to be found out about it. -/
def build [Weight W] (config : Config) : Edit W (Matcher W) := fun a =>
  match config.fault? with
  | some fault => .error (.config fault) a
  | none =>
    let (sorted, a) := match config.side with
      | some .input => a.ask .inputSorted
      | some .output => a.ask .outputSorted
      | none => (false, a)
    let (substituteBoth, a) := match config.substitution with
      | .always => (true, a)
      | .never => (false, a)
      | .auto => a.ask .acceptor
    .ok
      { automaton := a, side := config.side, layers := config.layers, phiLoop := config.phiLoop,
        substituteBoth, sorted } a

/-! ### What a matcher says of arcs and states -/

/-- The side on which labels are compared. A matcher that cannot be asked has input labels. -/
def matched (m : Matcher W) : Side := m.side.getD .input

/-- Whether the matcher has a layer. -/
def hasLayers (m : Matcher W) : Bool := !m.layers.isEmpty

/-- Whether an arc has the label of a layer on the matched side. -/
def isSpecial (m : Matcher W) (arc : Arc W) : Bool :=
  m.layers.any fun layer => layer.label == arc.label m.matched

/-- Whether some arc of a state has the label of a layer. Such a state has to be asked; to list its arcs
is not enough. -/
def hasSpecialArcs (m : Matcher W) (s : Nat) : Except Error Bool :=
  if m.hasLayers then (m.automaton.findArcs s).map fun arcs => arcs.any m.isSpecial
  else .ok false

/-- The implicit arc by which a state stays where it is, for free. -/
def loopArc [Weight W] (m : Matcher W) (s : Nat) : Arc W :=
  match m.matched with
  | .input => ⟨noLabel, epsilon, 1, s⟩
  | .output => ⟨epsilon, noLabel, 1, s⟩

/-! ### Exact lookup -/

/-- The arcs with a label on the matched side, in their order. -/
def select (m : Matcher W) (arcs : Array (Arc W)) (label : Label) : List (Arc W) :=
  if m.sorted then
    let labelAt (i : Nat) : Option Label := arcs[i]?.map (·.label m.matched)
    let low := partitionPoint (fun i => (labelAt i).any (· < label)) 0 arcs.size
    let high := partitionPoint (fun i => (labelAt i).any (· ≤ label)) low arcs.size
    (arcs.extract low high).toList
  else arcs.toList.filter fun arc => arc.label m.matched == label

/-- The exact matches of a label. -/
def findExact [Weight W] (m : Matcher W) (s : Nat) (label : Label) : Except Error (List (Arc W)) := do
  let arcs ← m.automaton.findArcs s
  let found := m.select arcs (if label = noLabel then epsilon else label)
  return if label = epsilon then m.loopArc s :: found else found

/-! ### Layers -/

/-- An arc that a special label found, with the label that was asked for. The side that is not matched
changes only where it has the special label, too. -/
def substitute (m : Matcher W) (special label : Label) (arc : Arc W) : Arc W :=
  let far := m.matched.other
  let substituted := arc.withLabel m.matched label
  if m.substituteBoth && arc.label far == special then substituted.withLabel far label else substituted

/-- An arc after a way of the given weight. -/
def after [Weight W] (weight : W) (arc : Arc W) : Arc W := { arc with weight := weight * arc.weight }

/-- Follows the phi arcs from a state until something matches. `inner` is the lookup below the layer,
`weight` that of the way so far, and `visited` the states on it. The first argument bounds the length of
the way: more states than the automaton has are never visited. -/
def followPhi [Weight W] (m : Matcher W) (inner : Nat → Label → Except Error (List (Arc W)))
    (phi label : Label) : Nat → List Nat → Nat → W → Except Error (List (Arc W))
  | 0, _, _, _ => .ok []
  | bound + 1, visited, s, weight => do
    let found ← inner s label
    if found.isEmpty then
      match ← inner s phi with
      | [] => return []
      | [arc] =>
        if arc.target = s then
          return if m.phiLoop then [m.substitute phi label (after weight arc)] else []
        else if visited.contains arc.target then
          return []
        else
          m.followPhi inner phi label bound (arc.target :: visited) arc.target (weight * arc.weight)
      | arcs => throw (.config (.ambiguousFailure s arcs.length phi))
    else
      return found.map (after weight)

/-- The matches of a label below some layers. -/
def findLayers [Weight W] (m : Matcher W) : List Layer → Nat → Label → Except Error (List (Arc W))
  | [], s, label => m.findExact s label
  | layer :: inner, s, label =>
    if label = epsilon ∨ label = noLabel then m.findLayers inner s label
    else if label = layer.label then .error (.config (.ownLabel layer.kind.name label))
    else
      match layer.kind with
      | .sigma => do
        let found ← m.findLayers inner s label
        let wild ← m.findLayers inner s layer.label
        return found ++ wild.map (m.substitute layer.label label)
      | .rho => do
        let found ← m.findLayers inner s label
        if found.isEmpty then
          return (← m.findLayers inner s layer.label).map (m.substitute layer.label label)
        else return found
      | .phi =>
        m.followPhi (m.findLayers inner) layer.label label (m.automaton.size + 1) [s] s 1

/-- The arcs of a state that match a label. -/
def find [Weight W] (m : Matcher W) (s : Nat) (label : Label) : Except Error (List (Arc W)) :=
  if m.side.isNone then .error (.config .notQueryable) else m.findLayers m.layers s label

end Matcher

end Transducer
