import Transducer.Automaton.Reachability

/-!
# Epsilon removal

Arcs that neither read nor write are replaced by what they lead to: each state gets the arcs and the
final weights of all states that it reaches by such arcs, with the weights of the ways there.

Within a strongly connected component of these arcs all of them must be free; then the states of a
component have the same ways. Between components the ways run from higher numbers to lower ones, and
the sums of their weights are passed on in that order.
-/

namespace Transducer

/-- How to remove epsilon arcs, with bounds of type `D` for comparing weights. -/
structure EpsilonRemoval (D : Type) where
  /-- Whether the result is trimmed to its useful states. -/
  trim : Bool
  /-- Up to which bound an arc of a cycle counts as free. -/
  bound : D
  deriving Repr

/-- The epsilon arcs of an automaton, by strongly connected components. -/
structure EpsilonGraph (W : Type) where
  automaton : Automaton W
  components : Graph.Components
  /-- For each component its states, in ascending order. -/
  members : Array (List Nat)

namespace EpsilonGraph

variable {W : Type}

/-- The epsilon arcs of a state. -/
def arcs (a : Automaton W) (s : Nat) : List (Arc W) := (a.arcsAt s).toList.filter (·.isEpsilon)

/-- The graph of the epsilon arcs of an automaton. -/
def of (a : Automaton W) : EpsilonGraph W :=
  let components := Graph.components (fun s => (arcs a s).map (·.target)) a.size
  { automaton := a
    components
    members := (List.range a.size).foldr
      (fun s members => members.modify (components.number.getD s 0) (s :: ·))
      (Array.replicate components.count []) }

/-- The component of a state. -/
def component (g : EpsilonGraph W) (s : Nat) : Nat := g.components.number.getD s 0

/-- The states of a component. -/
def states (g : EpsilonGraph W) (c : Nat) : List Nat := g.members.getD c []

variable [Weight W]

/-- The first state with an epsilon arc that stays in its component and is not free. -/
def weightedCycle? {D : Type} [Tolerance W D] (g : EpsilonGraph W) (bound : D) : Option Nat :=
  (List.range g.automaton.size).find? fun s =>
    (arcs g.automaton s).any fun arc =>
      g.component s == g.component arc.target && !approxEq arc.weight (1 : W) bound

/-- The epsilon arcs that leave a component, as components with weights. -/
def crossings (g : EpsilonGraph W) (c : Nat) : List (Nat × W) :=
  (g.states c).flatMap fun s =>
    (arcs g.automaton s).filterMap fun arc =>
      if g.component arc.target = c then none else some (g.component arc.target, arc.weight)

/-- The sum of a weight and a weight that may be missing. -/
def plus (old : Option W) (weight : W) : Option W :=
  some (match old with
    | some old => old + weight
    | none => weight)

/-- For each component, the sum of the weights of the epsilon ways to it from `root`; components that no
way leads to have none. -/
def distances (g : EpsilonGraph W) (root : Nat) : Array (Option W) :=
  (List.range (root + 1)).reverse.foldl
    (fun distances c =>
      match distances.getD c none with
      | none => distances
      | some weight =>
        (g.crossings c).foldl
          (fun distances crossing =>
            distances.modify crossing.1 fun old => plus old (weight * crossing.2))
          distances)
    ((Array.replicate g.components.count none).setIfInBounds root (some 1))

/-- The states that a component reaches by epsilon arcs, with the weights of the ways there: the highest
component first, and each component in the order of its states. -/
def closure (g : EpsilonGraph W) (root : Nat) : List (Nat × W) :=
  let distances := g.distances root
  (List.range (root + 1)).reverse.flatMap fun c =>
    match distances.getD c none with
    | none => []
    | some weight => (g.states c).map fun s => (s, weight)

/-- What the states of a component become: the other arcs and the final weights of all that they
reach. -/
def replacement (g : EpsilonGraph W) (root : Nat) : State W :=
  let closure := g.closure root
  { arcs := (closure.flatMap fun (s, weight) =>
      (g.automaton.arcsAt s).toList.filterMap fun arc =>
        if arc.isEpsilon || isZero (weight * arc.weight) then none
        else some { arc with weight := weight * arc.weight }).toArray
    final := closure.foldl
      (fun sum (s, weight) =>
        match g.automaton.final? s with
        | some final => plus sum (weight * final)
        | none => sum)
      none }

end EpsilonGraph

namespace Edit

variable {W D : Type} [Weight W] [Tolerance W D]

/-- Replaces the epsilon arcs of an automaton. An automaton without such arcs stays as it is. -/
def removeEpsilons (config : EpsilonRemoval D) : Edit W Unit := do
  let a ← get
  if a.states.any fun state => state.arcs.any (·.isEpsilon) then
    let g := EpsilonGraph.of a
    match g.weightedCycle? config.bound with
    | some s => throw (.epsilonCycle s)
    | none =>
      let replacements := (Array.range g.components.count).map g.replacement
      (List.range a.size).forM fun s => do
        let state := replacements.getD (g.component s) {}
        setArcs s state.arcs
        setFinal s (state.final.getD 0)
      if config.trim then modify (·.trim)

end Edit

end Transducer
