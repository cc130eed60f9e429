import Transducer.Automaton.Basic

/-!
# Distances

The distance of a state is the sum of the weights of all ways to it from the start, or, backwards, of all
ways from it to a final state with the weight of that state. The computation keeps a queue of states
whose distance has grown by a residue that has not been passed on yet; it ends when what there is to add
changes no distance by more than a bound.

Some automata have no distances in this sense (a cycle that makes every way better): the computation
takes the number of steps after which it gives up.
-/

namespace Transducer

/-- Where distances are measured from. -/
inductive Direction where
  /-- From the start to each state. -/
  | forward
  /-- From each state to the final states. -/
  | backward
  deriving DecidableEq, Repr

/-- The state of a computation of distances. -/
structure Relaxation (W : Type) where
  distance : Array W
  /-- What has been added to a distance, but not yet to those of the neighbours. -/
  residue : Array W
  /-- Whether a state waits in the queue. -/
  waiting : Array Bool
  queue : List Nat

namespace Relaxation

variable {W D : Type} [Weight W] [Tolerance W D]

/-- No distances, and nothing to pass on. -/
def init (size : Nat) : Relaxation W where
  distance := Array.replicate size 0
  residue := Array.replicate size 0
  waiting := Array.replicate size false
  queue := []

/-- Sets off from a state with a weight. -/
def source (r : Relaxation W) (s : Nat) (weight : W) : Relaxation W where
  distance := r.distance.setIfInBounds s weight
  residue := r.residue.setIfInBounds s weight
  waiting := r.waiting.setIfInBounds s true
  queue := r.queue ++ [s]

/-- Adds a weight to the distance of a state, unless that changes it by no more than the bound. -/
def add (bound : D) (r : Relaxation W) (s : Nat) (weight : W) : Relaxation W :=
  let old := r.distance.getD s 0
  let new := old + weight
  if approxEq old new bound then r
  else
    { distance := r.distance.setIfInBounds s new
      residue := r.residue.setIfInBounds s (r.residue.getD s 0 + weight)
      waiting := r.waiting.setIfInBounds s true
      queue := if r.waiting.getD s true then r.queue else r.queue ++ [s] }

/-- Passes the residue of a state, which has left the queue, on to its neighbours. -/
def pass (edges : Array (List (Nat × W))) (bound : D) (r : Relaxation W) (s : Nat) : Relaxation W :=
  let weight := r.residue.getD s 0
  let r := { r with residue := r.residue.setIfInBounds s 0, waiting := r.waiting.setIfInBounds s false }
  (edges.getD s []).foldl (fun r edge => r.add bound edge.1 (weight * edge.2)) r

/-- Runs until the queue is empty, for at most the given number of steps. -/
def run (edges : Array (List (Nat × W))) (bound : D) : Nat → Relaxation W → Option (Array W)
  | steps, r =>
    match steps, r.queue with
    | _, [] => some r.distance
    | 0, _ => none
    | steps + 1, s :: queue => run edges bound steps (pass edges bound { r with queue } s)

end Relaxation

namespace Automaton

variable {W D : Type} [Weight W] [Tolerance W D]

/-- For each state the arcs that leave it, as neighbours with weights. -/
def outgoing (a : Automaton W) : Array (List (Nat × W)) :=
  a.states.map fun state => state.arcs.toList.map fun arc => (arc.target, arc.weight)

/-- For each state the arcs that lead to it, as neighbours with weights: those from lower states first,
and the arcs of one state in their order. -/
def incoming (a : Automaton W) : Array (List (Nat × W)) :=
  (List.range a.size).foldr
    (fun s edges =>
      (a.arcsAt s).toList.foldr (fun arc edges => edges.modify arc.target ((s, arc.weight) :: ·)) edges)
    (Array.replicate a.size [])

/-- The distances of all states, up to the bound, or nothing if they are not found in the given number of
steps. -/
def distances (a : Automaton W) (direction : Direction) (bound : D) (steps : Nat) : Option (Array W) :=
  match direction with
  | .forward =>
    let r := a.start.toList.foldl (fun r s => r.source s 1) (Relaxation.init a.size)
    r.run a.outgoing bound steps
  | .backward =>
    let r := (List.range a.size).foldl
      (fun r s => match a.final? s with
        | some weight => r.source s weight
        | none => r)
      (Relaxation.init a.size)
    r.run a.incoming bound steps

end Automaton

end Transducer
