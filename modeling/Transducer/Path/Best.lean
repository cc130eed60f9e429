import Transducer.Path.Chain
import Transducer.Path.Distance
import Transducer.Path.Heap

/-!
# Best paths

The best accepting paths of an automaton, found by a search that always extends the beginning of a path
that promises the best total. What a beginning promises is its own weight times the backward distance of
its last state. No state is extended more often than there are paths to find.

The result is an automaton with one chain for each path, the best first.
-/

namespace Transducer

/-- The beginning of a path, or a whole path. -/
structure Candidate (W : Type) where
  /-- What the best path that begins like this weighs. -/
  promise : W
  /-- The last state. -/
  state : Nat
  /-- The weight so far; of a whole path with that of its last state. -/
  weight : W
  /-- The arcs, the last one first. -/
  arcs : List (Arc W)
  /-- Whether the path ends here. -/
  complete : Bool

/-- The state of a search for best paths. -/
structure BestSearch (W : Type) where
  /-- The candidates that wait, each with its number. -/
  queue : Heap (Candidate W × Nat) := .empty
  /-- How many candidates there have been, which is the number of the next one. -/
  created : Nat := 0
  /-- How often each state has been extended. -/
  extended : Array Nat
  /-- The whole paths found, the last one first. -/
  found : List (Candidate W) := []

namespace BestSearch

variable {W : Type} [Weight W] [Ranked W]

/-- Whether the first of two numbered candidates is extended first: the one that promises more, or the
older one if neither does. -/
def precedes (x y : Candidate W × Nat) : Bool :=
  better x.1.promise y.1.promise || (!better y.1.promise x.1.promise && x.2 < y.2)

/-- Makes a candidate wait. -/
def enqueue (search : BestSearch W) (c : Candidate W) : BestSearch W :=
  { search with
    queue := search.queue.push precedes (c, search.created)
    created := search.created + 1 }

/-- The candidates that extend the beginning of a path: the path that ends here, and one for each arc to a
state from which a final state can be reached. -/
def extensions (a : Automaton W) (backward : Array W) (c : Candidate W) : List (Candidate W) :=
  let whole := (a.final? c.state).toList.map fun weight =>
    { c with promise := c.weight * weight, weight := c.weight * weight, complete := true }
  let longer := (a.arcsAt c.state).toList.filterMap fun arc =>
    let ahead := backward.getD arc.target 0
    if isZero ahead then none
    else
      let weight := c.weight * arc.weight
      some { promise := weight * ahead, state := arc.target, weight, arcs := arc :: c.arcs,
             complete := false }
  whole ++ longer

/-- Runs the search until the given number of paths is found or no candidate is left. The first argument
bounds the number of candidates. -/
def run (a : Automaton W) (backward : Array W) (count : Nat) : Nat → BestSearch W → List (Candidate W)
  | 0, search => search.found.reverse
  | bound + 1, search =>
    match search.queue.pop? precedes with
    | none => search.found.reverse
    | some ((c, _), queue) =>
      let search := { search with queue }
      if c.complete then
        let search := { search with found := c :: search.found }
        if search.found.length = count then search.found.reverse
        else run a backward count bound search
      else
        let times := search.extended.getD c.state 0
        if count ≤ times then run a backward count bound search
        else
          let search := (extensions a backward c).foldl enqueue search
          run a backward count bound
            { search with extended := search.extended.setIfInBounds c.state (times + 1) }

end BestSearch

namespace Automaton

variable {W D : Type} [Weight W] [Ranked W] [Tolerance W D]

/-- The best paths from a state, by the backward distances of all states. There are never more candidates
than one and, for each time that a state is extended, one for its end and one for each of its arcs. -/
def bestFrom (a : Automaton W) (start : Nat) (backward : Array W) (count : Nat) :
    List (Candidate W) :=
  let search : BestSearch W := { extended := Array.replicate a.size 0 }
  BestSearch.run a backward count (2 + count * (a.size + a.arcCount))
    (search.enqueue
      { promise := backward.getD start 0, state := start, weight := 1, arcs := [], complete := false })

/-- Hangs a path off the start of an automaton of paths, with the weight of its last state. -/
def addBest (a result : Automaton W) (path : Candidate W) : Automaton W :=
  let steps := path.arcs.reverse.map fun arc => (arc.ilabel, arc.olabel, arc.weight)
  let (last, result) := result.addChain 0 steps
  result.changeState last (·.withFinal ((a.final? path.state).getD 0))

/-- The automaton of the best `count` paths. The backward distances are computed up to `bound`, in at most
the given number of steps; there is no result if these are too few. -/
def bestPaths (a : Automaton W) (count : Nat) (bound : D) (steps : Nat) : Option (Automaton W) :=
  let nothing : Automaton W := { inputSymbols := a.inputSymbols, outputSymbols := a.outputSymbols }
  match a.start, count with
  | none, _ | _, 0 => some nothing
  | some start, count =>
    (a.distances .backward bound steps).map fun backward =>
      if isZero (backward.getD start 0) then nothing
      else
        (a.bestFrom start backward count).foldl a.addBest
          { nothing with states := #[{}], start := some 0 }

end Automaton

end Transducer
