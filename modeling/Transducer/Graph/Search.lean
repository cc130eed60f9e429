/-!
# Depth-first search

A graph is given by the list of successors of each vertex; the vertices are the numbers below some
bound, and a successor beyond it does not count. A search marks what it reaches and lists the vertices
in the order in which it finished them, the last one first.

`reachable` is the set of vertices that some roots reach. `finishOrder` lists all vertices; it is what
`Transducer.Graph.Component` sorts components by.
-/

namespace Transducer.Graph

/-- The state of a search. -/
structure Search where
  /-- For each vertex, whether the search has reached it. -/
  seen : Array Bool
  /-- The vertices that are finished, the last one first. -/
  finished : List Nat := []

namespace Search

/-- The search of a graph with `size` vertices, before its first step. -/
def init (size : Nat) : Search := { seen := Array.replicate size false }

/-- Whether there is nothing to do at a vertex: it has been reached, or it does not exist. -/
def skips (search : Search) (v : Nat) : Bool := search.seen.getD v true

/-- The search after a vertex has been reached. -/
def mark (search : Search) (v : Nat) : Search :=
  { search with seen := search.seen.setIfInBounds v true }

@[simp] theorem size_mark (search : Search) (v : Nat) : (search.mark v).seen.size = search.seen.size := by
  simp [mark]

/-- The search after a vertex has been finished. -/
def finish (search : Search) (v : Nat) : Search :=
  { search with finished := v :: search.finished }

/-- Visits a vertex and all that it reaches. The first argument bounds the length of the way there; the
number of vertices is always enough, as no way passes a vertex twice. -/
def visit (next : Nat → List Nat) : Nat → Search → Nat → Search
  | 0, search, _ => search
  | depth + 1, search, v =>
    if search.skips v then search
    else ((next v).foldl (visit next depth) (search.mark v)).finish v

/-- Visits vertices one after another. -/
def run (next : Nat → List Nat) (size : Nat) (roots : List Nat) (search : Search) : Search :=
  roots.foldl (visit next size) search

end Search

/-- For each vertex, whether one of the roots reaches it. -/
def reachable (next : Nat → List Nat) (size : Nat) (roots : List Nat) : Array Bool :=
  (Search.run next size roots (.init size)).seen

/-- All vertices of a graph in the reverse of the order in which a depth-first search finishes them. -/
def finishOrder (next : Nat → List Nat) (size : Nat) : List Nat :=
  (Search.run next size (List.range size) (.init size)).finished

/-- The graph with every edge turned round: for each vertex its predecessors, in ascending order. -/
def reverse (next : Nat → List Nat) (size : Nat) : Array (List Nat) :=
  (List.range size).foldr
    (fun v before => (next v).foldl (fun before w => before.modify w (v :: ·)) before)
    (Array.replicate size [])

end Transducer.Graph
