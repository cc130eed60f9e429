import Transducer.Graph.Search

/-!
# Strongly connected components

Two vertices are in one component if each of them reaches the other. The components are numbered in the
order in which a depth-first search finishes them, so that an edge between two components goes from the
higher number to the lower.

The vertex that is finished last of all is in a component that no other one leads to, and so on: taking
the vertices in the reverse of the order in which they are finished, each one that has no component yet
makes a new one, with all those vertices left that reach it.
-/

namespace Transducer.Graph

/-- The component of each vertex, and how many components there are. -/
structure Components where
  number : Array Nat
  count : Nat

/-- The components found so far, from the last one on: `place` tells for each vertex in which place its
component was found. -/
structure Collection where
  search : Search
  place : Array Nat
  count : Nat

/-- Makes a new component of a vertex that has none: those that are left of the vertices that reach
it. -/
def Collection.collect (before : Nat → List Nat) (size : Nat) (c : Collection) (root : Nat) :
    Collection :=
  if c.search.skips root then c
  else
    let ⟨search, place, count⟩ := c
    let search := Search.visit before size { search with finished := [] } root
    { search
      place := search.finished.foldl (fun place v => place.setIfInBounds v count) place
      count := count + 1 }

/-- The strongly connected components of a graph. -/
def components (next : Nat → List Nat) (size : Nat) : Components :=
  let turned := reverse next size
  let before := fun v => turned.getD v []
  let found := (finishOrder next size).foldl (Collection.collect before size)
    { search := .init size, place := Array.replicate size 0, count := 0 }
  { number := found.place.map fun place => found.count - 1 - place
    count := found.count }

end Transducer.Graph
