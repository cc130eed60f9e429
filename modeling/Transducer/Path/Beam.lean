import Std.Data.HashMap
import Transducer.Composition.Lazy

/-!
# Beam search

A search through a composition that goes one level of arcs at a time and keeps only the best composite
states of each level. A composite state is admitted once, with what the cheapest way to it from the level
before costs and with the last arc of that way; only what is admitted is ever expanded. The best path is
found again at the end, by going back along these arcs.
-/

namespace Transducer

/-- What is kept of a composite state that has been admitted. -/
structure Admitted (W : Type) where
  /-- What the way to it costs. -/
  cost : W
  /-- The composite state before it on that way and the arc from there; the start has none. -/
  back : Option (Nat × Arc W)

/-- A way to a composite state that has not been admitted, one arc further than one that has been. -/
structure Approach (W : Type) where
  /-- What the way costs. -/
  cost : W
  /-- The composite state before the last arc. -/
  source : Nat
  /-- The last arc. -/
  arc : Arc W

/-- An accepting path of a composition. -/
structure BeamPath (W : Type) where
  /-- The composite states on the path. -/
  states : List Nat
  /-- What the path reads. -/
  ilabels : List Label
  /-- What the path writes. -/
  olabels : List Label
  /-- The weight, that of the last state included. -/
  weight : W

/-- What one level of a beam search finds: the best total so far with the final state where it is reached,
and the ways that lead on. -/
structure BeamLevel (W : Type) where
  best : Option (W × Nat)
  next : List (Approach W) := []

variable {W : Type}

namespace Approach

/-- What is kept of the composite state that the way leads to, if it is admitted. -/
def admitted (approach : Approach W) : Admitted W where
  cost := approach.cost
  back := some (approach.source, approach.arc)

variable [Ranked W]

/-- Offers a way to the next level, which keeps the first of the cheapest ways to each composite
state. -/
def offer (approach : Approach W) : List (Approach W) → List (Approach W)
  | [] => [approach]
  | other :: rest =>
    if other.arc.target = approach.arc.target then
      (if better approach.cost other.cost then approach else other) :: rest
    else other :: offer approach rest

/-- Whether the first way comes before the second: it is cheaper, or as cheap and to a lower state. -/
def precedes (approach other : Approach W) : Bool :=
  better approach.cost other.cost ||
    (!better other.cost approach.cost && approach.arc.target ≤ other.arc.target)

end Approach

/-- The first of the best of what has been found, with its total. -/
def keepBest {α : Type} [Ranked W] (best : Option (W × α)) (found : W × α) : Option (W × α) :=
  match best with
  | none => some found
  | some least => if better found.1 least.1 then some found else some least

namespace BeamLevel

variable [Weight W] [Ranked W]

/-- What a level comes to with one more composite state, the way to which has this cost. -/
def expand (admitted : Std.HashMap Nat (Admitted W)) (level : BeamLevel W) (state : Nat) (cost : W)
    (known : State W) : BeamLevel W where
  best := match known.final with
    | none => level.best
    | some weight => keepBest level.best (cost * weight, state)
  next :=
    let fresh := known.arcs.toList.filter fun arc => !admitted.contains arc.target
    fresh.foldl (fun next arc => Approach.offer ⟨cost * arc.weight, state, arc⟩ next) level.next

/-- The ways that lead on, as many as the width allows, the best ones first. -/
def chosen (level : BeamLevel W) (width : Nat) : List (Approach W) :=
  (level.next.mergeSort Approach.precedes).take width

end BeamLevel

/-- What has been admitted, with the composite states that these ways lead to. -/
def admitAll (admitted : Std.HashMap Nat (Admitted W)) (chosen : List (Approach W)) :
    Std.HashMap Nat (Admitted W) :=
  chosen.foldl (fun admitted approach => admitted.insert approach.arc.target approach.admitted) admitted

/-- Goes back from a composite state as far as it can, and puts the composite states and the arcs that it
meets before those that it is given. The first argument bounds the number of arcs. -/
def retrace (admitted : Std.HashMap Nat (Admitted W)) :
    Nat → Nat → List Nat → List (Arc W) → List Nat × List (Arc W)
  | 0, _, states, arcs => (states, arcs)
  | bound + 1, state, states, arcs =>
    match admitted[state]?.bind (·.back) with
    | none => (states, arcs)
    | some (source, arc) => retrace admitted bound source (source :: states) (arc :: arcs)

/-- The path through these composite states along these arcs. -/
def BeamPath.along (weight : W) (way : List Nat × List (Arc W)) : BeamPath W where
  states := way.1
  ilabels := (way.2.map (·.ilabel)).filter (· != epsilon)
  olabels := (way.2.map (·.olabel)).filter (· != epsilon)
  weight

namespace Composition

variable [Weight W] [Ranked W]

/-- Expands one composite state of a level, unless that fails. -/
def advance (c : Composition W) (admitted : Std.HashMap Nat (Admitted W)) (level : BeamLevel W)
    (state : Nat) : Request W (BeamLevel W) :=
  match admitted[state]? with
  | none => return level
  | some entry => return level.expand admitted state entry.cost (← c.request state)

/-- Goes from level to level until there are no ways that lead on, and gives the best total with its final
state and all that has been admitted. The first argument bounds the number of levels: each admits a
composite state that was not admitted before. -/
def search (c : Composition W) (width : Nat) :
    Nat → Std.HashMap Nat (Admitted W) → List Nat → Option (W × Nat) →
      Request W (Option (W × Nat) × Std.HashMap Nat (Admitted W))
  | 0, admitted, _, best => return (best, admitted)
  | _, admitted, [], best => return (best, admitted)
  | bound + 1, admitted, beam, best => do
    let level ← beam.foldlM (c.advance admitted) { best }
    let chosen := level.chosen width
    c.search width bound (admitAll admitted chosen) (chosen.map (·.arc.target)) level.best

/-- The best accepting path that a beam of the given width finds. -/
def beamSearch (c : Composition W) (width : Nat) : Request W (Option (BeamPath W)) := do
  if width = 0 then throw (.config .emptyBeam)
  match ← c.start with
  | none => return none
  | some start =>
    let (best, admitted) ← c.search width (c.bound + 1) {(start, ⟨1, none⟩)} [start] none
    return best.map fun (weight, last) =>
      BeamPath.along weight (retrace admitted admitted.size last [last] [])

end Composition

end Transducer
