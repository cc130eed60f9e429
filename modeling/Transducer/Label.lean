/-!
# Labels and arcs

An arc reads one label and writes another. The label `epsilon` stands for reading or writing nothing.
The label `noLabel` stands on no arc of an automaton: it marks the implicit arc by which one side of a
composition stays where it is.
-/

namespace Transducer

/-- The number of a symbol. -/
abbrev Label := UInt32

/-- The label of an arc that reads, or writes, nothing. -/
def epsilon : Label := 0

/-- The label of the implicit arc from a state to itself. -/
def noLabel : Label := 0xFFFFFFFF

/-- One side of an arc. -/
inductive Side where
  /-- What the arc reads. -/
  | input
  /-- What the arc writes. -/
  | output
  deriving DecidableEq, Repr

namespace Side

/-- The name of the side. -/
def name : Side → String
  | input => "input"
  | output => "output"

/-- The other side. -/
def other : Side → Side
  | input => output
  | output => input

end Side

/-- An arc, kept at the state it leaves. -/
structure Arc (W : Type) where
  ilabel : Label
  olabel : Label
  weight : W
  target : Nat
  deriving DecidableEq, Repr

namespace Arc

variable {W : Type}

/-- The label on one side. -/
def label (arc : Arc W) : Side → Label
  | .input => arc.ilabel
  | .output => arc.olabel

/-- The arc with the label on one side replaced. -/
def withLabel (arc : Arc W) (side : Side) (label : Label) : Arc W :=
  match side with
  | .input => { arc with ilabel := label }
  | .output => { arc with olabel := label }

/-- Whether the arc neither reads nor writes. -/
def isEpsilon (arc : Arc W) : Bool := arc.ilabel == epsilon && arc.olabel == epsilon

@[simp] theorem label_withLabel_self (arc : Arc W) (side : Side) (label : Label) :
    (arc.withLabel side label).label side = label := by
  cases side <;> rfl

@[simp] theorem label_withLabel_other (arc : Arc W) (side : Side) (label : Label) :
    (arc.withLabel side.other label).label side = arc.label side := by
  cases side <;> rfl

@[simp] theorem target_withLabel (arc : Arc W) (side : Side) (label : Label) :
    (arc.withLabel side label).target = arc.target := by
  cases side <;> rfl

@[simp] theorem weight_withLabel (arc : Arc W) (side : Side) (label : Label) :
    (arc.withLabel side label).weight = arc.weight := by
  cases side <;> rfl

end Arc

end Transducer
