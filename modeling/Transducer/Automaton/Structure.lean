import Transducer.Automaton.Reachability

/-!
# Deciding properties

`Automaton.decides` finds out whether a property holds, and `Automaton.facts` does so for all of them.
`Automaton.properties` answers a query through what the automaton already knows and remembers what it
had to find out.
-/

namespace Transducer

/-- Whether each label is at most the next one. -/
def nondecreasing : List Label → Bool
  | a :: b :: rest => a ≤ b && nondecreasing (b :: rest)
  | _ => true

/-- The labels on one side of the arcs of a state. -/
def State.labels {W : Type} (state : State W) (side : Side) : List Label :=
  state.arcs.toList.map (·.label side)

namespace Automaton

variable {W : Type}

/-- Whether all arcs pass a test. -/
def allArcs (a : Automaton W) (p : Arc W → Bool) : Bool := a.states.all fun state => state.arcs.all p

/-- Whether some arc passes a test. -/
def anyArc (a : Automaton W) (p : Arc W → Bool) : Bool := a.states.any fun state => state.arcs.any p

/-- Whether no state has two arcs with one label on the given side. -/
def isDeterministic (a : Automaton W) (side : Side) : Bool :=
  a.states.all fun state => (state.labels side).Nodup

/-- Whether the arcs of every state are in the order of their labels on the given side. -/
def isSorted (a : Automaton W) (side : Side) : Bool :=
  a.states.all fun state => nondecreasing (state.labels side)

/-- Whether some arc has no label on the given side. -/
def hasEpsilons (a : Automaton W) (side : Side) : Bool := a.anyArc fun arc => arc.label side == epsilon

/-- Whether a weight counts: some arc is neither free nor impossible, or some state is final, but not
for free. -/
def isWeighted [Weight W] (a : Automaton W) : Bool :=
  a.anyArc (fun arc => !isOne arc.weight && !isZero arc.weight) ||
    a.states.any fun state => state.final.any (!isOne ·)

/-- Whether a property holds of the automaton. -/
def decides [Weight W] (a : Automaton W) : Property → Bool
  | .acceptor => a.allArcs fun arc => arc.ilabel == arc.olabel
  | .inputDeterministic => a.isDeterministic .input
  | .outputDeterministic => a.isDeterministic .output
  | .epsilons => a.anyArc (·.isEpsilon)
  | .inputEpsilons => a.hasEpsilons .input
  | .outputEpsilons => a.hasEpsilons .output
  | .inputSorted => a.isSorted .input
  | .outputSorted => a.isSorted .output
  | .weighted => a.isWeighted
  | .cyclic => a.isCyclic
  | .accessible => a.accessible.all id
  | .coaccessible => a.coaccessible.all id

/-- The decision of every property. -/
def facts [Weight W] (a : Automaton W) : PropertySet := .ofDecision a.decides

/-- The bits of `mask` that are set, as far as they are known or, if `compute` allows it, can be found
out; and the automaton with what it knows then. -/
def properties [Weight W] (a : Automaton W) (mask : PropertySet) (compute : Bool) :
    PropertySet × Automaton W :=
  let (answer, cache) := a.cache.query mask compute fun _ => a.facts
  (answer, { a with cache })

/-- Whether a property holds, found out if it is not known; and the automaton with what it knows then. -/
def ask [Weight W] (a : Automaton W) (property : Property) : Bool × Automaton W :=
  let mask := .fact property true
  let (answer, a) := a.properties mask true
  (answer.contains mask, a)

end Automaton

end Transducer
