import Transducer.Automaton.Edit

/-!
# Chains of arcs

A chain hangs a sequence of new states off a state. `addPath` adds a path of labels to an automaton, and
with it a pair of label sequences to what the automaton relates; repeated calls make a union.
-/

namespace Transducer.Automaton

variable {W : Type} [Weight W]

/-- Adds a chain of new states after a state, one for each pair of labels with a weight. Gives the last
state. -/
def addChain (a : Automaton W) (s : Nat) : List (Label × Label × W) → Nat × Automaton W
  | [] => (s, a)
  | (ilabel, olabel, weight) :: rest =>
    let t := a.size
    ((a.pushState {}).changeState s (·.push ⟨ilabel, olabel, weight, t⟩)).addChain t rest

/-- The start, which is added if there is none. -/
def ensureStart (a : Automaton W) : Nat × Automaton W :=
  match a.start with
  | some s => (s, a)
  | none => (a.size, { a.pushState {} with start := some a.size })

/-- Two sequences of labels side by side; the shorter one is filled up with epsilon. -/
def zipLabels (ilabels olabels : List Label) : List (Label × Label) :=
  List.zipWithAll (fun i o => (i.getD epsilon, o.getD epsilon)) ilabels olabels

/-- Adds a path from the start to a new final state, and gives that state. A path without arcs adds its
weight to that of the start. -/
def addPath (a : Automaton W) (ilabels olabels : List Label) (weight : W) : Nat × Automaton W :=
  let (start, a) := a.ensureStart
  match zipLabels ilabels olabels with
  | [] =>
    let total := match a.final? start with
      | some old => old + weight
      | none => weight
    (start, a.changeState start (·.withFinal total))
  | labels =>
    let (last, a) := a.addChain start (labels.map fun (i, o) => (i, o, 1))
    (last, a.changeState last (·.withFinal weight))

end Transducer.Automaton
