import Mathlib
import Transducer.Proofs.Graph.Cycle
import Transducer.Proofs.Graph.Flood
import Transducer.Proofs.Property.Meaning

/-!
# Finding out all properties at once

What the arcs and the final weights decide is found out in one pass over the states (`Survey`), which keeps the labels
that it has seen at a state and those of the arc before. Whether there is a cycle is left to one search, and so is what
the start reaches and what reaches a final state. The twelve answers make the facts of the automaton (`surveys_eq`),
and these say what the properties mean (`contains_facts_iff`).
-/

namespace Transducer

variable {W : Type}

/-- What a pass over the states has found so far. -/
structure Survey where
  acceptor : Bool := true
  deterministic : Side → Bool := fun _ => true
  epsilons : Bool := false
  hasEpsilons : Side → Bool := fun _ => false
  sorted : Side → Bool := fun _ => true
  weighted : Bool := false

namespace Survey

/-- What has been seen of the arcs of a state: their labels, and those of the last one. -/
structure Seen where
  labels : Side → Std.HashSet Label := fun _ => ∅
  last : Side → Option Label := fun _ => none

variable [Weight W]

/-- Passes an arc of a state. -/
def arc (found : Survey × Seen) (arc : Arc W) : Survey × Seen :=
  let (t, seen) := found
  ({ acceptor := t.acceptor && arc.ilabel == arc.olabel
     deterministic := fun side => t.deterministic side && !(seen.labels side).contains (arc.label side)
     epsilons := t.epsilons || arc.isEpsilon
     hasEpsilons := fun side => t.hasEpsilons side || arc.label side == epsilon
     sorted := fun side => t.sorted side && (seen.last side).all (· ≤ arc.label side)
     weighted := t.weighted || !isOne arc.weight && !isZero arc.weight },
   { labels := fun side => (seen.labels side).insert (arc.label side)
     last := fun side => some (arc.label side) })

/-- Passes a state. -/
def state (t : Survey) (state : State W) : Survey :=
  let t := (state.arcs.toList.foldl arc (t, {})).1
  { t with weighted := t.weighted || state.final.any (!isOne ·) }

/-! ### What a pass finds -/

omit [Weight W] in
theorem nondecreasing_cons_cons (label label' : Label) (labels : List Label) :
    nondecreasing (label :: label' :: labels) = (decide (label ≤ label') && nondecreasing (label' :: labels)) := rfl

/-- After the arcs of a state, each answer is about all of them. -/
theorem foldl_arc (arcs : List (Arc W)) (t : Survey) (seen : Seen) : (arcs.foldl arc (t, seen)).1 =
    { acceptor := t.acceptor && arcs.all fun arc => arc.ilabel == arc.olabel
      deterministic := fun side => t.deterministic side &&
        (arcs.all (fun arc => !(seen.labels side).contains (arc.label side)) &&
          decide (arcs.map (·.label side)).Nodup)
      epsilons := t.epsilons || arcs.any (·.isEpsilon)
      hasEpsilons := fun side => t.hasEpsilons side || arcs.any fun arc => arc.label side == epsilon
      sorted := fun side => t.sorted side && nondecreasing ((seen.last side).toList ++ arcs.map (·.label side))
      weighted := t.weighted || arcs.any fun arc => !isOne arc.weight && !isZero arc.weight } := by
  induction arcs generalizing t seen with
  | nil =>
    have hsorted : ∀ side, nondecreasing (seen.last side).toList = true := fun side => by
      cases seen.last side <;> rfl
    simp [hsorted]
  | cons x arcs ih =>
    have hdeterministic : ∀ side : Side,
        (!(seen.labels side).contains (x.label side) &&
          (arcs.all (fun arc => !((seen.labels side).insert (x.label side)).contains (arc.label side)) &&
            decide (arcs.map (·.label side)).Nodup)) =
        ((x :: arcs).all (fun arc => !(seen.labels side).contains (arc.label side)) &&
          decide ((x :: arcs).map (·.label side)).Nodup) := by
      intro side
      rw [Bool.eq_iff_iff]
      simp only [Bool.and_eq_true, Bool.not_eq_true', decide_eq_true_iff, List.all_eq_true, List.forall_mem_cons,
        List.map_cons, List.nodup_cons, List.mem_map, Std.HashSet.contains_insert, Bool.or_eq_false_iff,
        beq_eq_false_iff_ne]
      grind
    have hsorted : ∀ side : Side,
        ((seen.last side).all (· ≤ x.label side) && nondecreasing (x.label side :: arcs.map (·.label side))) =
          nondecreasing ((seen.last side).toList ++ (x :: arcs).map (·.label side)) := by
      intro side
      cases seen.last side with
      | none => simp
      | some label => simp [nondecreasing_cons_cons]
    rw [List.foldl_cons, arc, ih]
    simp only [Bool.and_assoc, Bool.or_assoc, hdeterministic, Option.toList_some, List.singleton_append, hsorted,
      List.all_cons, List.any_cons]

/-- After some states, each answer is about all of them. -/
theorem foldl_state (states : List (State W)) (t : Survey) : states.foldl state t =
    { acceptor := t.acceptor && states.all fun state => state.arcs.all fun arc => arc.ilabel == arc.olabel
      deterministic := fun side => t.deterministic side && states.all fun state => decide (state.labels side).Nodup
      epsilons := t.epsilons || states.any fun state => state.arcs.any (·.isEpsilon)
      hasEpsilons := fun side => t.hasEpsilons side ||
        states.any fun state => state.arcs.any fun arc => arc.label side == epsilon
      sorted := fun side => t.sorted side && states.all fun state => nondecreasing (state.labels side)
      weighted := t.weighted ||
        ((states.any fun state => state.arcs.any fun arc => !isOne arc.weight && !isZero arc.weight) ||
          states.any fun state => state.final.any (!isOne ·)) } := by
  induction states generalizing t with
  | nil => simp
  | cons state states ih =>
    have hall : (state.arcs.all fun _ => true) = true := by simp
    rw [List.foldl_cons, Survey.state, foldl_arc, ih]
    simp only [List.all_cons, List.any_cons, Bool.and_assoc, Bool.or_assoc, Array.all_toList, Array.any_toList,
      Std.HashSet.contains_empty, Bool.not_false, hall, Bool.true_and, Option.toList_none, List.nil_append,
      State.labels]
    rw [Bool.or_left_comm (state.final.any _)]
    rfl

end Survey

namespace Automaton

open Transducer.Graph

variable {a : Automaton W}

/-- Where the arcs of a state lead, whether there are such states or not. -/
def targets (a : Automaton W) (s : Nat) : List Nat := (a.arcsAt s).toList.map (·.target)

theorem edge_targets : Edge a.targets a.size = Edge a.successors a.size := by
  funext s t
  simp [Edge, targets, successors, List.mem_filter]

theorem hasCycle_targets : hasCycle a.targets a.size = a.isCyclic := by
  rw [Bool.eq_iff_iff, hasCycle_iff, isCyclic_iff, Reaches, Reaches, edge_targets]

variable [Weight W]

/-- What a pass over all states finds. -/
def survey (a : Automaton W) : Survey := a.states.toList.foldl Survey.state {}

/-- The answer to each question, from the pass and from the searches. -/
def surveys (a : Automaton W) : Property → Bool
  | .acceptor => a.survey.acceptor
  | .inputDeterministic => a.survey.deterministic .input
  | .outputDeterministic => a.survey.deterministic .output
  | .epsilons => a.survey.epsilons
  | .inputEpsilons => a.survey.hasEpsilons .input
  | .outputEpsilons => a.survey.hasEpsilons .output
  | .inputSorted => a.survey.sorted .input
  | .outputSorted => a.survey.sorted .output
  | .weighted => a.survey.weighted
  | .cyclic => hasCycle a.targets a.size
  | .accessible => (flood .stack a.successors a.size a.start.toList).seen.all id
  | .coaccessible =>
    let before := reverse a.successors a.size
    (flood .stack (fun s => before.getD s []) a.size a.finalStates).seen.all id

theorem surveys_eq : a.surveys = a.decides := by
  funext p
  have hsurvey := Survey.foldl_state a.states.toList {}
  rw [← survey] at hsurvey
  simp only [Bool.true_and, Bool.false_or, Array.all_toList, Array.any_toList] at hsurvey
  cases p with
  | acceptor => rw [surveys, hsurvey]; rfl
  | inputDeterministic => rw [surveys, hsurvey]; rfl
  | outputDeterministic => rw [surveys, hsurvey]; rfl
  | epsilons => rw [surveys, hsurvey]; rfl
  | inputEpsilons => rw [surveys, hsurvey]; rfl
  | outputEpsilons => rw [surveys, hsurvey]; rfl
  | inputSorted => rw [surveys, hsurvey]; rfl
  | outputSorted => rw [surveys, hsurvey]; rfl
  | weighted => rw [surveys, hsurvey]; rfl
  | cyclic => exact hasCycle_targets
  | accessible => rw [surveys, seen_flood]; rfl
  | coaccessible => rw [surveys, seen_flood]; rfl

/-- All properties are found out at once. The facts of an automaton are what is found, and they have exactly one bit
of each pair: the first one if the property holds, the other one if it fails. -/
theorem contains_facts_iff (a : Automaton W) (p : Property) :
    a.facts = .ofDecision a.surveys ∧ (a.facts.contains (.fact p true) = true ↔ a.Satisfies p) ∧
      (a.facts.contains (.fact p false) = true ↔ ¬ a.Satisfies p) := by
  refine ⟨by rw [facts, surveys_eq], ?_⟩
  simp only [facts, PropertySet.contains_ofDecision, beq_true, beq_false, Bool.not_eq_true',
    ← decides_iff, Bool.not_eq_true, and_self]

end Automaton

end Transducer
