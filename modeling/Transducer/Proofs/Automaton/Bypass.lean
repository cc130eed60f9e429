import Mathlib
import Transducer.Automaton.Structure
import Transducer.Proofs.Automaton.Edit
import Transducer.Proofs.Automaton.EpsilonGraph
import Transducer.Proofs.Except

/-!
# The automaton after epsilon removal

Epsilon removal replaces the states one after the other. `removeEpsilons_eq` says that this is `bypass`, the
automaton in which every state is replaced at once, trimmed if that is asked for; it is reached if no
epsilon arc within a component has a weight that counts.
-/

namespace Transducer

open Automaton EpsilonGraph

variable {W : Type} [Weight W]

/-- What epsilon removal puts in place of a state. -/
def EpsilonGraph.outcome (g : EpsilonGraph W) (s : Nat) : State W :=
  let state := g.replacement (g.component s)
  { arcs := state.arcs : State W }.withFinal (state.final.getD 0)

/-- The automaton with every state replaced. -/
def Automaton.bypass (a : Automaton W) : Automaton W :=
  { a with states := (Array.range a.size).map (EpsilonGraph.of a).outcome, cache := {} }

namespace Automaton

variable {a : Automaton W} {s : Nat}

@[simp] theorem size_bypass (a : Automaton W) : a.bypass.size = a.size := by
  simp [bypass, size]

theorem getElem?_bypass (hs : s < a.size) : a.bypass.states[s]? = some ((EpsilonGraph.of a).outcome s) := by
  simp [bypass, hs]

theorem arcsAt_bypass (hs : s < a.size) :
    a.bypass.arcsAt s = ((EpsilonGraph.of a).replacement ((EpsilonGraph.of a).component s)).arcs := by
  rw [arcsAt, getElem?_bypass hs]
  rfl

theorem final?_bypass (hs : s < a.size) {weight : W} :
    a.bypass.final? s = some weight ↔ isZero weight = false ∧
      ((EpsilonGraph.of a).replacement ((EpsilonGraph.of a).component s)).final.getD 0 = weight := by
  rw [final?, getElem?_bypass hs]
  change (if isZero _ = true then none else some _) = some weight ↔ _
  split
  · next hz =>
    refine iff_of_false (fun h => by cases h) ?_
    rintro ⟨hw, rfl⟩
    rw [hw] at hz
    cases hz
  · next hz =>
    rw [Option.some.injEq]
    constructor
    · rintro rfl
      exact ⟨by simpa using hz, rfl⟩
    · exact fun h => h.2

/-- The arcs of a replacement lead to states that exist. -/
theorem target_lt_of_mem_replacement
    (htarget : ∀ {s : Nat} {arc : Arc W}, arc ∈ a.arcsAt s → arc.target < a.size) {c : Nat} {arc : Arc W}
    (h : arc ∈ ((EpsilonGraph.of a).replacement c).arcs) : arc.target < a.size := by
  obtain ⟨s, weight, -, old, hold, -, -, rfl⟩ := mem_arcs_replacement.1 h
  exact (htarget hold : old.target < a.size)

/-- No arc is epsilon after the states have been replaced. -/
theorem isEpsilon_bypass {arc : Arc W} (h : arc ∈ a.bypass.arcsAt s) : arc.isEpsilon = false := by
  have hs := lt_size_of_mem h
  rw [size_bypass] at hs
  rw [arcsAt_bypass hs] at h
  obtain ⟨t, d, -, old, -, hepsilon, -, rfl⟩ := mem_arcs_replacement.1 h
  exact hepsilon

theorem wellFormed_bypass (wf : a.WellFormed) : a.bypass.WellFormed := by
  refine ⟨fun h => ?_, fun {s arc} h => ?_, fun {s weight} h => ?_⟩
  · rw [size_bypass]
    exact wf.start_lt h
  · have hs := lt_size_of_mem h
    rw [size_bypass] at hs ⊢
    rw [arcsAt_bypass hs] at h
    exact target_lt_of_mem_replacement wf.target_lt h
  · by_cases hs : s < a.size
    · exact ((final?_bypass hs).1 h).1
    · rw [final?_eq_none (by rw [size_bypass]; omega)] at h
      cases h

end Automaton

namespace Edit

variable {a : Automaton W}

/-- To replace states one after the other replaces them all. -/
theorem forM_setArcs_setFinal_eq (outcome : Nat → State W) {arcs : Nat → Array (Arc W)} {weight : Nat → W}
    (houtcome : ∀ s, outcome s = ({ arcs := arcs s } : State W).withFinal (weight s)) (vertices : List Nat)
    (hlt : ∀ s ∈ vertices, s < a.size) (harcs : ∀ s ∈ vertices, ∀ arc ∈ arcs s, arc.target < a.size)
    (hne : vertices ≠ []) :
    ∃ states, (vertices.forM fun s => do setArcs s (arcs s); setFinal s (weight s) : Edit W Unit) a =
      .ok () { a with states, cache := {} } ∧ states.size = a.size ∧
      ∀ t < a.size, states[t]? = if t ∈ vertices then some (outcome t) else a.states[t]? := by
  induction vertices generalizing a with
  | nil => exact absurd rfl hne
  | cons s vertices ih =>
    have hs := hlt s List.mem_cons_self
    have hfirst := setArcs_setFinal_eq hs (harcs s List.mem_cons_self) (weight s)
    rw [← houtcome] at hfirst
    have hstep : (List.forM (s :: vertices) fun s => do setArcs s (arcs s); setFinal s (weight s) : Edit W Unit)
        a = (vertices.forM fun s => do setArcs s (arcs s); setFinal s (weight s) : Edit W Unit)
          { a with states := a.states.setIfInBounds s (outcome s), cache := {} } := by
      show ((do setArcs s (arcs s); setFinal s (weight s)) >>= fun _ => vertices.forM _ : Edit W Unit) a = _
      rw [bind_of_ok hfirst]
    have hget : ∀ t < a.size, (a.states.setIfInBounds s (outcome s))[t]? =
        if s = t then some (outcome s) else a.states[t]? := by
      intro t ht
      rw [Array.getElem?_setIfInBounds]
      split
      · next h => rw [if_pos (h ▸ ht : s < a.states.size)]
      · rfl
    rw [hstep]
    by_cases hnil : vertices = []
    · subst hnil
      refine ⟨_, rfl, Array.size_setIfInBounds .., ?_⟩
      intro t ht
      rw [hget t ht]
      by_cases h : s = t
      · simp [h]
      · simp [h, Ne.symm h]
    · have hsize : ({ a with states := a.states.setIfInBounds s (outcome s), cache := {} } :
          Automaton W).size = a.size := Array.size_setIfInBounds ..
      obtain ⟨states, heq, hstates, hall⟩ := ih
        (a := { a with states := a.states.setIfInBounds s (outcome s), cache := {} })
        (fun t ht => hsize.symm ▸ hlt t (List.mem_cons_of_mem _ ht))
        (fun t ht arc harc => hsize.symm ▸ harcs t (List.mem_cons_of_mem _ ht) arc harc) hnil
      rw [hsize] at hstates hall
      refine ⟨states, heq, hstates, ?_⟩
      intro t ht
      rw [hall t ht]
      by_cases h : t ∈ vertices
      · simp [h]
      · rw [if_neg h]
        refine (hget t ht).trans ?_
        by_cases hst : s = t
        · simp [hst]
        · simp [h, hst, Ne.symm hst]

variable {D : Type} [Tolerance W D]

/-- Epsilon removal does nothing where there is nothing to do. -/
theorem removeEpsilons_of_no_epsilon (h : a.anyArc (·.isEpsilon) = false) (config : EpsilonRemoval D) :
    removeEpsilons config a = .ok () a := by
  unfold removeEpsilons
  change (if a.anyArc (·.isEpsilon) = true then _ else _ : Edit W Unit) a = _
  rw [h]
  rfl

/-- It is refused where an epsilon arc on a cycle has a weight that counts. -/
theorem removeEpsilons_of_cycle (h : a.anyArc (·.isEpsilon) = true) {config : EpsilonRemoval D} {s : Nat}
    (hcycle : (EpsilonGraph.of a).weightedCycle? config.bound = some s) :
    removeEpsilons config a = .error (.epsilonCycle s) a := by
  unfold removeEpsilons
  change (if a.anyArc (·.isEpsilon) = true then _ else _ : Edit W Unit) a = _
  rw [h, if_pos rfl]
  dsimp only
  rw [hcycle]
  rfl

/-- Otherwise it replaces every state. -/
theorem removeEpsilons_eq (htarget : ∀ {s : Nat} {arc : Arc W}, arc ∈ a.arcsAt s → arc.target < a.size)
    (h : a.anyArc (·.isEpsilon) = true) {config : EpsilonRemoval D}
    (hcycle : (EpsilonGraph.of a).weightedCycle? config.bound = none) :
    removeEpsilons config a = .ok () (if config.trim then a.bypass.trim else a.bypass) := by
  let g := EpsilonGraph.of a
  let replacements := (Array.range g.components.count).map g.replacement
  let state := fun s => replacements.getD (g.component s) {}
  have hstate : ∀ s < a.size, state s = g.replacement (g.component s) := by
    intro s hs
    have hlt := component_lt hs
    simp only [state, replacements, Array.getD_eq_getD_getElem?, Array.getElem?_map]
    rw [Array.getElem?_range, if_pos hlt]
    rfl
  have hne : List.range a.size ≠ [] := by
    intro hnil
    have hzero : a.states.size = 0 := List.range_eq_nil.1 hnil
    simp [anyArc, Array.size_eq_zero_iff.1 hzero] at h
  obtain ⟨states, heq, hsize, hall⟩ := forM_setArcs_setFinal_eq (a := a)
    (fun s => ({ arcs := (state s).arcs } : State W).withFinal ((state s).final.getD 0))
    (fun _ => rfl) (List.range a.size) (fun s hs => List.mem_range.1 hs)
    (fun s hs arc harc => by
      rw [hstate s (List.mem_range.1 hs)] at harc
      exact target_lt_of_mem_replacement htarget harc) hne
  have hbypass : ({ a with states, cache := {} } : Automaton W) = a.bypass := by
    have hstates : states = (Array.range a.size).map g.outcome := by
      apply Array.ext_getElem?
      intro s
      by_cases hs : s < a.size
      · rw [hall s hs, if_pos (List.mem_range.2 hs), hstate s hs]
        simp [hs, g, outcome]
      · rw [Array.getElem?_eq_none (by omega), Array.getElem?_eq_none (by simpa using hs)]
    rw [hstates]
    rfl
  rw [hbypass] at heq
  have hrun : removeEpsilons config a = EStateM.bind
      ((List.range a.size).forM fun s => do
        setArcs s (state s).arcs
        setFinal s ((state s).final.getD 0))
      (fun _ => if config.trim = true then modify (·.trim) else pure ()) a := by
    unfold removeEpsilons
    change (if a.anyArc (·.isEpsilon) = true then _ else _ : Edit W Unit) a = _
    rw [h, if_pos rfl]
    dsimp only
    rw [hcycle]
    rfl
  rw [hrun, EStateM.bind, heq]
  cases config.trim <;> rfl

/-- Refused or not, epsilon removal leaves the automaton as it is, or with every state replaced, trimmed or
not. -/
theorem stateAfter_removeEpsilons (htarget : ∀ {s : Nat} {arc : Arc W}, arc ∈ a.arcsAt s → arc.target < a.size)
    (config : EpsilonRemoval D) :
    stateAfter (removeEpsilons config) a = a ∨ stateAfter (removeEpsilons config) a = a.bypass ∨
      stateAfter (removeEpsilons config) a = a.bypass.trim := by
  unfold stateAfter
  cases h : a.anyArc (·.isEpsilon) with
  | false => exact .inl (by rw [removeEpsilons_of_no_epsilon h])
  | true =>
    cases hcycle : (EpsilonGraph.of a).weightedCycle? config.bound with
    | some s => exact .inl (by rw [removeEpsilons_of_cycle h hcycle])
    | none =>
      rw [removeEpsilons_eq htarget h hcycle]
      cases config.trim with
      | false => exact .inr (.inl rfl)
      | true => exact .inr (.inr rfl)

end Edit

end Transducer
