import Mathlib
import Transducer.Automaton.Closure
import Transducer.Automaton.Relabel
import Transducer.Path.Chain
import Transducer.Proofs.Automaton.Trim
import Transducer.Proofs.Weight.Laws

/-!
# Standards of automata

A standard says which weights and which labels may stand in an automaton. An automaton meets it if nothing else
stands there and if its start and the targets of its arcs exist. To be well-formed is to meet a standard, and so is
most of what `verify` checks.

An automaton whose states are changed meets a standard if each of the new states does. What algorithms put into
an automaton is allowed by every standard that is `Closed`: epsilon, the weights of free steps, and sums and
products of weights that are there.
-/

namespace Transducer

variable {W : Type}

/-- Which weights may stand on arcs, which at final states, and which labels on either side of arcs. -/
structure Standard (W : Type) where
  weight : W → Prop
  final : W → Prop
  label : Side → Label → Prop

/-- The target exists, and the weight and the labels may stand there. -/
structure Arc.Meets (std : Standard W) (size : Nat) (arc : Arc W) : Prop where
  target_lt : arc.target < size
  weight : std.weight arc.weight
  label : ∀ side, std.label side (arc.label side)

/-- The arcs meet the standard, and the final weight may stand there. -/
structure State.Meets (std : Standard W) (size : Nat) (state : State W) : Prop where
  arcs : ∀ arc ∈ state.arcs, arc.Meets std size
  final : ∀ weight ∈ state.final, std.final weight

/-- The start exists, and the states meet the standard. -/
structure Automaton.Meets (std : Standard W) (a : Automaton W) : Prop where
  start_lt : ∀ {s : Nat}, a.start = some s → s < a.size
  states : ∀ state ∈ a.states, state.Meets std a.size

/-- What algorithms put into an automaton that meets the standard may stand there. -/
structure Standard.Closed [Weight W] (std : Standard W) : Prop where
  label_epsilon : ∀ side, std.label side epsilon
  weight_zero : std.weight 0
  weight_one : std.weight 1
  weight_add : ∀ {v w : W}, std.weight v → std.weight w → std.weight (v + w)
  weight_mul : ∀ {v w : W}, std.weight v → std.weight w → std.weight (v * w)
  weight_of_final : ∀ {w : W}, std.final w → std.weight w
  final_of_weight : ∀ {w : W}, std.weight w → isZero w = false → std.final w
  final_one : std.final 1

/-- The standard with other labels. -/
def Standard.relabel (std : Standard W) (label : Side → Label → Prop) : Standard W := { std with label }

/-- The standard of well-formed automata: final weights are those of some path. -/
def Standard.proper [Weight W] : Standard W where
  weight _ := True
  final weight := isZero weight = false
  label _ _ := True

theorem Standard.closed_proper [Weight W] [ProperOne W] : (Standard.proper : Standard W).Closed where
  label_epsilon _ := trivial
  weight_zero := trivial
  weight_one := trivial
  weight_add _ _ := trivial
  weight_mul _ _ := trivial
  weight_of_final _ := trivial
  final_of_weight _ h := h
  final_one := ProperOne.isZero_one

/-! ### Arcs and states -/

section

variable {std : Standard W} {n m : Nat} {arc : Arc W} {state : State W}

/-- What has no part in the standard of an arc but its target is the number of states. -/
theorem Arc.Meets.retarget (h : arc.Meets std n) {t : Nat} (ht : t < m) :
    Arc.Meets std m { arc with target := t } :=
  ⟨ht, h.weight, h.label⟩

theorem Arc.Meets.mono (h : arc.Meets std n) (hle : n ≤ m) : arc.Meets std m :=
  h.retarget (h.target_lt.trans_le hle)

theorem Standard.Closed.epsilonArc [Weight W] (h : std.Closed) {weight : W} (hweight : std.weight weight)
    {t : Nat} (ht : t < n) : Arc.Meets std n ⟨epsilon, epsilon, weight, t⟩ := by
  refine ⟨ht, hweight, fun side => ?_⟩
  cases side with
  | input => exact h.label_epsilon .input
  | output => exact h.label_epsilon .output

namespace State.Meets

theorem mono (h : state.Meets std n) (hle : n ≤ m) : state.Meets std m :=
  ⟨fun arc harc => (h.arcs arc harc).mono hle, h.final⟩

/-- A state without arcs that is not final meets every standard. -/
theorem default (std : Standard W) (n : Nat) : State.Meets std n ({} : State W) :=
  ⟨fun arc harc => by simp at harc, nofun⟩

theorem push (h : state.Meets std n) (harc : arc.Meets std n) : (state.push arc).Meets std n := by
  refine ⟨fun other hother => ?_, h.final⟩
  rcases Array.mem_push.1 hother with hother | rfl
  · exact h.arcs other hother
  · exact harc

theorem withFinal [Weight W] (h : state.Meets std n) {weight : W}
    (hweight : isZero weight = false → std.final weight) : (state.withFinal weight).Meets std n := by
  refine ⟨h.arcs, fun w hw => ?_⟩
  change (if isZero weight then none else some weight) = some w at hw
  split at hw
  · cases hw
  · next hzero =>
    obtain rfl := Option.some.inj hw
    exact hweight (by simpa using hzero)

theorem setArcs (h : state.Meets std m) {arcs : Array (Arc W)} (harcs : ∀ arc ∈ arcs, arc.Meets std n) :
    State.Meets std n { state with arcs } :=
  ⟨harcs, h.final⟩

end State.Meets

end

namespace Automaton

variable {std std' : Standard W} {a b : Automaton W} {s : Nat}

theorem meets_iff : a.Meets std ↔ (∀ {s : Nat}, a.start = some s → s < a.size) ∧
    (∀ {s : Nat}, ∀ arc ∈ a.arcsAt s, arc.Meets std a.size) ∧
      ∀ {s : Nat} {weight : W}, a.final? s = some weight → std.final weight := by
  rw [forall_mem_arcsAt_iff, forall_final?_iff]
  constructor
  · intro h
    exact ⟨h.start_lt, fun state hstate => (h.states state hstate).arcs,
      fun state hstate => (h.states state hstate).final⟩
  · rintro ⟨hstart, harcs, hfinal⟩
    exact ⟨hstart, fun state hstate => ⟨harcs state hstate, hfinal state hstate⟩⟩

theorem meets_proper_iff [Weight W] : a.Meets .proper ↔ a.WellFormed := by
  rw [meets_iff]
  constructor
  · rintro ⟨hstart, harcs, hfinal⟩
    exact ⟨hstart, fun {s arc} harc => (harcs arc harc).target_lt, hfinal⟩
  · intro h
    exact ⟨h.start_lt, fun {s} arc harc => ⟨h.target_lt harc, trivial, fun _ => trivial⟩, h.isZero_final⟩

namespace Meets

theorem arc (h : a.Meets std) {arc : Arc W} (harc : arc ∈ a.arcsAt s) : arc.Meets std a.size :=
  (meets_iff.1 h).2.1 arc harc

theorem final (h : a.Meets std) {weight : W} (hweight : a.final? s = some weight) : std.final weight :=
  (meets_iff.1 h).2.2 hweight

/-- An automaton without states meets every standard. -/
theorem of_states_eq_empty (hstates : a.states = #[]) (hstart : a.start = none) : a.Meets std := by
  refine ⟨fun hs => ?_, fun state hstate => ?_⟩
  · rw [hstart] at hs
    cases hs
  · rw [hstates] at hstate
    simp at hstate

/-- Neither tables nor what is cached have a part in the standard. -/
theorem congr (h : a.Meets std) (hstates : b.states = a.states) (hstart : b.start = a.start) :
    b.Meets std := by
  have hsize : b.size = a.size := congrArg Array.size hstates
  refine ⟨fun hs => ?_, fun state hstate => ?_⟩
  · rw [hsize]
    exact h.start_lt (hstart ▸ hs)
  · rw [hsize]
    exact h.states state (hstates ▸ hstate)

theorem withSymbols (h : a.Meets std) (side : Side) (table : Option SymbolTable) :
    (a.withSymbols side table).Meets std :=
  h.congr (by cases side <;> rfl) (by cases side <;> rfl)

/-! ### Changes of states -/

theorem mapStates (h : a.Meets std) {f : State W → State W}
    (hf : ∀ state, state.Meets std a.size → (f state).Meets std' a.size) : (a.mapStates f).Meets std' := by
  unfold Automaton.mapStates
  split
  · next hempty =>
    rw [Array.isEmpty_iff] at hempty
    refine ⟨h.start_lt, fun state hstate => ?_⟩
    rw [hempty] at hstate
    simp at hstate
  · refine ⟨fun hs => ?_, fun state hstate => ?_⟩
    · simpa [size] using h.start_lt hs
    · obtain ⟨old, hold, rfl⟩ := Array.mem_map.1 hstate
      simpa [size] using hf old (h.states old hold)

theorem changeState (h : a.Meets std) {f : State W → State W}
    (hf : ∀ state, a.states[s]? = some state → (f state).Meets std a.size) :
    (a.changeState s f).Meets std := by
  refine ⟨fun hs => ?_, fun state hstate => ?_⟩
  · rw [size_changeState]
    exact h.start_lt hs
  · rw [size_changeState]
    obtain ⟨i, hi⟩ := Array.getElem?_of_mem hstate
    rw [Automaton.changeState, Array.getElem?_modify] at hi
    split at hi
    · next heq =>
      subst heq
      obtain ⟨old, hold, rfl⟩ := Option.map_eq_some_iff.1 hi
      exact hf old hold
    · exact h.states state (Array.mem_of_getElem? hi)

theorem pushState (h : a.Meets std) {state : State W} (hstate : state.Meets std (a.size + 1)) :
    (a.pushState state).Meets std := by
  refine ⟨fun hs => ?_, fun other hother => ?_⟩
  · rw [size_pushState]
    exact (h.start_lt hs).trans (Nat.lt_succ_self _)
  · rw [size_pushState]
    rcases Array.mem_push.1 hother with hother | rfl
    · exact (h.states other hother).mono (Nat.le_succ _)
    · exact hstate

theorem withStart (h : a.Meets std) (hs : s < a.size) : Meets std { a with start := some s } := by
  refine ⟨fun ht => ?_, h.states⟩
  obtain rfl := Option.some.inj ht
  exact hs

theorem withFinal [Weight W] (h : a.Meets std) {weight : W} (hweight : isZero weight = false → std.final weight) :
    (a.changeState s (·.withFinal weight)).Meets std :=
  h.changeState fun _ hold => (h.states _ (Array.mem_of_getElem? hold)).withFinal hweight

/-! ### Trimming -/

theorem keep (h : a.Meets std) (kept : Nat → Bool) : (a.keep kept).Meets std := by
  have hrank : ∀ {s : Nat}, s < a.size → kept s = true → rank kept s < (a.keep kept).size := fun hlt hs =>
    (Array.getElem?_eq_some_iff.1 (getElem?_keep (Array.getElem?_eq_getElem hlt) hs)).1
  refine ⟨fun hs => ?_, fun state hstate => ?_⟩
  · obtain ⟨old, hold, rfl⟩ := Option.map_eq_some_iff.1 hs
    obtain ⟨hstart, hkept⟩ := Option.filter_eq_some_iff.1 hold
    exact hrank (h.start_lt hstart) hkept
  · obtain ⟨i, hi⟩ := Array.getElem?_of_mem hstate
    obtain ⟨s, old, hold, -, -, rfl⟩ := exists_of_getElem?_keep hi
    have hmeets := h.states old (Array.mem_of_getElem? hold)
    refine hmeets.setArcs fun new hnew => ?_
    obtain ⟨arc, harc, rfl⟩ := Array.mem_map.1 hnew
    obtain ⟨hmem, htarget⟩ := Array.mem_filter.1 harc
    obtain ⟨hlt, hkept⟩ := Bool.and_eq_true_iff.1 htarget
    exact (hmeets.arcs arc hmem).retarget (hrank (of_decide_eq_true hlt) hkept)

theorem trim (h : a.Meets std) : a.trim.Meets std := by
  unfold Automaton.trim
  dsimp only
  split
  · exact h
  · exact h.keep _

/-! ### Labels and the order of arcs -/

theorem sortArcs (h : a.Meets std) (side : Side) : (a.sortArcs side).Meets std := by
  refine h.mapStates fun state hstate => hstate.setArcs fun arc harc => hstate.arcs arc ?_
  rw [List.mem_toArray, List.mem_mergeSort] at harc
  exact Array.mem_toList_iff.1 harc

/-- After a projection each side has what may stand on the side of the labels that stay. -/
theorem project (h : a.Meets std) (side : Side) :
    (a.project side).Meets (std.relabel fun _ => std.label side) := by
  apply Meets.withSymbols
  refine h.mapStates fun state hstate => ⟨fun new hnew => ?_, hstate.final⟩
  obtain ⟨arc, harc, rfl⟩ := Array.mem_map.1 hnew
  have hmeets := hstate.arcs arc harc
  refine ⟨?_, ?_, fun other => ?_⟩
  · rw [Arc.target_withLabel]
    exact hmeets.target_lt
  · rw [Arc.weight_withLabel]
    exact hmeets.weight
  · have hlabel : (arc.withLabel side.other (arc.label side)).label other = arc.label side := by
      cases side <;> cases other <;> rfl
    rw [hlabel]
    exact hmeets.label side

theorem ensureStart (h : a.Meets std) : a.ensureStart.2.Meets std ∧ a.ensureStart.1 < a.ensureStart.2.size := by
  unfold Automaton.ensureStart
  split
  · next s hs => exact ⟨h, h.start_lt hs⟩
  · have hlt : a.size < (a.pushState {}).size := by
      rw [size_pushState]
      exact Nat.lt_succ_self _
    exact ⟨(h.pushState (.default std _)).withStart hlt, hlt⟩

/-! ### Repetition -/

variable [Weight W]

theorem loopBack (h : a.Meets std) (hstd : std.Closed) (hs : s < a.size) : (a.loopBack s).Meets std := by
  unfold Automaton.loopBack
  split
  · exact h
  · refine h.mapStates fun state hstate => ?_
    split
    · next weight hweight =>
      exact hstate.push (hstd.epsilonArc (hstd.weight_of_final (hstate.final weight hweight)) hs)
    · exact hstate

theorem closure (h : a.Meets std) (hstd : std.Closed) (repetition : Repetition) :
    (a.closure repetition).Meets std := by
  have hfinal : State.Meets std (a.size + 1) ({ final := some 1 } : State W) :=
    ⟨fun arc harc => by simp at harc, fun weight hweight => Option.some.inj hweight ▸ hstd.final_one⟩
  have hsize : ∀ {s : Nat}, (a.loopBack s).size = a.size := by
    intro s
    unfold Automaton.loopBack
    split
    · rfl
    · exact size_mapStates _ a
  unfold Automaton.closure
  split
  · exact h
  · refine (h.pushState hfinal).withStart ?_
    rw [size_pushState]
    exact Nat.lt_succ_self _
  · next hs => exact h.loopBack hstd (h.start_lt hs)
  · next s hs =>
    have hlt := h.start_lt hs
    have hlooped := h.loopBack hstd hlt
    refine (hlooped.pushState (hfinal.setArcs fun arc harc => ?_)).withStart ?_
    · obtain rfl : arc = ⟨epsilon, epsilon, 1, s⟩ := by simpa using harc
      exact hstd.epsilonArc hstd.weight_one (by rw [hsize]; omega)
    · rw [size_pushState, hsize]
      exact Nat.lt_succ_self _

/-! ### Chains of arcs -/

omit [Weight W] in
/-- A chain of arcs adds states only, so the states that were there keep their numbers. -/
theorem addChain (h : a.Meets std) (hs : s < a.size) {steps : List (Label × Label × W)}
    (hsteps : ∀ x ∈ steps, std.label .input x.1 ∧ std.label .output x.2.1 ∧ std.weight x.2.2) :
    (a.addChain s steps).2.Meets std ∧ a.size ≤ (a.addChain s steps).2.size ∧
      (a.addChain s steps).1 < (a.addChain s steps).2.size := by
  induction steps generalizing a s with
  | nil => exact ⟨h, Nat.le_refl _, hs⟩
  | cons x steps ih =>
    obtain ⟨ilabel, olabel, weight⟩ := x
    obtain ⟨hi, ho, hweight⟩ := hsteps _ List.mem_cons_self
    have hpushed := h.pushState (.default std _)
    have hchanged : ((a.pushState {}).changeState s (·.push ⟨ilabel, olabel, weight, a.size⟩)).Meets std := by
      refine hpushed.changeState fun old hold => (hpushed.states old (Array.mem_of_getElem? hold)).push ?_
      refine ⟨by rw [size_pushState]; exact Nat.lt_succ_self _, hweight, fun side => ?_⟩
      cases side with
      | input => exact hi
      | output => exact ho
    obtain ⟨hmeets, hle, hlt⟩ := ih hchanged (s := a.size) (by simp) fun x hx =>
      hsteps x (List.mem_cons_of_mem _ hx)
    rw [size_changeState, size_pushState] at hle
    exact ⟨hmeets, (Nat.le_succ _).trans hle, hlt⟩

theorem addPath (h : a.Meets std) (hstd : std.Closed) {ilabels olabels : List Label} {weight : W}
    (hlabels : ∀ x ∈ zipLabels ilabels olabels, std.label .input x.1 ∧ std.label .output x.2)
    (hweight : std.weight weight) : (a.addPath ilabels olabels weight).2.Meets std := by
  obtain ⟨hmeets, hlt⟩ := h.ensureStart
  unfold Automaton.addPath
  dsimp only
  split
  · refine hmeets.withFinal fun hzero => hstd.final_of_weight ?_ hzero
    split
    · next old hold => exact hstd.weight_add (hstd.weight_of_final (hmeets.final hold)) hweight
    · exact hweight
  · refine (hmeets.addChain hlt fun x hx => ?_).1.withFinal (hstd.final_of_weight hweight)
    obtain ⟨pair, hpair, rfl⟩ := List.mem_map.1 hx
    obtain ⟨hi, ho⟩ := hlabels pair hpair
    exact ⟨hi, ho, hstd.weight_one⟩

end Meets

end Automaton

end Transducer
