import Mathlib
import Transducer.Proofs.Composition.Exploration

/-!
# Compositions that imitate an automaton

If the composite states that can be met are the states of some automaton under other names, and each of them has the
final weight and the arcs of its state (`Imitates`), then the composition as a whole is a copy of the part of that
automaton that can be reached from its start (`Imitates.toAutomaton`). What is copied may be out of order, and all
weights may be changed in one way, but each arc is there once (`Copies`).

The copy has no state that cannot be reached. If some arc that can be reached leads out of the automaton there is no
copy: the composition is refused.
-/

namespace Transducer

variable {W : Type}

/-- The states to which some way leads from the start. If arcs lead out of the automaton, not all of them exist. -/
inductive Automaton.Reached (a : Automaton W) : Nat → Prop where
  /-- The start. -/
  | start {s : Nat} : a.start = some s → a.Reached s
  /-- The targets of arcs. -/
  | arc {s : Nat} {arc : Arc W} : a.Reached s → arc ∈ a.arcsAt s → a.Reached arc.target

/-- The arcs of a state with other weights and other numbers of their targets. -/
def copiedArcs (f : Nat → Nat) (scale : W → W) (a : Automaton W) (s : Nat) : List (Arc W) :=
  (a.arcsAt s).toList.map fun arc => { arc with weight := scale arc.weight, target := f arc.target }

/-- The second automaton is the part of the first one that can be reached from its start, with the numbers that `f`
gives to the states. Their arcs are in whatever order, or in the same one. A weight that is changed to zero is that of
no final state. -/
structure Copies [Weight W] (f : Nat → Nat) (scale : W → W) (inOrder : Prop) (a r : Automaton W) : Prop where
  bijOn : Set.BijOn f {s | a.Reached s} (Set.Iio r.size)
  start_eq : r.start = a.start.map f
  final?_eq : ∀ {s : Nat}, a.Reached s →
    r.final? (f s) = ((a.final? s).map scale).filter fun w => !isZero w
  arcsAt_perm : ∀ {s : Nat}, a.Reached s → (r.arcsAt (f s)).toList.Perm (copiedArcs f scale a s)
  arcsAt_eq : inOrder → ∀ {s : Nat}, a.Reached s → (r.arcsAt (f s)).toList = copiedArcs f scale a s

namespace Composition

/-- The arcs of a state as steps between composite states. -/
def copiedSteps (place : Nat → Place) (scale : W → W) (a : Automaton W) (s : Nat) : List (Step W) :=
  (a.arcsAt s).toList.map fun arc => ⟨arc.ilabel, arc.olabel, scale arc.weight, place arc.target⟩

variable [Weight W]

/-- The states of the automaton are composite states by other names, and expanded as such. -/
structure Imitates (c : Composition W) (place : Nat → Place) (scale : W → W) (inOrder : Prop) (a : Automaton W) :
    Prop where
  injective : Function.Injective place
  origin_eq : c.origin = a.start.map place
  lt_size : ∀ {s : Nat} {expansion : Expansion W}, c.Expands (place s) expansion → s < a.size
  exists_expands : ∀ {s : Nat}, s < a.size → ∃ expansion, c.Expands (place s) expansion ∧
    expansion.final = ((a.final? s).map scale).filter (fun w => !isZero w) ∧
    expansion.steps.Perm (copiedSteps place scale a s) ∧
    (inOrder → expansion.steps = copiedSteps place scale a s)

section

variable {c : Composition W} {place : Nat → Place} {scale : W → W} {inOrder : Prop} {a : Automaton W}
  (h : c.Imitates place scale inOrder a)
include h

/-! ### Composite states that are met -/

/-- A composite state of the imitation has the steps that its state has as arcs. -/
theorem Imitates.of_expands {s : Nat} {expansion : Expansion W} (hexpands : c.Expands (place s) expansion) :
    expansion.final = ((a.final? s).map scale).filter (fun w => !isZero w) ∧
      expansion.steps.Perm (copiedSteps place scale a s) ∧
      (inOrder → expansion.steps = copiedSteps place scale a s) := by
  obtain ⟨_, hexpands', hspec⟩ := h.exists_expands (h.lt_size hexpands)
  obtain rfl := hexpands.unique hexpands'
  exact hspec

theorem Imitates.met_iff {other : Place} : c.Met other ↔ ∃ s, a.Reached s ∧ other = place s := by
  constructor
  · intro hmet
    induction hmet with
    | origin hplace =>
      rw [h.origin_eq] at hplace
      obtain ⟨s, hs, rfl⟩ := Option.map_eq_some_iff.1 hplace
      exact ⟨s, .start hs, rfl⟩
    | step _ hexpands hstep ih =>
      obtain ⟨s, hs, rfl⟩ := ih
      obtain ⟨-, hperm, -⟩ := h.of_expands hexpands
      obtain ⟨arc, harc, rfl⟩ := List.mem_map.1 (hperm.mem_iff.1 hstep)
      exact ⟨arc.target, .arc hs (Array.mem_toList_iff.1 harc), rfl⟩
  · rintro ⟨s, hs, rfl⟩
    induction hs with
    | start hs => exact .origin (by rw [h.origin_eq, hs, Option.map_some])
    | @arc s arc _ harc ih =>
      obtain ⟨expansion, hexpands, -, hperm, -⟩ := h.exists_expands (Automaton.lt_size_of_mem harc)
      have hstep : ⟨arc.ilabel, arc.olabel, scale arc.weight, place arc.target⟩ ∈ expansion.steps :=
        hperm.mem_iff.2 (List.mem_map.2 ⟨arc, Array.mem_toList_iff.2 harc, rfl⟩)
      exact .step ih hexpands hstep

/-- The composition cannot be expanded throughout if some arc that can be reached leads out of the automaton. -/
theorem Imitates.stuck_iff : c.Stuck ↔ ∃ s, a.Reached s ∧ a.size ≤ s := by
  constructor
  · rintro ⟨other, hmet, hstuck⟩
    obtain ⟨s, hs, rfl⟩ := h.met_iff.1 hmet
    refine ⟨s, hs, Nat.le_of_not_lt fun hlt => ?_⟩
    obtain ⟨expansion, hexpands, -⟩ := h.exists_expands hlt
    exact hstuck expansion hexpands
  · rintro ⟨s, hs, hle⟩
    exact ⟨place s, h.met_iff.2 ⟨s, hs, rfl⟩, fun expansion hexpands => absurd (h.lt_size hexpands) hle.not_gt⟩

/-! ### The copy -/

omit h in
/-- Arcs that number some steps are these steps with the numbers of their targets. -/
theorem Presents.arcs_eq_map {r : Automaton W} {places : Array Place} (hp : Presents c r places) {index : Place → Nat}
    (hindex : ∀ other ∈ places, places[index other]? = some other) {steps : List (Step W)} {arcs : List (Arc W)}
    (harcs : List.Forall₂ (Numbers places) steps arcs) :
    arcs = steps.map fun step => ⟨step.ilabel, step.olabel, step.weight, index step.target⟩ := by
  induction harcs with
  | nil => rfl
  | @cons step arc steps arcs hn _ ih =>
    have htarget : arc.target = index step.target :=
      hp.injective hn.2 (hindex _ (Array.mem_of_getElem? hn.2))
    rw [List.map_cons, ← ih, ← htarget, ← hn.eq]

/-- What completes the imitation is a copy. -/
theorem Imitates.exists_copies {r : Automaton W} {places : Array Place} (hc : Completes c r places) :
    ∃ f, Copies f scale inOrder a r ∧ ∀ s, a.Reached s → places[f s]? = some (place s) := by
  have hp := hc.toPresents
  obtain ⟨index, hindex⟩ := exists_index places
  have hplace : ∀ {s}, a.Reached s → places[index (place s)]? = some (place s) := fun hs =>
    hindex _ (hc.mem_iff.2 (h.met_iff.2 ⟨_, hs, rfl⟩))
  -- the arcs of a state are numbered steps
  have hstate : ∀ {s}, a.Reached s → ∃ expansion, c.Expands (place s) expansion ∧
      r.final? (index (place s)) = expansion.final ∧ (r.arcsAt (index (place s))).toList =
        expansion.steps.map fun step => ⟨step.ilabel, step.olabel, step.weight, index step.target⟩ := by
    intro s hs
    obtain ⟨expansion, hexpands, hfinal, harcs⟩ := hc.expanded (hplace hs)
    exact ⟨expansion, hexpands, hfinal, hp.arcs_eq_map hindex harcs⟩
  have hcopied : ∀ s, (copiedSteps place scale a s).map
      (fun step => (⟨step.ilabel, step.olabel, step.weight, index step.target⟩ : Arc W)) =
      copiedArcs (fun s => index (place s)) scale a s := by
    intro s
    rw [copiedSteps, copiedArcs, List.map_map]
    rfl
  refine ⟨fun s => index (place s), ⟨⟨fun s hs => ?_, fun s hs t ht heq => ?_, fun id hid => ?_⟩, ?_,
    fun {s} hs => ?_, fun {s} hs => ?_, fun horder {s} hs => ?_⟩, fun s hs => hplace hs⟩
  · exact hp.lt_size (hplace hs)
  · have hsame := hplace hs
    rw [show index (place s) = index (place t) from heq, hplace ht] at hsame
    exact (h.injective (Option.some.inj hsame)).symm
  · obtain ⟨other, hid⟩ := hp.exists_place hid
    obtain ⟨s, hs, rfl⟩ := h.met_iff.1 (hc.mem_iff.1 (Array.mem_of_getElem? hid))
    exact ⟨s, hs, hp.injective (hplace hs) hid⟩
  · refine Option.ext fun id => ?_
    rw [hc.start_iff, h.origin_eq]
    simp only [Option.map_eq_some_iff]
    constructor
    · rintro ⟨_, ⟨s, hs, rfl⟩, hid⟩
      exact ⟨s, hs, hp.injective (hplace (.start hs)) hid⟩
    · rintro ⟨s, hs, rfl⟩
      exact ⟨_, ⟨s, hs, rfl⟩, hplace (.start hs)⟩
  · obtain ⟨expansion, hexpands, hfinal, -⟩ := hstate hs
    exact hfinal.trans (h.of_expands hexpands).1
  · obtain ⟨expansion, hexpands, -, harcs⟩ := hstate hs
    rw [harcs, ← hcopied]
    exact (h.of_expands hexpands).2.1.map _
  · obtain ⟨expansion, hexpands, -, harcs⟩ := hstate hs
    rw [harcs, ← hcopied, (h.of_expands hexpands).2.2 horder]

/-- An imitation is completed to a copy of what can be reached, or it is refused since some of that does not exist. -/
theorem Imitates.toAutomaton :
    ((∀ s, a.Reached s → s < a.size) ∧ ∃ r memo f, c.toAutomaton {} = .ok r memo ∧ Copies f scale inOrder a r ∧
      ∀ s, a.Reached s → memo.places[f s]? = some (place s)) ∨
    (∃ s, a.Reached s ∧ a.size ≤ s) ∧ ∃ e memo, c.toAutomaton {} = .error e memo := by
  obtain ⟨r, memo, heq, -, hc⟩ | ⟨e, memo, heq, -, hstuck⟩ := toAutomaton_spec (explored_empty c)
  · obtain ⟨f, hcopies, hplaces⟩ := h.exists_copies hc
    refine .inl ⟨fun s hs => Nat.lt_of_not_le fun hle => ?_, r, memo, f, heq, hcopies, hplaces⟩
    exact hc.not_stuck (h.stuck_iff.2 ⟨s, hs, hle⟩)
  · exact .inr ⟨h.stuck_iff.1 hstuck, e, memo, heq⟩

end

end Composition

end Transducer
