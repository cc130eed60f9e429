import Mathlib
import Transducer.Automaton.Basic
import Transducer.Proofs.Weight.Laws

/-!
# Accepting paths

The paths of an automaton, independently of any algorithm. A path is given by the positions at which it
leaves each state, so that two arcs that are alike but stand at different positions make two paths.
What a path reads, what it writes, what it carries and what it weighs are functions of its arcs.

`WellFormed` is what every automaton satisfies that is built by edits: its start and the targets of its
arcs exist, and no state is final with the weight of no path.
-/

namespace Transducer

variable {W : Type}

/-- What a sequence of arcs reads, or writes: the labels on one side, epsilon left out. -/
def spell (side : Side) (arcs : List (Arc W)) : List Label :=
  (arcs.map (·.label side)).filter (· != epsilon)

/-- The weight of a sequence of arcs before a final state. -/
def weigh [Weight W] (arcs : List (Arc W)) (final : W) : W :=
  arcs.foldr (fun arc weight => arc.weight * weight) final

@[simp] theorem spell_nil (side : Side) : spell side ([] : List (Arc W)) = [] := rfl

theorem spell_cons_of_eq (side : Side) {arc : Arc W} (h : arc.label side = epsilon)
    (arcs : List (Arc W)) : spell side (arc :: arcs) = spell side arcs := by
  simp [spell, h]

theorem spell_cons_of_ne (side : Side) {arc : Arc W} (h : arc.label side ≠ epsilon)
    (arcs : List (Arc W)) : spell side (arc :: arcs) = arc.label side :: spell side arcs := by
  simp [spell, h]

theorem spell_append (side : Side) (arcs others : List (Arc W)) :
    spell side (arcs ++ others) = spell side arcs ++ spell side others := by
  simp [spell]

@[simp] theorem weigh_nil [Weight W] (final : W) : weigh [] final = final := rfl

@[simp] theorem weigh_cons [Weight W] (arc : Arc W) (arcs : List (Arc W)) (final : W) :
    weigh (arc :: arcs) final = arc.weight * weigh arcs final := rfl

theorem weigh_append [Weight W] (arcs others : List (Arc W)) (final : W) :
    weigh (arcs ++ others) final = weigh arcs (weigh others final) := by
  simp [weigh]

/-- A weight that follows a sequence of arcs may follow the final weight as well. -/
theorem weigh_mul [Weight W] [LawfulMul W] (arcs : List (Arc W)) (final weight : W) :
    weigh arcs final * weight = weigh arcs (final * weight) := by
  induction arcs with
  | nil => rfl
  | cons arc arcs ih => rw [weigh_cons, weigh_cons, LawfulMul.mul_assoc, ih]

/-- The label pairs of a sequence of arcs, epsilon arcs left out. -/
def carried (arcs : List (Arc W)) : List (Label × Label) :=
  (arcs.filter fun arc => !arc.isEpsilon).map fun arc => (arc.ilabel, arc.olabel)

@[simp] theorem carried_nil : carried ([] : List (Arc W)) = [] := rfl

theorem carried_cons_of_epsilon {arc : Arc W} (h : arc.isEpsilon = true) (arcs : List (Arc W)) :
    carried (arc :: arcs) = carried arcs := by
  simp [carried, h]

theorem carried_cons_of_not_epsilon {arc : Arc W} (h : arc.isEpsilon = false) (arcs : List (Arc W)) :
    carried (arc :: arcs) = (arc.ilabel, arc.olabel) :: carried arcs := by
  simp [carried, h]

theorem carried_append (arcs others : List (Arc W)) :
    carried (arcs ++ others) = carried arcs ++ carried others := by
  simp [carried]

theorem carried_eq_nil {arcs : List (Arc W)} (h : ∀ arc ∈ arcs, arc.isEpsilon = true) : carried arcs = [] := by
  have hnil : (arcs.filter fun arc => !arc.isEpsilon) = [] := by
    refine List.filter_eq_nil_iff.2 ?_
    intro arc harc
    simp [h arc harc]
  rw [carried, hnil, List.map_nil]

theorem length_carried {arcs : List (Arc W)} (h : ∀ arc ∈ arcs, arc.isEpsilon = false) :
    (carried arcs).length = arcs.length := by
  have hself : (arcs.filter fun arc => !arc.isEpsilon) = arcs := by
    refine List.filter_eq_self.2 ?_
    intro arc harc
    simp [h arc harc]
  rw [carried, hself, List.length_map]

/-- An arc without its target: its labels and its weight. -/
def Arc.content (arc : Arc W) : Label × Label × W := (arc.ilabel, arc.olabel, arc.weight)

/-- Arcs with the same labels and weights spell the same. -/
theorem spell_congr {side : Side} {arcs others : List (Arc W)}
    (h : arcs.map Arc.content = others.map Arc.content) : spell side arcs = spell side others := by
  have hlabels : arcs.map (·.label side) = others.map (·.label side) := by
    cases side with
    | input =>
      have h := congrArg (List.map (·.1)) h
      rwa [List.map_map, List.map_map] at h
    | output =>
      have h := congrArg (List.map (·.2.1)) h
      rwa [List.map_map, List.map_map] at h
  rw [spell, spell, hlabels]

/-- Arcs with the same labels and weights carry the same. -/
theorem carried_congr {arcs others : List (Arc W)} (h : arcs.map Arc.content = others.map Arc.content) :
    carried arcs = carried others := by
  have key : ∀ arcs : List (Arc W), carried arcs = ((arcs.map Arc.content).filter
      fun c => !(c.1 == epsilon && c.2.1 == epsilon)).map fun c => (c.1, c.2.1) := by
    intro arcs
    rw [carried, List.filter_map, List.map_map]
    rfl
  rw [key, key, h]

/-- Arcs with the same labels and weights weigh the same. -/
theorem weigh_congr [Weight W] {arcs others : List (Arc W)}
    (h : arcs.map Arc.content = others.map Arc.content) (final : W) :
    weigh arcs final = weigh others final := by
  have key : ∀ arcs : List (Arc W), weigh arcs final =
      (arcs.map Arc.content).foldr (fun c weight => c.2.2 * weight) final := by
    intro arcs
    rw [weigh, List.foldr_map]
    rfl
  rw [key, key, h]

namespace Automaton

/-- Start and targets exist, and final weights are weights of some path. -/
structure WellFormed [Weight W] (a : Automaton W) : Prop where
  start_lt : ∀ {s : Nat}, a.start = some s → s < a.size
  target_lt : ∀ {s : Nat} {arc : Arc W}, arc ∈ a.arcsAt s → arc.target < a.size
  isZero_final : ∀ {s : Nat} {weight : W}, a.final? s = some weight → isZero weight = false

theorem final?_eq_none {a : Automaton W} {s : Nat} (h : a.size ≤ s) : a.final? s = none := by
  simp [final?, Array.getElem?_eq_none h]

theorem arcsAt_eq_empty {a : Automaton W} {s : Nat} (h : a.size ≤ s) : a.arcsAt s = #[] := by
  simp [arcsAt, Array.getElem?_eq_none h]

theorem lt_size_of_mem {a : Automaton W} {s : Nat} {arc : Arc W} (h : arc ∈ a.arcsAt s) :
    s < a.size := by
  by_contra hs
  rw [arcsAt_eq_empty (Nat.le_of_not_lt hs)] at h
  simp at h

theorem lt_size_of_final? {a : Automaton W} {s : Nat} {weight : W} (h : a.final? s = some weight) :
    s < a.size := by
  by_contra hs
  rw [final?_eq_none (Nat.le_of_not_lt hs)] at h
  cases h

/-- States that are all different are not more than there are. -/
theorem length_le_size {a : Automaton W} {states : List Nat} (hnodup : states.Nodup)
    (h : ∀ s ∈ states, s < a.size) : states.length ≤ a.size := by
  have hsub : states ⊆ List.range a.size := fun s hs => List.mem_range.2 (h s hs)
  simpa using (hnodup.subperm hsub).length_le

/-- What holds of the arcs of every state holds of those of all states that exist. -/
theorem forall_arcsAt_iff {a : Automaton W} {P : Array (Arc W) → Prop} (h : P #[]) :
    (∀ s, P (a.arcsAt s)) ↔ ∀ state ∈ a.states, P state.arcs := by
  constructor
  · intro hP state hstate
    obtain ⟨s, hs⟩ := Array.getElem?_of_mem hstate
    have harcs := hP s
    rwa [arcsAt, hs] at harcs
  · intro hP s
    rw [arcsAt]
    split
    · next state hs => exact hP state (Array.mem_of_getElem? hs)
    · exact h

theorem forall_mem_arcsAt_iff {a : Automaton W} {P : Arc W → Prop} :
    (∀ {s : Nat}, ∀ arc ∈ a.arcsAt s, P arc) ↔ ∀ state ∈ a.states, ∀ arc ∈ state.arcs, P arc :=
  forall_arcsAt_iff (P := fun arcs => ∀ arc ∈ arcs, P arc) (by simp)

theorem forall_final?_iff {a : Automaton W} {P : W → Prop} :
    (∀ {s : Nat} {weight : W}, a.final? s = some weight → P weight) ↔
      ∀ state ∈ a.states, ∀ weight ∈ state.final, P weight := by
  constructor
  · intro h state hstate weight hweight
    obtain ⟨s, hs⟩ := Array.getElem?_of_mem hstate
    exact h (by rw [final?, hs]; exact hweight : a.final? s = some weight)
  · intro h s weight hweight
    obtain ⟨state, hs, hstate⟩ := Option.bind_eq_some_iff.1 hweight
    exact h state (Array.mem_of_getElem? hs) weight hstate

theorem wellFormed_iff [Weight W] {a : Automaton W} :
    a.WellFormed ↔ (∀ s ∈ a.start, s < a.size) ∧
      (∀ state ∈ a.states, ∀ arc ∈ state.arcs, arc.target < a.size) ∧
      ∀ state ∈ a.states, ∀ weight ∈ state.final, isZero weight = false := by
  rw [← forall_mem_arcsAt_iff (P := fun arc => arc.target < a.size),
    ← forall_final?_iff (P := fun weight => isZero weight = false)]
  constructor
  · intro h
    exact ⟨fun s => h.start_lt, fun {s} arc => h.target_lt, h.isZero_final⟩
  · rintro ⟨hstart, htarget, hfinal⟩
    exact ⟨fun {s} => hstart s, fun {s arc} => htarget arc, hfinal⟩

instance [Weight W] (a : Automaton W) : Decidable a.WellFormed := decidable_of_iff _ wellFormed_iff.symm

/-- Start and targets exist. This is so for every automaton that is built by edits. -/
structure Confined (a : Automaton W) : Prop where
  start_lt : ∀ {s : Nat}, a.start = some s → s < a.size
  target_lt : ∀ {s : Nat} {arc : Arc W}, arc ∈ a.arcsAt s → arc.target < a.size

theorem WellFormed.confined [Weight W] {a : Automaton W} (h : a.WellFormed) : a.Confined :=
  ⟨h.start_lt, h.target_lt⟩

theorem confined_iff {a : Automaton W} :
    a.Confined ↔ (∀ s ∈ a.start, s < a.size) ∧
      ∀ state ∈ a.states, ∀ arc ∈ state.arcs, arc.target < a.size := by
  rw [← forall_mem_arcsAt_iff (P := fun arc => arc.target < a.size)]
  constructor
  · intro h
    exact ⟨fun s => h.start_lt, fun {s} arc => h.target_lt⟩
  · rintro ⟨hstart, htarget⟩
    exact ⟨fun {s} => hstart s, fun {s arc} => htarget arc⟩

instance (a : Automaton W) : Decidable a.Confined := decidable_of_iff _ confined_iff.symm

/-! ### Ways -/

/-- From `s` the arcs at the positions `places` lead to `t`; they are `arcs`. -/
inductive Way (a : Automaton W) : Nat → List Nat → List (Arc W) → Nat → Prop where
  /-- Staying. -/
  | nil (s : Nat) : Way a s [] [] s
  /-- One arc, and a way on from its target. -/
  | cons {s i t : Nat} {arc : Arc W} {places : List Nat} {arcs : List (Arc W)} :
      (a.arcsAt s)[i]? = some arc → Way a arc.target places arcs t →
        Way a s (i :: places) (arc :: arcs) t

namespace Way

variable {a : Automaton W} {s t u : Nat} {places others : List Nat} {arcs arcs' : List (Arc W)}

theorem append (h : Way a s places arcs t) (h' : Way a t others arcs' u) :
    Way a s (places ++ others) (arcs ++ arcs') u := by
  induction h with
  | nil s => exact h'
  | cons hi _ ih => exact .cons hi (ih h')

theorem single {i : Nat} {arc : Arc W} (h : (a.arcsAt s)[i]? = some arc) :
    Way a s [i] [arc] arc.target :=
  .cons h (.nil _)

/-- The positions determine the way. -/
theorem unique (h : Way a s places arcs t) (h' : Way a s places arcs' u) : arcs = arcs' ∧ t = u := by
  induction h generalizing arcs' u with
  | nil s => cases h'; exact ⟨rfl, rfl⟩
  | cons hi _ ih =>
    cases h' with
    | cons hi' h' =>
      obtain rfl := Option.some.inj (hi.symm.trans hi')
      obtain ⟨rfl, rfl⟩ := ih h'
      exact ⟨rfl, rfl⟩

/-- A way is empty, or it has a last arc. -/
theorem eq_nil_or_concat (h : Way a s places arcs t) :
    (places = [] ∧ arcs = [] ∧ s = t) ∨ ∃ places' arcs' u, Way a s places' arcs' u ∧ ∃ i arc,
      (a.arcsAt u)[i]? = some arc ∧ places = places' ++ [i] ∧ arcs = arcs' ++ [arc] ∧ arc.target = t := by
  induction h with
  | nil s => exact .inl ⟨rfl, rfl, rfl⟩
  | @cons s i _ arc _ _ hi _ ih =>
    rcases ih with ⟨rfl, rfl, rfl⟩ | ⟨places', arcs', u, hway, j, last, hj, rfl, rfl, rfl⟩
    · exact .inr ⟨[], [], s, .nil s, i, arc, hi, rfl, rfl, rfl⟩
    · exact .inr ⟨i :: places', arc :: arcs', u, .cons hi hway, j, last, hj, rfl, rfl, rfl⟩

theorem length_eq (h : Way a s places arcs t) : places.length = arcs.length := by
  induction h with
  | nil s => rfl
  | cons _ _ ih => simp [ih]

/-- What holds of the beginning of a way and of the targets of its arcs holds of its end. -/
theorem last_of_forall {P : Nat → Prop} (h : Way a s places arcs t) (hs : P s)
    (harcs : ∀ arc ∈ arcs, P arc.target) : P t := by
  induction h with
  | nil s => exact hs
  | cons _ _ ih =>
    exact ih (harcs _ List.mem_cons_self) fun arc h => harcs arc (List.mem_cons_of_mem _ h)

theorem exists_mem_arcsAt {arc : Arc W} (h : Way a s places arcs t) (harc : arc ∈ arcs) :
    ∃ u, arc ∈ a.arcsAt u := by
  induction h with
  | nil s => cases harc
  | cons hi _ ih =>
    rcases List.mem_cons.1 harc with rfl | harc
    · exact ⟨_, Array.mem_of_getElem? hi⟩
    · exact ih harc

/-- An arc of a way divides it. -/
theorem split_at {arc : Arc W} (h : Way a s places arcs t) (harc : arc ∈ arcs) :
    ∃ before after : List Nat × List (Arc W),
      Way a s before.1 before.2 arc.target ∧ Way a arc.target after.1 after.2 t := by
  induction h with
  | nil s => cases harc
  | cons hi h ih =>
    rcases List.mem_cons.1 harc with rfl | harc
    · exact ⟨⟨_, _⟩, ⟨_, _⟩, .single hi, h⟩
    · obtain ⟨before, after, hb, ha⟩ := ih harc
      exact ⟨⟨_, _⟩, after, .cons hi hb, ha⟩

/-- An automaton that has the arcs of another one at the same positions has its ways. -/
theorem mono {b : Automaton W} (h : Way a s places arcs t)
    (harcs : ∀ {u i : Nat} {arc : Arc W}, (a.arcsAt u)[i]? = some arc → (b.arcsAt u)[i]? = some arc) :
    Way b s places arcs t := by
  induction h with
  | nil s => exact .nil s
  | cons hi _ ih => exact .cons (harcs hi) ih

/-- The states alone determine the ways. -/
theorem of_states_eq {b : Automaton W} (h : Way a s places arcs t) (hb : b.states = a.states) :
    Way b s places arcs t :=
  h.mono fun hi => by rw [arcsAt, hb]; exact hi

/-- A way to a state that exists comes from one. -/
theorem lt_size_of_last (h : Way a s places arcs t) (ht : t < a.size) : s < a.size := by
  cases h with
  | nil => exact ht
  | cons hi => exact lt_size_of_mem (Array.mem_of_getElem? hi)

/-- A way stays within the automaton. -/
theorem lt_size [Weight W] (wf : a.WellFormed) (h : Way a s places arcs t) (hs : s < a.size) :
    t < a.size := by
  induction h with
  | nil s => exact hs
  | cons hi _ ih => exact ih (wf.target_lt (Array.mem_of_getElem? hi))

end Way

/-! ### Accepting paths -/

/-- A way from the start to a final state. -/
structure AcceptingPath (a : Automaton W) where
  /-- The start. -/
  first : Nat
  /-- The positions at which the path leaves the states on it. -/
  places : List Nat
  /-- The arcs at these positions. -/
  arcs : List (Arc W)
  /-- The final state. -/
  last : Nat
  /-- The weight of the final state. -/
  final : W
  start_eq : a.start = some first
  way : a.Way first places arcs last
  final_eq : a.final? last = some final

namespace AcceptingPath

variable {a : Automaton W}

/-- What the path reads, or writes. -/
def labels (p : AcceptingPath a) (side : Side) : List Label := spell side p.arcs

/-- The product of the weights of the arcs and of the final weight, in their order. -/
def weight [Weight W] (p : AcceptingPath a) : W := weigh p.arcs p.final

/-- The path without its states: the labels and weights of its arcs, and the final weight. -/
def content (p : AcceptingPath a) : List (Label × Label × W) × W := (p.arcs.map Arc.content, p.final)

theorem first_eq (p : AcceptingPath a) {s : Nat} (hs : a.start = some s) : p.first = s :=
  Option.some.inj (p.start_eq.symm.trans hs)

theorem labels_congr {b : Automaton W} {p : AcceptingPath a} {q : AcceptingPath b}
    (h : p.content = q.content) (side : Side) : p.labels side = q.labels side :=
  spell_congr (Prod.mk.inj h).1

theorem weight_congr [Weight W] {b : Automaton W} {p : AcceptingPath a} {q : AcceptingPath b}
    (h : p.content = q.content) : p.weight = q.weight := by
  obtain ⟨harcs, hfinal⟩ := Prod.mk.inj h
  rw [weight, weight, hfinal, weigh_congr harcs]

/-- Paths that leave all states at the same positions are the same. -/
theorem ext_places {p q : AcceptingPath a} (h : p.places = q.places) : p = q := by
  obtain ⟨s, places, arcs, t, final, hs, hw, hf⟩ := p
  obtain ⟨s', places', arcs', t', final', hs', hw', hf'⟩ := q
  obtain rfl : places = places' := h
  obtain rfl := Option.some.inj (hs.symm.trans hs')
  obtain ⟨rfl, rfl⟩ := hw.unique hw'
  obtain rfl := Option.some.inj (hf.symm.trans hf')
  rfl

/-- What is known of the properties has no part in the accepting paths. -/
def withCache (cache : PropertyCache) : AcceptingPath a ≃ AcceptingPath { a with cache } where
  toFun p := ⟨p.first, p.places, p.arcs, p.last, p.final, p.start_eq, p.way.of_states_eq rfl, p.final_eq⟩
  invFun p := ⟨p.first, p.places, p.arcs, p.last, p.final, p.start_eq, p.way.of_states_eq rfl, p.final_eq⟩
  left_inv _ := rfl
  right_inv _ := rfl

end AcceptingPath

end Automaton

/-! ### One-to-one correspondences -/

/-- A relation that relates each object on either side to exactly one on the other is a bijection. -/
theorem exists_equiv_of_related {α β : Type*} {R : α → β → Prop} (total : ∀ x, ∃ y, R x y)
    (onto : ∀ y, ∃ x, R x y) (functional : ∀ {x y z}, R x y → R x z → y = z)
    (injective : ∀ {x y z}, R x z → R y z → x = y) : ∃ e : α ≃ β, ∀ x, R x (e x) := by
  choose f hf using total
  refine ⟨Equiv.ofBijective f ⟨fun x y h => ?_, fun y => ?_⟩, hf⟩
  · exact injective (hf x) (h ▸ hf y)
  · obtain ⟨x, hx⟩ := onto y
    exact ⟨x, functional (hf x) hx⟩

end Transducer
