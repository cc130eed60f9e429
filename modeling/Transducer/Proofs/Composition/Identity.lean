import Mathlib
import Transducer.Proofs.Composition.Copy
import Transducer.Proofs.Composition.Driver
import Transducer.Proofs.Matching.Layers

/-!
# Composing with an identity

An identity has one state, where it reads and writes each of its labels. To compose an automaton with an identity on
either side that has all labels between them gives a copy of the part of the automaton that can be reached
(`composesToCopy_identity`).

The identity has one arc for each label (`filter_identityArcs`), so each arc of the automaton is paired once: with
that arc, or with the implicit arc if there is no label between them (`map_snd_crossings`). The step that the two make
is the arc itself with its weight multiplied by one. Since the identity can wait but never moves alone, the turn never
changes.

Where the automaton is listed its arcs stay in order. Where the identity is listed they come in the order of its
labels.
-/

namespace Transducer

open Matching

variable {W : Type} [Weight W]

/-- The arc of an identity for a label. -/
def identityArc (label : Label) : Arc W := ⟨label, label, 1, 0⟩

/-- The automaton has one state, which is the start and final, and there it reads and writes each of the labels. -/
structure Automaton.IsIdentity (labels : List Label) (i : Automaton W) : Prop where
  size_eq : i.size = 1
  start_eq : i.start = some 0
  final?_eq : i.final? 0 = some 1
  arcsAt_eq : (i.arcsAt 0).toList = labels.map identityArc
  nodup : labels.Nodup
  proper : ∀ label ∈ labels, Proper label

namespace Composition

/-! ### One state paired with an identity -/

section

variable {labels : List Label}

theorem label_identityArc (label : Label) (side : Side) : (identityArc label : Arc W).label side = label := by
  cases side <;> rfl

/-- Of the arcs of an identity one has the label, if it is there. -/
theorem filter_identityArcs (hnodup : labels.Nodup) (side : Side) (label : Label) :
    (labels.map (identityArc (W := W))).filter (fun arc => arc.label side == label) =
      if label ∈ labels then [identityArc label] else [] := by
  have hlabel : ((fun arc : Arc W => arc.label side == label) ∘ identityArc) = (· == label) := by
    funext other
    exact congrArg (· == label) (label_identityArc other side)
  rw [List.filter_map, hlabel, List.filter_beq]
  by_cases hmem : label ∈ labels
  · rw [List.count_eq_one_of_mem hnodup hmem, if_pos hmem]
    rfl
  · rw [List.count_eq_zero_of_not_mem hmem, if_neg hmem]
    rfl

/-- What an arc is paired with. -/
def partner (side : Side) (idle : Arc W) (arc : Arc W) : Arc W :=
  if arc.label side = epsilon then idle else identityArc (arc.label side)

/-- With all labels there, each arc is paired once. -/
theorem map_snd_crossings (hnodup : labels.Nodup) (hproper : ∀ label ∈ labels, Proper label) (side : Side)
    {xs : List (Arc W)} (hxs : ∀ x ∈ xs, x.label side ≠ epsilon → x.label side ∈ labels) (idle idle' : Arc W) :
    (crossings side idle idle' xs (labels.map identityArc)).map Prod.snd =
      xs.map fun x => (x, partner side idle' x) := by
  have hepsilon : epsilon ∉ labels := fun hmem => (hproper _ hmem).1 rfl
  let ys : List (Arc W) := labels.map identityArc
  have hmeet : ∀ (x : Arc W) (label : Label),
      ((ys.zipIdx.filter fun y => y.1.label side.other == label).map fun y => (x, y.1)) =
        if label ∈ labels then [(x, identityArc label)] else [] := by
    intro x label
    have h := map_filter_zipIdx ys (fun arc => arc.label side.other == label) (Prod.mk x)
    rw [h, filter_identityArcs hnodup]
    split <;> rfl
  have hidle : (ys.zipIdx.filter fun y => y.1.label side.other == epsilon).map
      (Prod.snd ∘ fun y => (((none, some y.2) : Move), idle, y.1)) = [] := by
    refine (hmeet idle epsilon).trans (if_neg hepsilon)
  rw [crossings, List.map_append, List.map_map, hidle, List.nil_append, List.map_flatMap]
  have hfst : xs.zipIdx.map Prod.fst = xs := List.zipIdx_map_fst 0 xs
  conv_rhs => rw [← hfst, List.map_map, List.map_eq_flatMap]
  refine List.flatMap_congr fun x hx => ?_
  have hmem := hxs x.1 (List.fst_mem_of_mem_zipIdx hx)
  rw [List.map_append, List.map_map]
  refine (congrArg _ (hmeet x.1 (x.1.label side))).trans ?_
  simp only [Function.comp_apply, partner]
  by_cases hsilent : x.1.label side = epsilon
  · rw [hsilent, if_pos rfl, if_pos rfl, if_neg hepsilon]
    rfl
  · rw [if_neg hsilent, if_neg hsilent, if_pos (hmem hsilent)]
    rfl

variable {a i : Automaton W} {s : Nat}

/-- The place of a state where the identity is the right operand. -/
def besideRight (s : Nat) : Place := ⟨s, 0, .either⟩

/-- The place of a state where the identity is the left operand. -/
def besideLeft (s : Nat) : Place := ⟨0, s, .either⟩

/-- Before an identity an arc makes the step that it is itself. -/
theorem step?_partner_right {silent loud : Bool} {arc : Arc W} (hne : arc.olabel ≠ noLabel) :
    step? .either silent loud (arc, partner .output ⟨noLabel, epsilon, 1, 0⟩ arc) =
      some ⟨arc.ilabel, arc.olabel, arc.weight * 1, besideRight arc.target⟩ := by
  by_cases hsilent : arc.olabel = epsilon
  · rw [hsilent] at hne
    simp [step?, Turn.pass, partner, Arc.label, hne, hsilent, besideRight]
  · simp [step?, Turn.pass, partner, Arc.label, hne, hsilent, besideRight, identityArc]

/-- After an identity an arc makes the step that it is itself. The identity can wait, as it need not move alone, and
since it cannot move alone it need not wait from then on. -/
theorem step?_partner_left {arc : Arc W} (hne : arc.ilabel ≠ noLabel) :
    step? .either false true (partner .input ⟨epsilon, noLabel, 1, 0⟩ arc, arc) =
      some ⟨arc.ilabel, arc.olabel, 1 * arc.weight, besideLeft arc.target⟩ := by
  by_cases hsilent : arc.ilabel = epsilon
  · simp [step?, Turn.pass, partner, Arc.label, hsilent, besideLeft]
  · simp [step?, Turn.pass, partner, Arc.label, hne, hsilent, besideLeft, identityArc]

variable (h : i.IsIdentity labels)
include h

/-- An identity has ordinary labels only. -/
theorem proper_of_mem_identity {arc : Arc W} (harc : arc ∈ i.arcsAt s) (side : Side) : Proper (arc.label side) := by
  have hs := Automaton.lt_size_of_mem harc
  rw [h.size_eq] at hs
  obtain rfl : s = 0 := by omega
  rw [← Array.mem_toList_iff, h.arcsAt_eq] at harc
  obtain ⟨label, hlabel, rfl⟩ := List.mem_map.1 harc
  rw [label_identityArc]
  exact h.proper label hlabel

theorem ne_noLabel_of_covers {label : Label} (hcovers : label ≠ epsilon → label ∈ labels) : label ≠ noLabel := by
  rintro rfl
  exact (h.proper _ (hcovers (by decide))).2 rfl

/-- To list the state gives its arcs in their order. -/
theorem map_snd_chart_right (hcovers : ∀ arc ∈ a.arcsAt s, arc.olabel ≠ epsilon → arc.olabel ∈ labels) :
    (chart a i .left (besideRight s)).map Prod.snd = copiedSteps besideRight (· * 1) a s := by
  have hcovers : ∀ x ∈ (a.arcsAt s).toList, x.olabel ≠ epsilon → x.olabel ∈ labels :=
    fun x hx => hcovers x (Array.mem_toList_iff.1 hx)
  have hpairs : (encounters a i .left (besideRight s)).map Prod.snd =
      (a.arcsAt s).toList.map fun x => (x, partner .output ⟨noLabel, epsilon, 1, 0⟩ x) := by
    show (crossings .output _ _ _ (i.arcsAt 0).toList).map Prod.snd = _
    rw [h.arcsAt_eq]
    exact map_snd_crossings h.nodup h.proper .output hcovers _ _
  rw [map_snd_chart, hpairs, List.filterMap_map, copiedSteps, ← List.filterMap_eq_map]
  exact List.filterMap_congr fun x hx => step?_partner_right (ne_noLabel_of_covers h (hcovers x hx))

theorem map_snd_chart_left (hcovers : ∀ arc ∈ a.arcsAt s, arc.ilabel ≠ epsilon → arc.ilabel ∈ labels) :
    (chart i a .right (besideLeft s)).map Prod.snd = copiedSteps besideLeft (1 * ·) a s := by
  have hcovers : ∀ x ∈ (a.arcsAt s).toList, x.ilabel ≠ epsilon → x.ilabel ∈ labels :=
    fun x hx => hcovers x (Array.mem_toList_iff.1 hx)
  have hpairs : (encounters i a .right (besideLeft s)).map Prod.snd =
      (a.arcsAt s).toList.map fun x => (partner .input ⟨epsilon, noLabel, 1, 0⟩ x, x) := by
    have hcrossings := map_snd_crossings h.nodup h.proper .input hcovers ⟨noLabel, epsilon, 1, s⟩
      ⟨epsilon, noLabel, 1, 0⟩
    have hswap : (Prod.snd ∘ fun x : Move × Arc W × Arc W => (x.1.swap, x.2.swap)) = Prod.swap ∘ Prod.snd := rfl
    show ((crossings .input _ _ _ (i.arcsAt 0).toList).map fun x => (x.1.swap, x.2.swap)).map Prod.snd = _
    rw [h.arcsAt_eq, List.map_map, hswap, ← List.map_map]
    exact (congrArg _ hcrossings).trans (List.map_map ..)
  have hsilent : mustMove i 0 = false := by simp [mustMove, h.final?_eq]
  have hloud : mustMeet i 0 = true := by
    rw [← Bool.not_eq_false, mustMeet_eq_false_iff]
    rintro ⟨arc, harc, hsilent⟩
    exact (proper_of_mem_identity h harc .output).1 hsilent
  rw [map_snd_chart, hpairs, List.filterMap_map, copiedSteps, ← List.filterMap_eq_map]
  show List.filterMap (step? .either (mustMove i 0) (mustMeet i 0) ∘ _) _ = _
  rw [hsilent, hloud]
  exact List.filterMap_congr fun x hx => step?_partner_left (ne_noLabel_of_covers h (hcovers x hx))

end

/-! ### Copies -/

/-- To be followed by the end of an identity multiplies a final weight by one. -/
theorem finalWeight_one_right (final : Option W) :
    finalWeight final (some 1) = (final.map (· * 1)).filter fun w => !isZero w := by
  cases final with
  | none => rfl
  | some w => cases hzero : isZero (w * 1) <;> simp [finalWeight, hzero, Option.filter]

theorem finalWeight_one_left (final : Option W) :
    finalWeight (some 1) final = (final.map (1 * ·)).filter fun w => !isZero w := by
  cases final with
  | none => rfl
  | some w => cases hzero : isZero (1 * w) <;> simp [finalWeight, hzero, Option.filter]

theorem Imitates.withCaches {c : Composition W} {place : Nat → Place} {scale : W → W} {inOrder : Prop}
    {a : Automaton W} (h : c.Imitates place scale inOrder a) (cache cache' : PropertyCache) :
    (c.withCaches cache cache').Imitates place scale inOrder a := by
  have hexpands : (c.withCaches cache cache').Expands = c.Expands := by
    funext other expansion
    rw [Expands, expand_withCaches, Expands]
  refine ⟨h.injective, h.origin_eq, ?_, ?_⟩
  · rw [hexpands]
    exact h.lt_size
  · rw [hexpands]
    exact h.exists_expands

/-- Without layers, a composition imitates an automaton if the chart of each place has the arcs of its state as steps,
whichever operand the chart lists. If the composition lists the same one, the arcs stay in order. -/
theorem Plain.imitates {c : Composition W} (hplain : Plain c) {place : Nat → Place} {scale : W → W}
    {operand : Operand} {a : Automaton W} (hinjective : Function.Injective place)
    (horigin : c.origin = a.start.map place) (hrange : ∀ s, c.InRange (place s) ↔ s < a.size)
    (hfinal : ∀ s, finalWeight (c.left.automaton.final? (place s).left) (c.right.automaton.final? (place s).right) =
      ((a.final? s).map scale).filter fun w => !isZero w)
    (hchart : ∀ s, (chart c.left.automaton c.right.automaton operand (place s)).map Prod.snd =
      copiedSteps place scale a s) : c.Imitates place scale (c.plan.operand = operand) a where
  injective := hinjective
  origin_eq := horigin
  lt_size := fun hexpands => (hrange _).1 hexpands.inRange
  exists_expands := fun {s} hs => by
    refine ⟨_, hplain.expands ((hrange s).2 hs), hfinal s, ?_, fun hoperand => ?_⟩
    · rw [← hchart]
      exact (perm_chart hplain.left_ne hplain.right_ne _ _).map Prod.snd
    · rw [← hchart, ← hoperand]

/-- Two automata are composed to a copy of the part of the given one that can be reached, and the composite states are
those at the given places; or they are refused, since some of that part does not exist. -/
def ComposesToCopy (opts : Options) (operands : Automaton W × Automaton W) (place : Nat → Place) (scale : W → W)
    (inOrder : Prop) (a : Automaton W) : Prop :=
  ((∀ s, a.Reached s → s < a.size) ∧ ∃ c r memo f operands', build opts operands = .ok c operands' ∧
    c.toAutomaton {} = .ok r memo ∧ compose opts operands = .ok r operands' ∧ Copies f scale inOrder a r ∧
    ∀ s, a.Reached s → memo.places[f s]? = some (place s)) ∨
  (∃ s, a.Reached s ∧ a.size ≤ s) ∧ ∃ e operands', compose opts operands = .error e operands'

theorem composesToCopy_of_build {opts : Options} (htrim : opts.trim = false)
    {operands operands' : Automaton W × Automaton W} {c : Composition W} (hbuild : build opts operands = .ok c operands')
    {place : Nat → Place} {scale : W → W} {inOrder : Prop} {a : Automaton W} (h : c.Imitates place scale inOrder a) :
    ComposesToCopy opts operands place scale inOrder a := by
  obtain ⟨hexist, r, memo, f, heq, hcopies, hplaces⟩ | ⟨hmissing, e, memo, heq⟩ := h.toAutomaton
  · have hcompose := compose_of_build hbuild heq
    rw [htrim] at hcompose
    exact .inl ⟨hexist, c, r, memo, f, operands', hbuild, heq, hcompose, hcopies, hplaces⟩
  · refine .inr ⟨hmissing, e, operands', ?_⟩
    simp only [compose, bind, EStateM.bind, hbuild, heq]
    rfl

section

variable {labels : List Label} {a i : Automaton W} (h : i.IsIdentity labels) {opts : Options} {plan : Plan}
  (hplan : opts.plan = .ok plan) (hl : opts.left.layers = []) (hr : opts.right.layers = [])
include h hplan hl hr

theorem imitates_right (hcovers : ∀ {s : Nat}, ∀ arc ∈ a.arcsAt s, arc.olabel ≠ epsilon → arc.olabel ∈ labels) :
    (of opts plan a i).Imitates besideRight (· * 1) (plan.operand = .left) a := by
  have hplain : Plain (of opts plan a i) := plain_of hplan hl hr
    (fun arc harc => ne_noLabel_of_covers h (hcovers arc harc))
    (fun arc harc => (proper_of_mem_identity h harc .input).2) a.cache i.cache
  refine hplain.imitates (fun s t heq => congrArg Place.left heq) ?_ (fun s => ?_) (fun s => ?_)
    fun s => map_snd_chart_right h hcovers
  · refine Option.ext fun other => ?_
    rw [origin_eq_some, Option.map_eq_some_iff]
    constructor
    · rintro ⟨s, t, hs, ht, rfl⟩
      obtain rfl := Option.some.inj (h.start_eq.symm.trans ht)
      exact ⟨s, hs, rfl⟩
    · rintro ⟨s, hs, rfl⟩
      exact ⟨s, 0, hs, h.start_eq, rfl⟩
  · show s < a.size ∧ 0 < i.size ↔ s < a.size
    rw [h.size_eq]
    exact and_iff_left Nat.one_pos
  · show finalWeight (a.final? s) (i.final? 0) = _
    rw [h.final?_eq, finalWeight_one_right]

theorem imitates_left (hcovers : ∀ {s : Nat}, ∀ arc ∈ a.arcsAt s, arc.ilabel ≠ epsilon → arc.ilabel ∈ labels) :
    (of opts plan i a).Imitates besideLeft (1 * ·) (plan.operand = .right) a := by
  have hplain : Plain (of opts plan i a) := plain_of hplan hl hr
    (fun arc harc => (proper_of_mem_identity h harc .output).2)
    (fun arc harc => ne_noLabel_of_covers h (hcovers arc harc)) i.cache a.cache
  refine hplain.imitates (fun s t heq => congrArg Place.right heq) ?_ (fun s => ?_) (fun s => ?_)
    fun s => map_snd_chart_left h hcovers
  · refine Option.ext fun other => ?_
    rw [origin_eq_some, Option.map_eq_some_iff]
    constructor
    · rintro ⟨t, s, ht, hs, rfl⟩
      obtain rfl := Option.some.inj (h.start_eq.symm.trans ht)
      exact ⟨s, hs, rfl⟩
    · rintro ⟨s, hs, rfl⟩
      exact ⟨0, s, h.start_eq, hs, rfl⟩
  · show 0 < i.size ∧ s < a.size ↔ s < a.size
    rw [h.size_eq]
    exact and_iff_right Nat.one_pos
  · show finalWeight (i.final? 0) (a.final? s) = _
    rw [h.final?_eq, finalWeight_one_left]

/-- To compose an automaton with an identity that has all labels between them, on either side and under all options
without layers that are not refused, copies the part of the automaton that can be reached: weights are multiplied by
one, and arcs stay in their order if the automaton is listed. It is refused only if some of that part does not exist. -/
theorem composesToCopy_identity (ha : a.CacheSound) (hi : i.CacheSound) (htrim : opts.trim = false) :
    ((∀ {s : Nat}, ∀ arc ∈ a.arcsAt s, arc.olabel ≠ epsilon → arc.olabel ∈ labels) → checkSymbols a i = .ok () →
      ComposesToCopy opts (a, i) (fun s => ⟨s, 0, .either⟩) (· * 1) (plan.operand = .left) a) ∧
    ((∀ {s : Nat}, ∀ arc ∈ a.arcsAt s, arc.ilabel ≠ epsilon → arc.ilabel ∈ labels) → checkSymbols i a = .ok () →
      ComposesToCopy opts (i, a) (fun s => ⟨0, s, .either⟩) (1 * ·) (plan.operand = .right) a) := by
  have hleft := Config.fault?_of_no_layers hl
  have hright := Config.fault?_of_no_layers hr
  constructor
  · intro hcovers hsymbols
    obtain ⟨cache, cache', hbuild⟩ := exists_build ha hi hplan hsymbols hleft hright
    exact composesToCopy_of_build htrim hbuild ((imitates_right h hplan hl hr hcovers).withCaches cache cache')
  · intro hcovers hsymbols
    obtain ⟨cache, cache', hbuild⟩ := exists_build hi ha hplan hsymbols hleft hright
    exact composesToCopy_of_build htrim hbuild ((imitates_left h hplan hl hr hcovers).withCaches cache cache')

end

/-- An automaton with a round way, with two arcs that are the same, with arcs that read or write nothing, and with a
state that cannot be reached. -/
def ringRoad : Automaton (ExactCost ℤ) where
  states := #[{ arcs := #[⟨1, 5, ⟨1⟩, 1⟩, ⟨2, epsilon, 1, 0⟩, ⟨1, 5, ⟨1⟩, 1⟩] },
    { final := some ⟨1⟩, arcs := #[⟨epsilon, 6, ⟨1⟩, 0⟩] }, { arcs := #[⟨1, 5, 1, 0⟩] }]
  start := some 0

/-- An identity with all labels of the ring road. -/
def mirror : Automaton (ExactCost ℤ) where
  states := #[{ final := some 1, arcs := #[identityArc 6, identityArc 2, identityArc 5, identityArc 1] }]
  start := some 0

/-- Not to trim. -/
def untrimmed : Options := { trim := false }

/-- With the identity on the right the arcs of the ring road stay in order. -/
theorem composesToCopy_identity_ringRoad :
    ComposesToCopy untrimmed (ringRoad, mirror) (fun s => ⟨s, 0, .either⟩) (· * 1) True ringRoad ∧
      ComposesToCopy untrimmed (mirror, ringRoad) (fun s => ⟨0, s, .either⟩) (1 * ·) False ringRoad := by
  have hid : mirror.IsIdentity [6, 2, 5, 1] := ⟨rfl, rfl, rfl, rfl, by decide, by simp [Proper, epsilon, noLabel]⟩
  obtain ⟨hright, hleft⟩ := composesToCopy_identity (a := ringRoad) hid
    (show untrimmed.plan = .ok .perState from rfl) rfl rfl (PropertyCache.sound_empty _)
    (PropertyCache.sound_empty _) rfl
  have hcovers := hright (Automaton.forall_mem_arcsAt_iff.2 (by decide)) rfl
  have hcovers' := hleft (Automaton.forall_mem_arcsAt_iff.2 (by decide)) rfl
  exact ⟨by simpa [Plan.operand] using hcovers, by simpa [Plan.operand] using hcovers'⟩

end Composition

end Transducer
