import Mathlib
import Transducer.Proofs.Composition.Exploration
import Transducer.Proofs.Composition.Operands
import Transducer.Proofs.Matching.Origin

/-!
# Which arcs make a step

A special label must not be taken for an ordinary one: that two arcs both have it is no reason for them to match. So
an operand is listed only at states where it has no arc with a special label of its own (`listable_of_listed`), and if
the label of a listed arc is special for the other operand, that one refuses it.

`exists_pairing` says what this comes to, whatever the layers are and however it is decided which operand is listed.
Each step of a composite state is made by an epsilon arc of one operand while the other one waits, or by a listed arc
and one that is found for its label; this label is not special on either side (`Pairing`).
-/

namespace Transducer.Composition

open Matching
open Matcher (specials StandsFor)

variable {W : Type} {opts : Options} {plan : Plan} {a b : Automaton W} {place : Place} {operand : Operand}

/-! ### The operand that is listed -/

/-- Either one operand is listed at every composite state, or it is decided at each of them and both can be asked. -/
theorem Options.plan_eq_ok (h : opts.plan = .ok plan) :
    (∃ listed, opts.fix listed = .ok plan) ∨
      plan = .perState ∧ opts.left.side = some .output ∧ opts.right.side = some .input := by
  obtain ⟨⟨l, _, _, _⟩, ⟨r, _, _, _⟩, driver, _⟩ := opts
  unfold Options.plan at h
  rcases l with _ | _ | _ <;> rcases r with _ | _ | _ <;> cases driver
  all_goals first
    | exact .inl ⟨.left, h⟩
    | exact .inl ⟨.right, h⟩
    | exact .inr ⟨(Except.ok.inj h).symm, rfl, rfl⟩
    | cases h

/-- An operand that is listed at every composite state has no layers. -/
theorem Options.fix_eq_ok {listed : Operand} (h : opts.fix listed = .ok plan) :
    plan = .fixed listed ∧ (listed = .left → opts.left.layers = []) ∧ (listed = .right → opts.right.layers = []) := by
  unfold Options.fix at h
  cases listed with
  | left =>
    dsimp only at h
    split at h
    · cases h
    split at h
    · cases h
    · next hplain =>
      refine ⟨(Except.ok.inj h).symm, fun _ => ?_, fun hne => by cases hne⟩
      simpa [Config.isPlain] using hplain
  | right =>
    dsimp only at h
    split at h
    · cases h
    split at h
    · cases h
    · next hplain =>
      refine ⟨(Except.ok.inj h).symm, (fun hne => by cases hne), fun _ => ?_⟩
      simpa [Config.isPlain] using hplain

/-- The operand can be listed at a composite state: it has no arc there with a special label of its own, and the other
one can be asked. -/
def Listable (opts : Options) (a b : Automaton W) (place : Place) : Operand → Prop
  | .left => (∀ arc ∈ a.arcsAt place.left, arc.olabel ∉ specials opts.left.layers) ∧ opts.right.side = some .input
  | .right => (∀ arc ∈ b.arcsAt place.right, arc.ilabel ∉ specials opts.right.layers) ∧ opts.left.side = some .output

/-- The operand that is listed can be listed. -/
theorem listable_of_listed [Weight W] (hplan : opts.plan = .ok plan) {id : Nat}
    (hlisted : (of opts plan a b).listed id place = .ok operand) : Listable opts a b place operand := by
  obtain ⟨listed, hfix⟩ | ⟨rfl, hleft, hright⟩ := Options.plan_eq_ok hplan
  · obtain ⟨rfl, hl, hr⟩ := Options.fix_eq_ok hfix
    obtain ⟨hls, hrs⟩ := Options.side_of_plan hplan
    obtain rfl : listed = operand := Except.ok.inj hlisted
    cases listed with
    | left => exact ⟨fun arc _ => by simp [hl rfl], hrs rfl⟩
    | right => exact ⟨fun arc _ => by simp [hr rfl], hls rfl⟩
  · obtain ⟨left, hl, hlisted⟩ := bind_eq_ok.1 hlisted
    obtain ⟨right, hr, hlisted⟩ := bind_eq_ok.1 hlisted
    have hlabel : ∀ arc : Arc W, arc.label (Matcher.of opts.left a).matched = arc.olabel := fun arc => by
      rw [Matcher.matched_of hleft, Arc.label]
    have hlabel' : ∀ arc : Arc W, arc.label (Matcher.of opts.right b).matched = arc.ilabel := fun arc => by
      rw [Matcher.matched_of hright, Arc.label]
    cases left with
    | false =>
      obtain rfl := Except.ok.inj hlisted
      refine ⟨fun arc harc => ?_, hright⟩
      rw [← hlabel arc]
      exact Matcher.not_mem_specials_of_hasSpecialArcs hl harc
    | true =>
      cases right with
      | false =>
        obtain rfl := Except.ok.inj hlisted
        refine ⟨fun arc harc => ?_, hleft⟩
        rw [← hlabel' arc]
        exact Matcher.not_mem_specials_of_hasSpecialArcs hr harc
      | true => cases hlisted

/-! ### Pairs of arcs -/

/-- Two epsilon arcs make no step. -/
theorem pass_epsilon {turn : Turn} {silent loud : Bool} {l r : Arc W} (hl : l.olabel = epsilon)
    (hr : r.ilabel = epsilon) : turn.pass silent loud l r = none := by
  have hne : epsilon ≠ noLabel := by decide
  rw [Turn.pass, hl, hr, if_neg hne, if_neg hne, if_pos rfl]

/-- Two arcs can match by this label: it is an ordinary one, and no layer of either operand has it. -/
structure Common (opts : Options) (label : Label) : Prop where
  proper : Proper label
  left : label ∉ specials opts.left.layers
  right : label ∉ specials opts.right.layers

/-- The ways in which two arcs make a step where an operand is listed. -/
inductive Pairing [Weight W] (opts : Options) (a b : Automaton W) (place : Place) : Operand → Arc W → Arc W → Prop where
  /-- The left operand waits while the right one takes an epsilon arc. -/
  | leftWaits {operand : Operand} {r : Arc W} : r ∈ b.arcsAt place.right → r.ilabel = epsilon →
      Pairing opts a b place operand ⟨epsilon, noLabel, 1, place.left⟩ r
  /-- The right operand waits while the left one takes an epsilon arc. -/
  | rightWaits {operand : Operand} {l : Arc W} : l ∈ a.arcsAt place.left → l.olabel = epsilon →
      Pairing opts a b place operand l ⟨noLabel, epsilon, 1, place.right⟩
  /-- An arc of the left operand is listed, and one of the right operand is found for its label. -/
  | leftListed {l r : Arc W} : l ∈ a.arcsAt place.left → Common opts l.olabel →
      StandsFor b .input opts.right.layers l.olabel r → Pairing opts a b place .left l r
  /-- An arc of the right operand is listed, and one of the left operand is found for its label. -/
  | rightListed {l r : Arc W} : r ∈ b.arcsAt place.right → Common opts r.ilabel →
      StandsFor a .output opts.left.layers r.ilabel l → Pairing opts a b place .right l r

section

variable [Weight W] (hla : ∀ {s : Nat}, ∀ arc ∈ a.arcsAt s, arc.olabel ≠ noLabel)
  (hlb : ∀ {s : Nat}, ∀ arc ∈ b.arcsAt s, arc.ilabel ≠ noLabel)
include hla hlb

/-- What is listed and what is found for it make a pair, unless the turn forbids the step. -/
theorem pairing_of_paired (hl : ∀ layer ∈ opts.left.layers, Proper layer.label)
    (hr : ∀ layer ∈ opts.right.layers, Proper layer.label) (hlistable : Listable opts a b place operand) {l r : Arc W}
    (hpaired : (of opts plan a b).Paired place operand l r) {turn next : Turn} {silent loud : Bool}
    (hpass : turn.pass silent loud l r = some next) : Pairing opts a b place operand l r := by
  cases operand with
  | left =>
    obtain ⟨hnone, hside⟩ := hlistable
    obtain ⟨hlisted, found, hfound, hasked⟩ := hpaired
    have hanswers : (Matcher.of opts.right b).Answers place.right l.olabel r :=
      Matcher.answers_of_find (Matcher.reliable_of opts.right b) hr hfound hasked
    have hmatched := Matcher.matched_of hside b
    rcases hlisted with rfl | hlisted
    · obtain ⟨hmem, hsilent⟩ := hanswers.of_noLabel
      exact .leftWaits hmem (by rwa [hmatched] at hsilent)
    · obtain ⟨hsilent, rfl | hsilent'⟩ | ⟨hproper, hspecial, hstands⟩ := hanswers.of_ne (hla l hlisted)
      · rw [Matcher.loopArc, hmatched]
        exact .rightWaits hlisted hsilent
      · rw [hmatched] at hsilent'
        rw [pass_epsilon hsilent hsilent'] at hpass
        cases hpass
      · refine .leftListed hlisted ⟨hproper, hnone l hlisted, hspecial⟩ ?_
        rwa [Matcher.Stands, hmatched] at hstands
  | right =>
    obtain ⟨hnone, hside⟩ := hlistable
    obtain ⟨hlisted, found, hfound, hasked⟩ := hpaired
    have hanswers : (Matcher.of opts.left a).Answers place.left r.ilabel l :=
      Matcher.answers_of_find (Matcher.reliable_of opts.left a) hl hfound hasked
    have hmatched := Matcher.matched_of hside a
    rcases hlisted with rfl | hlisted
    · obtain ⟨hmem, hsilent⟩ := hanswers.of_noLabel
      exact .rightWaits hmem (by rwa [hmatched] at hsilent)
    · obtain ⟨hsilent, rfl | hsilent'⟩ | ⟨hproper, hspecial, hstands⟩ := hanswers.of_ne (hlb r hlisted)
      · rw [Matcher.loopArc, hmatched]
        exact .leftWaits hlisted hsilent
      · rw [hmatched] at hsilent'
        rw [pass_epsilon hsilent' hsilent] at hpass
        cases hpass
      · refine .rightListed hlisted ⟨hproper, hspecial, hnone r hlisted⟩ ?_
        rwa [Matcher.Stands, hmatched] at hstands

/-- Whatever layers the operands have and however it is decided which operand is listed: where a composite state can be
expanded, the listed operand has no arc with a special label of its own, and each step is made by a pair of arcs that
the turn allows. These are an epsilon arc of one operand while the other one waits, or two arcs with a label between
them that is special for neither operand. -/
theorem exists_pairing (ha : a.CacheSound) (hb : b.CacheSound) {c : Composition W}
    {operands : Automaton W × Automaton W} (hbuild : build opts (a, b) = .ok c operands) {id : Nat}
    {expansion : Expansion W} (hexpand : c.expand id place = .ok expansion) :
    ∃ operand, c.listed id place = .ok operand ∧ Listable opts a b place operand ∧
      ∀ step ∈ expansion.steps, ∃ l r turn, Pairing opts a b place operand l r ∧
        place.turn.pass (mustMove a place.left) (mustMeet a place.left) l r = some turn ∧
        step = ⟨l.ilabel, r.olabel, l.weight * r.weight, ⟨l.target, r.target, turn⟩⟩ := by
  obtain ⟨-, -, hleft, hright⟩ := parts_of_build hbuild
  obtain ⟨-, -, hl, -⟩ := Matcher.layers_of_build hleft
  obtain ⟨-, -, hr, -⟩ := Matcher.layers_of_build hright
  obtain ⟨plan, cache, cache', hplan, rfl⟩ := eq_of_build ha hb hbuild
  rw [expand_withCaches] at hexpand
  obtain ⟨-, operand, pairs, hlisted, hpairs, hsteps⟩ := (expands_of_expand hexpand).spec
  have hlistable := listable_of_listed hplan (hlisted id)
  refine ⟨operand, hlisted id, hlistable, fun step hstep => ?_⟩
  obtain ⟨l, r, turn, hmem, hpass, rfl⟩ := hsteps step hstep
  exact ⟨l, r, turn, pairing_of_paired hla hlb hl hr hlistable (paired_of_mem_pairs hpairs hmem) hpass, hpass, rfl⟩

end

/-- An automaton that writes a label, or nothing, and after that a special label. -/
def signpost : Automaton (ExactCost ℤ) where
  states := #[{ arcs := #[⟨1, 5, 1, 1⟩, ⟨2, epsilon, 1, 1⟩] }, { final := some 1, arcs := #[⟨1, 8, 1, 1⟩] }]
  start := some 0

/-- An automaton that has no arcs but special ones. -/
def diversion : Automaton (ExactCost ℤ) where
  states := #[{ arcs := #[⟨9, 9, ⟨1⟩, 1⟩] }, { final := some 1, arcs := #[⟨7, 4, ⟨1⟩, 1⟩] }]
  start := some 0

/-- Layers on both sides. -/
def layered : Options where
  left := { side := some .output, layers := [⟨.rho, 8⟩] }
  right := { layers := [⟨.phi, 9⟩, ⟨.sigma, 7⟩] }

/-- The steps that these two can make first. -/
def firstSteps : List (Step (ExactCost ℤ)) :=
  [⟨1, 4, ⟨1⟩ * ⟨1⟩, ⟨1, 1, .either⟩⟩, ⟨2, epsilon, 1, ⟨1, 0, .either⟩⟩]

/-- The arc with a label is paired with one that is found behind a phi arc, by a special label. -/
theorem exists_pairing_signpost : ∃ c operands, build layered (signpost, diversion) = .ok c operands ∧
    c.expand 0 ⟨0, 0, .either⟩ = .ok ⟨none, firstSteps⟩ ∧
    ∃ operand, c.listed 0 ⟨0, 0, .either⟩ = .ok operand ∧
      Listable layered signpost diversion ⟨0, 0, .either⟩ operand ∧
      ∀ step ∈ firstSteps, ∃ l r turn,
        Pairing layered signpost diversion ⟨0, 0, .either⟩ operand l r ∧
          Turn.either.pass (mustMove signpost 0) (mustMeet signpost 0) l r = some turn ∧
          step = ⟨l.ilabel, r.olabel, l.weight * r.weight, ⟨l.target, r.target, turn⟩⟩ := by
  have ha : signpost.CacheSound := PropertyCache.sound_empty _
  have hb : diversion.CacheSound := PropertyCache.sound_empty _
  have hplan : layered.plan = .ok .perState := rfl
  obtain ⟨cache, cache', hbuild⟩ := exists_build ha hb hplan rfl rfl rfl
  have hexpand : ((of layered .perState signpost diversion).withCaches cache cache').expand 0 ⟨0, 0, .either⟩ =
      .ok ⟨none, firstSteps⟩ := by
    rw [expand_withCaches]
    cbv
  exact ⟨_, _, hbuild, hexpand, exists_pairing (Automaton.forall_mem_arcsAt_iff.2 (by decide))
    (Automaton.forall_mem_arcsAt_iff.2 (by decide)) ha hb hbuild hexpand⟩

end Transducer.Composition
