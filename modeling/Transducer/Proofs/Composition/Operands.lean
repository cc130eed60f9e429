import Mathlib
import Transducer.Proofs.Composition.Numbering
import Transducer.Proofs.Matching.Build

/-!
# Operands of compositions

What two automata are composed from is decided by the options and the automata themselves (`eq_of_build`). What
the operands have in their caches has no part in how composite states are expanded
(`expand_withCaches`). Without layers, what is built is plain (`plain_of`).
-/

namespace Transducer.Composition

variable {W : Type} [Weight W]

/-- The composition with something else in the caches of its operands. -/
def withCaches (c : Composition W) (cache cache' : PropertyCache) : Composition W :=
  { c with left := c.left.withCache cache, right := c.right.withCache cache' }

@[simp] theorem expand_withCaches (c : Composition W) (cache cache' : PropertyCache) :
    (c.withCaches cache cache').expand = c.expand := by
  have hpairs : (c.withCaches cache cache').pairs = c.pairs := by
    funext operand place
    cases operand with
    | left =>
      simp only [pairs, withCaches, Matcher.find_withCache]
      rfl
    | right =>
      simp only [pairs, withCaches, Matcher.find_withCache]
      rfl
  funext id place
  simp only [expand, hpairs]
  rfl

/-- The composition of two automata, with what its matchers rely on decided as it is. -/
def of (opts : Options) (plan : Plan) (a b : Automaton W) : Composition W where
  left := .of opts.left a
  right := .of opts.right b
  plan := plan

section

variable {opts : Options} {plan : Plan} {a b : Automaton W}

/-- Two automata are composed under options that are not refused. -/
theorem exists_build (ha : a.CacheSound) (hb : b.CacheSound) (hplan : opts.plan = .ok plan)
    (hsymbols : checkSymbols a b = .ok ()) (hleft : opts.left.fault? = none)
    (hright : opts.right.fault? = none) :
    ∃ cache cache', build opts (a, b) =
      .ok ((of opts plan a b).withCaches cache cache') ({ a with cache }, { b with cache := cache' }) := by
  obtain ⟨cache, hl⟩ := Matcher.build_eq ha hleft
  obtain ⟨cache', hr⟩ := Matcher.build_eq hb hright
  refine ⟨cache, cache', ?_⟩
  simp only [build, hplan, hsymbols, hl, hr]
  rfl

/-- A composition is built from its parts. -/
theorem parts_of_build {c : Composition W} {operands : Automaton W × Automaton W}
    (h : build opts (a, b) = .ok c operands) :
    opts.plan = .ok c.plan ∧ checkSymbols a b = .ok () ∧
      Matcher.build opts.left a = .ok c.left operands.1 ∧ Matcher.build opts.right b = .ok c.right operands.2 := by
  unfold build at h
  dsimp only at h
  split at h
  · cases h
  · cases h
  · next hplan hsymbols =>
    split at h
    · cases h
    · next hleft =>
      split at h
      · cases h
      · next hright =>
        cases h
        exact ⟨hplan, hsymbols, hleft, hright⟩

/-- What is built is the composition under the options, beside what is cached. -/
theorem eq_of_build (ha : a.CacheSound) (hb : b.CacheSound) {c : Composition W}
    {operands : Automaton W × Automaton W} (h : build opts (a, b) = .ok c operands) :
    ∃ plan cache cache', opts.plan = .ok plan ∧ c = (of opts plan a b).withCaches cache cache' := by
  obtain ⟨hplan, -, hleft, hright⟩ := parts_of_build h
  obtain ⟨cache, hl⟩ := Matcher.build_eq ha (Matcher.fault?_of_build hleft)
  obtain ⟨cache', hr⟩ := Matcher.build_eq hb (Matcher.fault?_of_build hright)
  obtain ⟨left, right, plan⟩ := c
  obtain ⟨rfl, -⟩ := EStateM.Result.ok.inj (hleft.symm.trans hl)
  obtain ⟨rfl, -⟩ := EStateM.Result.ok.inj (hright.symm.trans hr)
  exact ⟨plan, cache, cache', hplan, rfl⟩

end

/-! ### Operands without layers -/

/-- An operand that is asked under options that are not refused has its side. -/
theorem Options.side_of_plan {opts : Options} {plan : Plan} (h : opts.plan = .ok plan) :
    (plan.operand = .right → opts.left.side = some .output) ∧
      (plan.operand = .left → opts.right.side = some .input) := by
  obtain ⟨⟨l, _, _, _⟩, ⟨r, _, _, _⟩, driver, _⟩ := opts
  unfold Options.plan at h
  rcases l with _ | _ | _ <;> rcases r with _ | _ | _ <;> cases driver <;>
    simp [Options.fix] at h <;> (try split at h) <;> cases h <;> simp [Plan.operand]

/-- Without layers, what is built is plain. -/
theorem plain_of {opts : Options} {plan : Plan} {a b : Automaton W} (hplan : opts.plan = .ok plan)
    (hl : opts.left.layers = []) (hr : opts.right.layers = [])
    (hla : ∀ {s : Nat}, ∀ arc ∈ a.arcsAt s, arc.olabel ≠ noLabel)
    (hlb : ∀ {s : Nat}, ∀ arc ∈ b.arcsAt s, arc.ilabel ≠ noLabel) (cache cache' : PropertyCache) :
    Plain ((of opts plan a b).withCaches cache cache') where
  left_layers := hl
  right_layers := hr
  left_reliable := Matcher.reliable_of opts.left a
  right_reliable := Matcher.reliable_of opts.right b
  left_side := (Options.side_of_plan hplan).1
  right_side := (Options.side_of_plan hplan).2
  left_ne := hla
  right_ne := hlb

theorem Plain.expands {c : Composition W} (h : Plain c) {place : Place} (hrange : c.InRange place) :
    c.Expands place
      { final := finalWeight (c.left.automaton.final? place.left) (c.right.automaton.final? place.right)
        steps := (chart c.left.automaton c.right.automaton c.plan.operand place).map Prod.snd } :=
  fun id => expand_eq h id hrange.1 hrange.2

end Transducer.Composition
