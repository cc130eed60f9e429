import Mathlib
import Transducer.Proofs.Composition.Wildcard
import Transducer.Proofs.Matching.Reordering

/-!
# Compositions do not depend on the order of arcs

Two automata are composed to the same composite states with the same weights and the same arcs, in whatever order,
whether their arcs are sorted first or not (`rearranges_of_sortArcs`). That holds under all options: with any layers,
and whichever operand is listed.

The reason is that a composite state is expanded to the same steps in whatever order if the arcs of the operands are
reordered (`Reorders.expands`). To list the arcs of one operand in another order, and to find those of the other one
in another order, gives the same pairs.
-/

namespace Transducer.Composition

open Matcher (Shuffles)

variable {W : Type}

/-- The compositions are the same but for the order of the arcs of their operands. -/
structure Reorders (c c' : Composition W) : Prop where
  left : c.left.Reorders c'.left
  right : c.right.Reorders c'.right
  plan_eq : c'.plan = c.plan

section

variable {c c' : Composition W} {place : Place}

theorem Reorders.symm (h : c.Reorders c') : c'.Reorders c := ⟨h.left.symm, h.right.symm, h.plan_eq.symm⟩

theorem Reorders.origin_eq (h : c.Reorders c') : c'.origin = c.origin := by
  rw [origin, origin, h.left.automaton.start_eq, h.right.automaton.start_eq]

theorem Reorders.inRange (h : c.Reorders c') (hrange : c.InRange place) : c'.InRange place :=
  ⟨h.left.automaton.size_eq ▸ hrange.1, h.right.automaton.size_eq ▸ hrange.2⟩

theorem Reorders.listed_eq (h : c.Reorders c') (id : Nat) : c'.listed id place = c.listed id place := by
  simp only [listed, h.plan_eq, h.left.hasSpecialArcs_eq, h.right.hasSpecialArcs_eq]

theorem Reorders.mustMove_eq (h : c.Reorders c') (s : Nat) :
    mustMove c'.left.automaton s = mustMove c.left.automaton s := by
  rw [mustMove, mustMove, h.left.automaton.final?_eq, h.left.automaton.all_eq]

theorem Reorders.mustMeet_eq (h : c.Reorders c') (s : Nat) :
    mustMeet c'.left.automaton s = mustMeet c.left.automaton s := by
  rw [mustMeet, mustMeet, h.left.automaton.all_eq]

end

/-! ### Pairs of arcs -/

theorem exists_forall₂_of_forall₂ {α β : Type} {R R' : α → β → Prop} {S : β → β → Prop}
    (h : ∀ x y, R x y → ∃ z, R' x z ∧ S z y) {l : List α} {ys : List β} (hR : List.Forall₂ R l ys) :
    ∃ zs, List.Forall₂ R' l zs ∧ List.Forall₂ S zs ys := by
  induction hR with
  | nil => exact ⟨[], .nil, .nil⟩
  | cons hxy _ ih =>
    obtain ⟨z, hxz, hzy⟩ := h _ _ hxy
    obtain ⟨zs, hzs, hS⟩ := ih
    exact ⟨z :: zs, .cons hxz hzs, .cons hzy hS⟩

/-- Each item of a list is asked for, in another order, and something is found in another order for each. -/
theorem exists_asked_perm {α β γ : Type} {f f' : α → Except Error (List β)} {g : α → β → γ} {l l' : List α}
    (hl : l'.Perm l) (hf : ∀ x, Shuffles (f x) (f' x)) {found : List (List γ)}
    (h : (l.mapM fun x => return (← f x).map (g x)) = .ok found) :
    ∃ found', (l'.mapM fun x => return (← f' x).map (g x)) = .ok found' ∧ found'.flatten.Perm found.flatten := by
  have hother : ∀ x ys, (return (← f x).map (g x)) = Except.ok (ε := Error) ys →
      ∃ zs, (return (← f' x).map (g x)) = Except.ok (ε := Error) zs ∧ zs.Perm ys := by
    intro x ys hx
    obtain ⟨items, hitems, hmap⟩ := bind_eq_ok.1 hx
    obtain rfl := Except.ok.inj hmap
    obtain ⟨items', hitems', hperm⟩ := (hf x).exists_of_ok hitems
    exact ⟨items'.map (g x), bind_eq_ok.2 ⟨items', hitems', rfl⟩, hperm.map _⟩
  obtain ⟨asked, hasked, hperms⟩ := exists_forall₂_of_forall₂ hother (mapM_eq_ok_iff.1 h)
  obtain ⟨found', hfound', hperm⟩ := List.perm_comp_forall₂ hl hasked
  exact ⟨found', mapM_eq_ok_iff.2 hfound', hperm.flatten.trans (.flatten_congr hperms)⟩

/-- All arcs of a state are listed, after a first one, and something is found for each. -/
theorem exists_listed_perm {a a' : Automaton W} (h : a.Reorders a') {s : Nat} (hs : s < a.size) {first : Arc W}
    {f f' : Arc W → Except Error (List (Arc W))} (hf : ∀ arc, Shuffles (f arc) (f' arc))
    {g : Arc W → Arc W → Arc W × Arc W} {pairs : List (Arc W × Arc W)}
    (hpairs : (do
      let arcs ← a.findArcs s
      let found ← (first :: arcs.toList).mapM fun arc => return (← f arc).map (g arc)
      return found.flatten) = .ok pairs) :
    ∃ pairs', (do
      let arcs ← a'.findArcs s
      let found ← (first :: arcs.toList).mapM fun arc => return (← f' arc).map (g arc)
      return found.flatten) = .ok pairs' ∧ pairs'.Perm pairs := by
  obtain ⟨arcs, harcs, hpairs⟩ := bind_eq_ok.1 hpairs
  obtain ⟨found, hfound, hflatten⟩ := bind_eq_ok.1 hpairs
  obtain rfl := Except.ok.inj hflatten
  obtain ⟨-, rfl⟩ := Automaton.findArcs_eq_ok harcs
  obtain ⟨found', hfound', hperm⟩ := exists_asked_perm ((h.arcsAt_perm s).cons first) hf hfound
  have harcs' : a'.findArcs s = .ok (a'.arcsAt s) := Automaton.findArcs_eq (h.size_eq ▸ hs)
  exact ⟨found'.flatten, bind_eq_ok.2 ⟨_, harcs', bind_eq_ok.2 ⟨found', hfound', rfl⟩⟩, hperm⟩

variable [Weight W]

section

variable {c c' : Composition W} {place : Place}

theorem Reorders.exists_pairs (h : c.Reorders c') (hrange : c.InRange place) {operand : Operand}
    {pairs : List (Arc W × Arc W)} (hpairs : c.pairs operand place = .ok pairs) :
    ∃ pairs', c'.pairs operand place = .ok pairs' ∧ pairs'.Perm pairs := by
  cases operand with
  | left =>
    exact exists_listed_perm h.left.automaton hrange.1 (fun arc => h.right.shuffles_find place.right arc.olabel) hpairs
  | right =>
    exact exists_listed_perm h.right.automaton hrange.2 (fun arc => h.left.shuffles_find place.left arc.ilabel)
      (g := fun arc found => (found, arc)) hpairs

/-- A composite state is expanded to the steps that its pairs of arcs make. -/
theorem expands_iff {expansion : Expansion W} :
    c.Expands place expansion ↔ c.InRange place ∧ ∃ operand pairs, (∀ id, c.listed id place = .ok operand) ∧
      c.pairs operand place = .ok pairs ∧ expansion =
        { final := finalWeight (c.left.automaton.final? place.left) (c.right.automaton.final? place.right)
          steps := pairs.filterMap (step? place.turn (mustMove c.left.automaton place.left)
            (mustMeet c.left.automaton place.left)) } := by
  have hexpand : c.InRange place → ∀ id, c.expand id place = c.listed id place >>= fun operand =>
      c.pairs operand place >>= fun pairs => .ok
        { final := finalWeight (c.left.automaton.final? place.left) (c.right.automaton.final? place.right)
          steps := pairs.filterMap (step? place.turn (mustMove c.left.automaton place.left)
            (mustMeet c.left.automaton place.left)) } := by
    intro hrange id
    rw [expand, Automaton.findFinal_eq hrange.1, Automaton.findFinal_eq hrange.2, Automaton.findArcs_eq hrange.1]
    rfl
  constructor
  · intro h
    obtain ⟨operand, hlisted, hpairs⟩ := bind_eq_ok.1 ((hexpand h.inRange 0).symm.trans (h 0))
    obtain ⟨pairs, hpairs, hexpansion⟩ := bind_eq_ok.1 hpairs
    exact ⟨h.inRange, operand, pairs, listed_eq_of_ok hlisted, hpairs, (Except.ok.inj hexpansion).symm⟩
  · rintro ⟨hrange, operand, pairs, hlisted, hpairs, rfl⟩ id
    exact (hexpand hrange id).trans (bind_eq_ok.2 ⟨operand, hlisted id, bind_eq_ok.2 ⟨pairs, hpairs, rfl⟩⟩)

theorem Reorders.expands (h : c.Reorders c') {expansion : Expansion W} (hexpands : c.Expands place expansion) :
    ∃ expansion', c'.Expands place expansion' ∧ expansion'.final = expansion.final ∧
      expansion'.steps.Perm expansion.steps := by
  obtain ⟨hrange, operand, pairs, hlisted, hpairs, rfl⟩ := expands_iff.1 hexpands
  obtain ⟨pairs', hpairs', hperm⟩ := h.exists_pairs hrange hpairs
  refine ⟨_, expands_iff.2 ⟨h.inRange hrange, operand, pairs', fun id => (h.listed_eq id).trans (hlisted id),
    hpairs', rfl⟩, ?_, ?_⟩
  · rw [h.left.automaton.final?_eq, h.right.automaton.final?_eq]
  · rw [h.mustMove_eq, h.mustMeet_eq]
    exact hperm.filterMap _

/-- Compositions that differ only in the order of the arcs of their operands agree. -/
theorem Reorders.agrees (h : c.Reorders c') : c.Agrees c' := ⟨h.origin_eq, h.expands⟩

end

/-! ### Sorted operands -/

section

variable {opts : Options} {a b a' b' : Automaton W}

theorem reorders_of (opts : Options) (plan : Plan) (ha : a.Reorders a') (hb : b.Reorders b') :
    (of opts plan a b).Reorders (of opts plan a' b') :=
  ⟨Matcher.reorders_of opts.left ha, Matcher.reorders_of opts.right hb, rfl⟩

/-- Reordered operands are refused for the same reason, or are built to compositions that agree. -/
theorem build_of_reorders (opts : Options) (ha : a.CacheSound) (hb : b.CacheSound) (ha' : a'.CacheSound)
    (hb' : b'.CacheSound) (hleft : a.Reorders a') (hright : b.Reorders b') :
    (∃ e operands operands', build opts (a, b) = .error e operands ∧ build opts (a', b') = .error e operands') ∨
    ∃ c c' operands operands', build opts (a, b) = .ok c operands ∧ build opts (a', b') = .ok c' operands' ∧
      c.Agrees c' ∧ c'.Agrees c := by
  have hsymbols : checkSymbols a' b' = checkSymbols a b := by
    rw [checkSymbols, checkSymbols, hleft.symbols_eq.2, hright.symbols_eq.1]
  have hrefused : ∀ {config : Matching.Config} {fault : Misconfiguration}, config.fault? = some fault →
      ∀ x : Automaton W, Matcher.build config x = .error (.config fault) x := by
    intro config fault hfault x
    rw [Matcher.build, hfault]
  cases hplan : opts.plan with
  | error fault => exact .inl ⟨.config fault, _, _, by rw [build, hplan], by rw [build, hplan]⟩
  | ok plan =>
  cases hchecked : checkSymbols a b with
  | error fault =>
    exact .inl ⟨.config fault, _, _, by rw [build, hplan, hchecked], by rw [build, hplan, hsymbols, hchecked]⟩
  | ok =>
  cases hl : opts.left.fault? with
  | some fault =>
    refine .inl ⟨.config fault, (a, b), (a', b'), ?_, ?_⟩
    · simp only [build, hplan, hchecked, hrefused hl]
    · simp only [build, hplan, hsymbols, hchecked, hrefused hl]
  | none =>
  cases hr : opts.right.fault? with
  | some fault =>
    obtain ⟨cache, hbuild⟩ := Matcher.build_eq ha hl
    obtain ⟨cache', hbuild'⟩ := Matcher.build_eq ha' hl
    refine .inl ⟨.config fault, ({ a with cache }, b), ({ a' with cache := cache' }, b'), ?_, ?_⟩
    · simp only [build, hplan, hchecked, hbuild, hrefused hr]
    · simp only [build, hplan, hsymbols, hchecked, hbuild', hrefused hr]
  | none =>
    have hreorders := reorders_of opts plan hleft hright
    obtain ⟨_, _, hbuild⟩ := exists_build ha hb hplan hchecked hl hr
    obtain ⟨_, _, hbuild'⟩ := exists_build ha' hb' hplan (hsymbols.trans hchecked) hl hr
    exact .inr ⟨_, _, _, _, hbuild, hbuild', hreorders.agrees.withCaches _ _ _ _,
      hreorders.symm.agrees.withCaches _ _ _ _⟩

/-- Sorting puts the arcs of each state in the order of their labels and keeps the order of arcs with the same labels,
so that to sort again changes nothing and the automaton answers that it is sorted. Two automata have the same
composition whether the arcs of either of them, or of both, are sorted first or not, but for the order of arcs and the
numbers of states; or both compositions are refused, to begin with or since some composite state cannot be
expanded. -/
theorem rearranges_of_sortArcs (opts : Options) (ha : a.CacheSound) (hb : b.CacheSound) (left right : Option Side) :
    (∀ x ∈ [a, b], ∀ side, x.Sorts side (x.sortArcs side) ∧ (x.sortArcs side).sortArcs side = x.sortArcs side ∧
      ((x.sortArcs side).ask side.sorted).1 = true) ∧
    ((∃ e operands operands', build opts (a, b) = .error e operands ∧
      build opts (a.sortedOn left, b.sortedOn right) = .error e operands') ∨
    ∃ c c' operands operands', build opts (a, b) = .ok c operands ∧
      build opts (a.sortedOn left, b.sortedOn right) = .ok c' operands' ∧ (∀ place, c'.Met place ↔ c.Met place) ∧
      ((c.Stuck ∧ c'.Stuck ∧ ∃ e e' memo memo', c.toAutomaton {} = .error e memo ∧
        c'.toAutomaton {} = .error e' memo') ∨
      ∃ r r' memo memo', c.toAutomaton {} = .ok r memo ∧ c'.toAutomaton {} = .ok r' memo' ∧
        Completes c r memo.places ∧ Completes c' r' memo'.places ∧
        Rearranges r r' memo.places memo'.places)) := by
  constructor
  · intro x hx side
    have hsound : x.CacheSound := by
      rcases List.mem_cons.1 hx with rfl | hx
      · exact ha
      · exact List.mem_singleton.1 hx ▸ hb
    exact ⟨x.sorts_sortArcs side, x.sortArcs_sortArcs side, Automaton.ask_sortArcs hsound side⟩
  refine (build_of_reorders opts ha hb (ha.sortedOn left) (hb.sortedOn right) (a.reorders_sortedOn left)
    (b.reorders_sortedOn right)).imp_right ?_
  rintro ⟨c, c', operands, operands', hbuild, hbuild', hagrees, hagrees'⟩
  refine ⟨c, c', operands, operands', hbuild, hbuild', fun place => ⟨hagrees'.met, hagrees.met⟩, ?_⟩
  obtain ⟨hstuck, hrefused⟩ | ⟨r, r', memo, memo', heq, heq', hcompletes, hcompletes'⟩ :=
    hagrees.toAutomaton hagrees' (explored_empty c) (explored_empty c')
  · exact .inl ⟨hstuck, hagrees.stuck hagrees' hstuck, hrefused⟩
  · exact .inr ⟨r, r', memo, memo', heq, heq', hcompletes, hcompletes',
      hcompletes.rearranges hcompletes' hagrees hagrees'⟩

end

/-- Two arcs write one label, and between them stands an arc with a lower one. -/
def jumble : Automaton (ExactCost ℤ) where
  states := #[{ arcs := #[⟨2, 6, ⟨((1 : ℤ) : WithTop ℤ)⟩, 1⟩, ⟨1, 5, 1, 1⟩, ⟨2, 6, 1, 0⟩] }, { final := some 1 }]
  start := some 0

/-- The arc by which 7 stands for every label without another match comes first. -/
def sieve : Automaton (ExactCost ℤ) where
  states := #[{ final := some 1, arcs := #[⟨7, 7, 1, 0⟩, ⟨5, 8, ⟨((2 : ℤ) : WithTop ℤ)⟩, 0⟩] }]
  start := some 0

/-- Neither operand is sorted. -/
theorem rearranges_of_sortArcs_jumble_sieve : jumble.decides .outputSorted = false ∧
    sieve.decides .inputSorted = false ∧ ∃ c c' operands operands',
    build throughRho (jumble, sieve) = .ok c operands ∧
      build throughRho (jumble.sortArcs .output, sieve.sortArcs .input) = .ok c' operands' ∧
      ∃ r r' memo memo', c.toAutomaton {} = .ok r memo ∧ c'.toAutomaton {} = .ok r' memo' ∧
        Completes c r memo.places ∧ Completes c' r' memo'.places ∧
        Rearranges r r' memo.places memo'.places := by
  refine ⟨by cbv, by cbv, ?_⟩
  have ha : jumble.CacheSound := PropertyCache.sound_empty _
  have hb : sieve.CacheSound := PropertyCache.sound_empty _
  have hplan : throughRho.plan = .ok .perState := rfl
  obtain ⟨_, _, hbuild⟩ := exists_build ha hb hplan rfl rfl rfl
  obtain ⟨-, ⟨_, _, _, herror, -⟩ | ⟨c, c', operands, operands', hbuild', hsorted, -, hresult⟩⟩ :=
    rearranges_of_sortArcs throughRho ha hb (some .output) (some .input)
  · cases herror.symm.trans hbuild
  refine ⟨c, c', operands, operands', hbuild', hsorted, ?_⟩
  obtain ⟨rfl, -⟩ := EStateM.Result.ok.inj (hbuild.symm.trans hbuild')
  obtain ⟨⟨place, hmet, hstuck⟩, -⟩ | hsame := hresult
  · -- every composite state can be expanded, and the arcs of both operands stay within them
    have hca : jumble.Confined := by decide
    have hcb : sieve.Confined := by decide
    have hrange := hmet.inRange ⟨hca.start_lt, hca.target_lt⟩ ⟨hcb.start_lt, hcb.target_lt⟩
    obtain ⟨expansion, _, hexpands, -⟩ := exists_expands_of_spellsOut (a := jumble) (b := sieve) rfl hplan rfl rfl
      (by decide) (by decide) (Automaton.forall_mem_arcsAt_iff.2 (by decide))
      (spellsOut_spellOut ⟨.rho, 7⟩ true jumble.written sieve) hrange
    refine absurd ?_ (hstuck expansion)
    rw [Expands, expand_withCaches]
    exact hexpands
  · exact hsame

end Transducer.Composition
