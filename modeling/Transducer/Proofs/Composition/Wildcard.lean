import Mathlib
import Transducer.Proofs.Composition.Driver
import Transducer.Proofs.Matching.Layers

/-!
# Wildcards spelled out

A right operand whose arcs are looked up through one sigma or rho layer can be replaced by an automaton that has
those arcs once for each label that the left operand writes (`SpellsOut`). Composed without layers, it gives the
same composite states with the same weights and the same arcs, in whatever order (`rearranges_of_spellsOut`).

Both compositions list the left operand, since it has no layers. So it is enough that for each label that the left
operand writes both find the same arcs: through the layer (`find_wildcard`) and among the arcs that are spelled
out (`exactMatches_perm`).
-/

namespace Transducer

open Matching

variable {W : Type}

/-! ### The arcs that are spelled out -/

/-- The copies for one label of the arcs with the special label. There are none for a label that a rho arc does
not match, because other arcs do. -/
def copiesOf (layer : Layer) (both : Bool) (arcs : List (Arc W)) (label : Label) : List (Arc W) :=
  if layer.kind = .rho ∧ ∃ arc ∈ arcs, arc.ilabel = label then []
  else (arcs.filter (·.ilabel == layer.label)).map fun arc =>
    { arc with ilabel := label, olabel := if both && arc.olabel == layer.label then label else arc.olabel }

/-- The second automaton is the first one with the arcs of a special label spelled out for some labels. -/
structure SpellsOut (layer : Layer) (both : Bool) (labels : List Label) (b b' : Automaton W) : Prop where
  size_eq : b'.size = b.size
  start_eq : b'.start = b.start
  final?_eq : ∀ s, b'.final? s = b.final? s
  arcsAt_perm : ∀ s, (b'.arcsAt s).toList.Perm
    ((b.arcsAt s).toList ++ labels.flatMap (copiesOf layer both (b.arcsAt s).toList))
  symbols_eq : b'.inputSymbols = b.inputSymbols ∧ b'.outputSymbols = b.outputSymbols

/-- The automaton with the arcs of a special label spelled out, after the arcs of each state. -/
def Automaton.spellOut (layer : Layer) (both : Bool) (labels : List Label) (b : Automaton W) : Automaton W :=
  { b with
    states := b.states.map fun state =>
      { state with arcs := state.arcs ++ (labels.flatMap (copiesOf layer both state.arcs.toList)).toArray }
    cache := {} }

theorem spellsOut_spellOut (layer : Layer) (both : Bool) (labels : List Label) (b : Automaton W) :
    SpellsOut layer both labels b (b.spellOut layer both labels) where
  size_eq := by simp [Automaton.size, Automaton.spellOut]
  start_eq := rfl
  final?_eq s := by cases h : b.states[s]? <;> simp [Automaton.final?, Automaton.spellOut, h]
  arcsAt_perm s := by
    cases h : b.states[s]? with
    | none => simp [Automaton.arcsAt, Automaton.spellOut, h, copiesOf]
    | some state => simp [Automaton.arcsAt, Automaton.spellOut, h]
  symbols_eq := ⟨rfl, rfl⟩

section

variable {layer : Layer} {both : Bool} {arcs : List (Arc W)} {labels : List Label} {label : Label}

theorem ilabel_of_mem_copiesOf {arc : Arc W} (h : arc ∈ copiesOf layer both arcs label) : arc.ilabel = label := by
  unfold copiesOf at h
  split at h
  · cases h
  · obtain ⟨_, -, rfl⟩ := List.mem_map.1 h
    rfl

/-- Among the arcs that are spelled out for some labels, those with one label are those that are spelled out for
that label. -/
theorem filter_copies (hdistinct : labels.Nodup) :
    (labels.flatMap (copiesOf layer both arcs)).filter (·.ilabel == label) =
      if label ∈ labels then copiesOf layer both arcs label else [] := by
  induction labels with
  | nil => rfl
  | cons other labels ih =>
    obtain ⟨hother, hdistinct⟩ := List.nodup_cons.1 hdistinct
    rw [List.flatMap_cons, List.filter_append, ih hdistinct]
    by_cases heq : label = other
    · subst heq
      rw [List.filter_eq_self.2 fun arc harc => beq_iff_eq.2 (ilabel_of_mem_copiesOf harc), if_neg hother,
        if_pos List.mem_cons_self, List.append_nil]
    · have hnone : (copiesOf layer both arcs other).filter (·.ilabel == label) = [] :=
        List.filter_eq_nil_iff.2 fun arc harc => by
          rw [ilabel_of_mem_copiesOf harc, beq_iff_eq]
          exact Ne.symm heq
      rw [hnone, List.nil_append]
      simp [heq]

end

/-- The labels that an automaton writes, each of them once. -/
def Automaton.written (a : Automaton W) : List Label :=
  ((a.states.toList.flatMap (·.labels .output)).filter (· != epsilon)).dedup

theorem Automaton.mem_written {a : Automaton W} {label : Label} :
    label ∈ a.written ↔ label ≠ epsilon ∧ ∃ s, ∃ arc ∈ a.arcsAt s, arc.olabel = label := by
  rw [written, List.mem_dedup, List.mem_filter, List.mem_flatMap, and_comm, bne_iff_ne]
  refine and_congr_right fun _ => ?_
  constructor
  · rintro ⟨state, hstate, hlabel⟩
    obtain ⟨arc, harc, rfl⟩ := List.mem_map.1 hlabel
    obtain ⟨s, hs⟩ := List.mem_iff_getElem?.1 hstate
    rw [Array.getElem?_toList] at hs
    exact ⟨s, arc, by rwa [arcsAt, hs, ← Array.mem_toList_iff], rfl⟩
  · rintro ⟨s, arc, harc, rfl⟩
    unfold arcsAt at harc
    split at harc
    · next state hs =>
      exact ⟨state, Array.mem_toList_iff.2 (Array.mem_of_getElem? hs),
        List.mem_map.2 ⟨arc, Array.mem_toList_iff.2 harc, rfl⟩⟩
    · cases Array.not_mem_empty _ harc

/-! ### What one layer finds -/

namespace Matcher

variable [Weight W] {m : Matcher W} {layer : Layer} {s : Nat} {label : Label}

omit [Weight W] in
theorem substitute_eq (hside : m.side = some .input) (special : Label) (arc : Arc W) :
    m.substitute special label arc = { arc with
      ilabel := label
      olabel := if m.substituteBoth && arc.olabel == special then label else arc.olabel } := by
  have hmatched : m.matched = .input := by rw [matched, hside, Option.getD_some]
  rw [substitute, hmatched]
  show (if m.substituteBoth && arc.olabel == special then
      ({ arc with ilabel := label, olabel := label } : Arc W) else { arc with ilabel := label }) = _
  split <;> rfl

omit [Weight W] in
theorem matching_eq (hside : m.side = some .input) :
    m.matching s label = (m.automaton.arcsAt s).toList.filter (·.ilabel == label) := by
  rw [matching, matched, hside]
  rfl

/-- What matches a label through one sigma or rho layer: the exact matches, and beside them, or in their place, the
arcs with the special label. -/
def wildcardMatches (m : Matcher W) (layer : Layer) (s : Nat) (label : Label) : List (Arc W) :=
  m.exactMatches s label ++
    if Proper label then copiesOf layer m.substituteBoth (m.automaton.arcsAt s).toList label else []

theorem find_wildcard (h : m.Reliable) (hside : m.side = some .input) (hlayers : m.layers = [layer])
    (hkind : layer.kind ≠ .phi) (hspecial : Proper layer.label) (hs : s < m.automaton.size)
    (hne : label ≠ layer.label) : m.find s label = .ok (m.wildcardMatches layer s label) := by
  rw [wildcardMatches, find, if_neg (by simp [hside]), hlayers]
  by_cases hlabel : Proper label
  · have hexact : m.findLayers [] s label = .ok (m.matching s label) := by
      rw [findLayers, findExact_eq h hs, exactMatches_of_ne hlabel.1 hlabel.2]
    have hwild : m.findLayers [] s layer.label = .ok (m.matching s layer.label) := by
      rw [findLayers, findExact_eq h hs, exactMatches_of_ne hspecial.1 hspecial.2]
    have hcopies : (m.matching s layer.label).map (m.substitute layer.label label) =
        ((m.automaton.arcsAt s).toList.filter (·.ilabel == layer.label)).map fun arc =>
          { arc with
            ilabel := label
            olabel := if m.substituteBoth && arc.olabel == layer.label then label else arc.olabel } := by
      rw [matching_eq hside]
      exact List.map_congr_left fun arc _ => substitute_eq hside layer.label arc
    rw [if_pos hlabel, exactMatches_of_ne hlabel.1 hlabel.2, findLayers, if_neg hlabel.not_passed, if_neg hne,
      copiesOf]
    cases hk : layer.kind with
    | sigma =>
      rw [if_neg (by simp), ← hcopies]
      simp only [hexact, hwild, bind, Except.bind, pure, Except.pure]
    | rho =>
      -- a rho arc matches only where no other arc does
      have hempty : m.matching s label = [] ↔ ¬∃ arc ∈ (m.automaton.arcsAt s).toList, arc.ilabel = label := by
        rw [matching_eq hside, List.filter_eq_nil_iff]
        simp
      simp only [hexact, bind, Except.bind, pure, Except.pure, hwild, List.isEmpty_iff]
      by_cases hnone : m.matching s label = []
      · rw [if_pos hnone, if_neg (fun hrho => hempty.1 hnone hrho.2), hnone, List.nil_append, hcopies]
      · rw [if_neg hnone, if_pos ⟨by simp, not_not.1 fun hother => hnone (hempty.2 hother)⟩, List.append_nil]
    | phi => exact absurd hk hkind
  · rw [if_neg hlabel, List.append_nil, findLayers_of_not_proper hlabel, findExact_eq h hs]

omit [Weight W] in
/-- Among the arcs of the automaton with the special arcs spelled out, those with a label are the ones that the
layer finds. -/
theorem matching_perm {m' : Matcher W} {both : Bool} {labels : List Label} (hside : m.side = some .input)
    (hside' : m'.side = some .input) (hspells : SpellsOut layer both labels m.automaton m'.automaton)
    (hdistinct : labels.Nodup) (label : Label) :
    (m'.matching s label).Perm
      (m.matching s label ++
        if label ∈ labels then copiesOf layer both (m.automaton.arcsAt s).toList label else []) := by
  rw [matching_eq hside, matching_eq hside', ← filter_copies hdistinct, ← List.filter_append]
  exact (hspells.arcsAt_perm s).filter _

/-- For the labels for which the special arcs are spelled out, and for the labels that pass through layers, the exact
matches are what the layer finds. -/
theorem exactMatches_perm {m' : Matcher W} {labels : List Label} (hside : m.side = some .input)
    (hside' : m'.side = some .input) (hspells : SpellsOut layer m.substituteBoth labels m.automaton m'.automaton)
    (hdistinct : labels.Nodup) (hepsilon : epsilon ∉ labels) (hlabel : Proper label → label ∈ labels) :
    (m'.exactMatches s label).Perm (m.wildcardMatches layer s label) := by
  have hperm := matching_perm hside hside' hspells hdistinct (s := s)
  have hsilent : (m'.matching s epsilon).Perm (m.matching s epsilon) := by
    simpa only [if_neg hepsilon, List.append_nil] using hperm epsilon
  by_cases hproper : Proper label
  · rw [wildcardMatches, exactMatches_of_ne hproper.1 hproper.2, exactMatches_of_ne hproper.1 hproper.2,
      if_pos hproper]
    simpa only [if_pos (hlabel hproper)] using hperm label
  · rw [wildcardMatches, if_neg hproper, List.append_nil]
    rcases not_and_or.1 hproper with heq | heq
    · obtain rfl := not_not.1 heq
      have hloop : m'.loopArc s = m.loopArc s := by simp only [loopArc, matched, hside, hside']
      rw [exactMatches_epsilon, exactMatches_epsilon, hloop]
      exact hsilent.cons _
    · obtain rfl := not_not.1 heq
      exact hsilent

end Matcher

namespace Composition

/-! ### Listing the left operand -/

section

variable [Weight W] {c : Composition W} {place : Place}

/-- The arcs that are listed at a state of the left operand, the implicit arc first. -/
def listing (a : Automaton W) (s : Nat) : List (Arc W) := ⟨epsilon, noLabel, 1, s⟩ :: (a.arcsAt s).toList

/-- The steps of a composite state whose left state is listed, by what is found for each label. -/
def stepsOf (a : Automaton W) (place : Place) (found : Label → List (Arc W)) : List (Step W) :=
  ((listing a place.left).flatMap fun arc => (found arc.olabel).map (Prod.mk arc)).filterMap
    (step? place.turn (mustMove a place.left) (mustMeet a place.left))

theorem stepsOf_perm {a : Automaton W} {found found' : Label → List (Arc W)}
    (h : ∀ arc ∈ listing a place.left, (found' arc.olabel).Perm (found arc.olabel)) :
    (stepsOf a place found').Perm (stepsOf a place found) :=
  (List.Perm.flatMap_left _ fun arc harc => (h arc harc).map _).filterMap _

/-- Where the left operand is listed, a composite state is expanded to what is found for its arcs. -/
theorem expands_of_find (hlisted : ∀ id, c.listed id place = .ok .left) (hrange : c.InRange place)
    {found : Label → List (Arc W)}
    (hfind : ∀ arc ∈ listing c.left.automaton place.left,
      c.right.find place.right arc.olabel = .ok (found arc.olabel)) :
    c.Expands place
      { final := finalWeight (c.left.automaton.final? place.left) (c.right.automaton.final? place.right)
        steps := stepsOf c.left.automaton place found } := by
  intro id
  have hpairs : c.pairs .left place = .ok
      ((listing c.left.automaton place.left).flatMap fun arc => (found arc.olabel).map (Prod.mk arc)) := by
    rw [pairs, Automaton.findArcs_eq hrange.1, List.flatMap_def]
    refine bind_eq_ok.2 ⟨_, rfl, bind_eq_ok.2 ⟨_, mapM_eq_ok (g := fun arc =>
      (found arc.olabel).map (Prod.mk arc)) fun arc harc => ?_, rfl⟩⟩
    rw [hfind arc harc]
    rfl
  rw [expand, Automaton.findFinal_eq hrange.1, Automaton.findFinal_eq hrange.2, Automaton.findArcs_eq hrange.1,
    hlisted]
  simp only [bind, Except.bind, pure, Except.pure, hpairs]
  rfl

omit [Weight W] in
theorem listed_eq_left (hplan : c.plan.operand = .left) (hlayers : c.left.layers = []) (hrange : c.InRange place)
    (id : Nat) : c.listed id place = .ok .left := by
  unfold listed
  cases hfixed : c.plan with
  | fixed operand =>
    rw [hfixed] at hplan
    exact congrArg _ hplan
  | perState =>
    have hleft : c.left.hasSpecialArcs place.left = .ok false := by
      simp [Matcher.hasSpecialArcs, Matcher.hasLayers, hlayers]
    obtain ⟨special, hright⟩ : ∃ special, c.right.hasSpecialArcs place.right = .ok special := by
      unfold Matcher.hasSpecialArcs
      split
      · rw [Automaton.findArcs_eq hrange.2]
        exact ⟨_, rfl⟩
      · exact ⟨_, rfl⟩
    rw [hleft, hright]
    rfl

end

/-- A right operand with layers is not listed, unless the options say so. -/
theorem Options.operand_of_plan {opts : Options} {plan : Plan} (h : opts.plan = .ok plan)
    (hdriver : opts.driver ≠ .right) (hlayers : opts.right.layers ≠ []) : plan.operand = .left := by
  obtain ⟨⟨l, _, _, _⟩, ⟨r, layers, _, _⟩, driver, _⟩ := opts
  have hplain : layers.isEmpty = false := by simpa using hlayers
  unfold Options.plan at h
  rcases l with _ | _ | _ <;> rcases r with _ | _ | _ <;> cases driver <;>
    simp [Options.fix, Matching.Config.isPlain, hplain] at h hdriver <;> (try split at h) <;> cases h <;> rfl

/-! ### Compositions that expand alike -/

section

variable [Weight W] {c c' : Composition W}

theorem agrees_of_expands (horigin : c'.origin = c.origin)
    (hrange : ∀ {place}, c'.InRange place → c.InRange place)
    (h : ∀ {place}, c.InRange place → ∃ expansion expansion', c.Expands place expansion ∧
      c'.Expands place expansion' ∧ expansion'.final = expansion.final ∧
      expansion'.steps.Perm expansion.steps) : c.Agrees c' ∧ c'.Agrees c := by
  refine ⟨⟨horigin, fun hexpands => ?_⟩, ⟨horigin.symm, fun hexpands => ?_⟩⟩
  · obtain ⟨_, expansion', hfirst, hexpands', hfinal, hperm⟩ := h hexpands.inRange
    obtain rfl := hexpands.unique hfirst
    exact ⟨expansion', hexpands', hfinal, hperm⟩
  · obtain ⟨expansion', _, hexpands', hfirst, hfinal, hperm⟩ := h (hrange hexpands.inRange)
    obtain rfl := hexpands.unique hfirst
    exact ⟨expansion', hexpands', hfinal.symm, hperm.symm⟩

theorem Agrees.withCaches (h : c.Agrees c') (left right left' right' : PropertyCache) :
    (c.withCaches left right).Agrees (c'.withCaches left' right') where
  origin_eq := h.origin_eq
  expands := fun {place expansion} hexpands => by
    rw [Expands, expand_withCaches] at hexpands
    obtain ⟨expansion', hexpands', hsame⟩ := h.expands hexpands
    refine ⟨expansion', ?_, hsame⟩
    rw [Expands, expand_withCaches]
    exact hexpands'

end

/-! ### Wildcards -/

section

variable [Weight W] {opts : Options} {plan : Plan} {a b b' : Automaton W} {layer : Layer}

/-- A composite state is expanded alike through one layer and with the arcs of the special label spelled out. -/
theorem exists_expands_of_spellsOut (hl : opts.left.layers = []) (hplan : opts.plan = .ok plan)
    (hoperand : plan.operand = .left) (hr : opts.right.layers = [layer])
    (hkind : layer.kind ≠ .phi) (hspecial : Proper layer.label) (hx : a.Avoids .output layer.label)
    (hspells : SpellsOut layer (Matcher.of opts.right b).substituteBoth a.written b b') {place : Place}
    (hrange : (of opts plan a b).InRange place) :
    ∃ expansion expansion', (of opts plan a b).Expands place expansion ∧
      (of {} .perState a b').Expands place expansion' ∧ expansion'.final = expansion.final ∧
      expansion'.steps.Perm expansion.steps := by
  have hrange' : (of {} .perState a b').InRange place := ⟨hrange.1, hspells.size_eq ▸ hrange.2⟩
  have hside := (Options.side_of_plan hplan).2 hoperand
  have hne : ∀ arc ∈ listing a place.left, arc.olabel ≠ layer.label := by
    rintro arc (_ | ⟨_, harc⟩)
    · exact hspecial.2.symm
    · exact hx arc (Array.mem_toList_iff.1 harc)
  refine ⟨_, _, expands_of_find (listed_eq_left hoperand hl hrange) hrange fun arc harc =>
      Matcher.find_wildcard (Matcher.reliable_of opts.right b) hside hr hkind hspecial hrange.2 (hne arc harc),
    expands_of_find (listed_eq_left rfl rfl hrange') hrange' fun arc harc =>
      Matcher.find_eq (Matcher.reliable_of {} b') rfl rfl hrange'.2 arc.olabel, ?_, stepsOf_perm fun arc harc => ?_⟩
  · exact congrArg (finalWeight (a.final? place.left)) (hspells.final?_eq place.right)
  · refine Matcher.exactMatches_perm hside rfl hspells (List.nodup_dedup _)
      (fun hmem => (Automaton.mem_written.1 hmem).1 rfl) fun hproper => ?_
    rcases List.mem_cons.1 harc with rfl | harc
    · exact absurd rfl hproper.2
    · exact Automaton.mem_written.2 ⟨hproper.1, place.left, arc, Array.mem_toList_iff.1 harc, rfl⟩

/-- Through one sigma or rho layer on the right, whose label the left operand does not write, two automata are
composed to the same composite states with the same weights and the same arcs, in whatever order, as without layers
if the arcs of the special label are spelled out for each label that the left operand writes. Or both are refused,
since some composite state cannot be expanded, which does not happen if the arcs of the operands stay within
them. -/
theorem rearranges_of_spellsOut (ha : a.CacheSound) (hb : b.CacheSound) (hb' : b'.CacheSound)
    (hl : opts.left.layers = []) (hdriver : opts.driver ≠ .right) (hr : opts.right.layers = [layer])
    (hkind : layer.kind ≠ .phi) (hx : a.Avoids .output layer.label)
    (hspells : SpellsOut layer (Matcher.of opts.right b).substituteBoth a.written b b') {c : Composition W}
    {operands : Automaton W × Automaton W} (hbuild : build opts (a, b) = .ok c operands) :
    ∃ c' operands', build {} (a, b') = .ok c' operands' ∧ c.Agrees c' ∧ c'.Agrees c ∧
      (∀ place, c'.Met place ↔ c.Met place) ∧
      (a.Confined → b.Confined → ∃ r memo, c.toAutomaton {} = .ok r memo) ∧
      ((c.Stuck ∧ ∃ e e' memo memo', c.toAutomaton {} = .error e memo ∧
        c'.toAutomaton {} = .error e' memo') ∨
      ∃ r r' memo memo', c.toAutomaton {} = .ok r memo ∧ c'.toAutomaton {} = .ok r' memo' ∧
        Completes c r memo.places ∧ Completes c' r' memo'.places ∧
        Rearranges r r' memo.places memo'.places) := by
  obtain ⟨-, hsymbols, -, hright⟩ := parts_of_build hbuild
  have hspecial : Proper layer.label :=
    (Config.fault?_eq_none_iff.1 (Matcher.fault?_of_build hright)).1 layer (by simp [hr])
  obtain ⟨plan, left, right, hplan, rfl⟩ := eq_of_build ha hb hbuild
  have hoperand := Options.operand_of_plan hplan hdriver (by simp [hr])
  have hsymbols' : checkSymbols a b' = .ok () := by
    rw [← hsymbols, checkSymbols, checkSymbols, hspells.symbols_eq.1]
  have hplan' : Options.plan {} = .ok .perState := rfl
  obtain ⟨left', right', hbuild'⟩ := exists_build ha hb' hplan' hsymbols' rfl rfl
  have hexpands : ∀ {place}, (of opts plan a b).InRange place → _ :=
    fun hrange => exists_expands_of_spellsOut hl hplan hoperand hr hkind hspecial hx hspells hrange
  have horigin : (of {} .perState a b').origin = (of opts plan a b).origin := by
    refine Option.ext fun place => ?_
    rw [origin_eq_some, origin_eq_some]
    show (∃ s t, a.start = some s ∧ b'.start = some t ∧ _) ↔ _
    rw [hspells.start_eq]
    rfl
  obtain ⟨hagrees, hagrees'⟩ := agrees_of_expands horigin
    (fun hrange => ⟨hrange.1, hspells.size_eq ▸ hrange.2⟩) hexpands
  have hagrees := hagrees.withCaches left right left' right'
  have hagrees' := hagrees'.withCaches left' right' left right
  refine ⟨_, _, hbuild', hagrees, hagrees', fun place => ⟨hagrees'.met, hagrees.met⟩, fun hca hcb => ?_, ?_⟩
  · have hall : ∀ {place}, ((of opts plan a b).withCaches left right).InRange place →
        ∃ expansion, ((of opts plan a b).withCaches left right).Expands place expansion := by
      intro place hrange
      obtain ⟨expansion, _, hfirst, -⟩ := hexpands hrange
      refine ⟨expansion, ?_⟩
      rw [Expands, expand_withCaches]
      exact hfirst
    obtain ⟨r, memo, heq, -⟩ := exists_completes_of_expands ⟨hca.start_lt, hca.target_lt⟩
      ⟨hcb.start_lt, hcb.target_lt⟩ hall
    exact ⟨r, memo, heq⟩
  · refine (hagrees.toAutomaton hagrees' (explored_empty _) (explored_empty _)).imp_right ?_
    rintro ⟨r, r', memo, memo', heq, heq', hcompletes, hcompletes'⟩
    exact ⟨r, r', memo, memo', heq, heq', hcompletes, hcompletes',
      hcompletes.rearranges hcompletes' hagrees hagrees'⟩

end

/-- An automaton that writes one of two labels. -/
def toggle : Automaton (ExactCost ℤ) where
  states := #[{ arcs := #[⟨1, 5, 1, 1⟩, ⟨2, 6, ⟨1⟩, 1⟩] }, { final := some 1 }]
  start := some 0

/-- On the right, 7 stands for every label that has no other match, on both sides of its arcs. -/
def throughRho : Options where
  right := { layers := [⟨.rho, 7⟩], substitution := .always }

/-- Of the two labels the rho arc matches one, so it is spelled out once. -/
theorem rearranges_of_spellsOut_toggle : ∃ c c' operands operands',
    build throughRho (toggle, Matcher.catchall) = .ok c operands ∧
      build {} (toggle, Matcher.catchall.spellOut ⟨.rho, 7⟩ true toggle.written) = .ok c' operands' ∧
      c.Agrees c' ∧ c'.Agrees c ∧
      ∃ r r' memo memo', c.toAutomaton {} = .ok r memo ∧ c'.toAutomaton {} = .ok r' memo' ∧
        Completes c r memo.places ∧ Completes c' r' memo'.places ∧
        Rearranges r r' memo.places memo'.places := by
  have ha : toggle.CacheSound := PropertyCache.sound_empty _
  have hb : Matcher.catchall.CacheSound := PropertyCache.sound_empty _
  have hb' : (Matcher.catchall.spellOut ⟨.rho, 7⟩ true toggle.written).CacheSound := PropertyCache.sound_empty _
  have hplan : throughRho.plan = .ok .perState := rfl
  obtain ⟨_, _, hbuild⟩ := exists_build ha hb hplan rfl rfl rfl
  obtain ⟨c', operands', hbuild', hagrees, hagrees', -, hok, ⟨-, e, _, memo, _, herror, -⟩ | hsame⟩ :=
    rearranges_of_spellsOut ha hb hb' rfl (by decide) rfl (by decide)
      (Automaton.forall_mem_arcsAt_iff.2 (by decide))
      (spellsOut_spellOut ⟨.rho, 7⟩ true toggle.written Matcher.catchall) hbuild
  · -- the arcs of both operands stay within them
    obtain ⟨r, memo', hr⟩ := hok (by decide) (by decide)
    cases herror.symm.trans hr
  · exact ⟨_, c', _, operands', hbuild, hbuild', hagrees, hagrees', hsame⟩

end Composition

end Transducer
