import Mathlib
import Transducer.Proofs.Composition.Exploration
import Transducer.Proofs.Composition.Operands
import Transducer.Proofs.Composition.Paths

/-!
# Compositions do not depend on the operand that is listed

Without layers it makes no difference which operand is listed and which one is asked, and whether the other
operand could be asked as well. Under any two options that are not refused, two automata are composed to the
same composite states with the same weights and the same arcs, in whatever order
(`rearranges_of_build`).

At each composite state both ways list the steps that are allowed, each of them once (`perm_chart`). So the
compositions agree on every composite state, and therefore on which of them can be met.
-/

namespace Transducer.Composition

variable {W : Type}

/-! ### Arcs in any order -/

/-- The arcs of a state, with the composite states to which they lead. -/
def placedArcs (places : Array Place) (r : Automaton W) (id : Nat) :
    List (Label × Label × W × Option Place) :=
  (r.arcsAt id).toList.map fun arc => (arc.ilabel, arc.olabel, arc.weight, places[arc.target]?)

theorem map_placed_eq {places : Array Place} {steps : List (Step W)} {arcs : List (Arc W)}
    (h : List.Forall₂ (Numbers places) steps arcs) :
    (arcs.map fun arc => (arc.ilabel, arc.olabel, arc.weight, places[arc.target]?)) =
      steps.map fun step => (step.ilabel, step.olabel, step.weight, some step.target) := by
  induction h with
  | nil => rfl
  | @cons step arc steps arcs hn _ ih =>
    rw [List.map_cons, List.map_cons, ih, hn.eq, hn.2]

/-- Both automata have states for the same composite states. The states of one composite state have the same
weight and the same arcs, in whatever order. -/
structure Rearranges (r r' : Automaton W) (places places' : Array Place) : Prop where
  mem_iff : ∀ {place : Place}, place ∈ places' ↔ place ∈ places
  final?_eq : ∀ {id id' : Nat} {place : Place}, places[id]? = some place → places'[id']? = some place →
    r'.final? id' = r.final? id
  arcsAt_perm : ∀ {id id' : Nat} {place : Place}, places[id]? = some place → places'[id']? = some place →
    (placedArcs places' r' id').Perm (placedArcs places r id)

variable [Weight W]

theorem Completes.rearranges {c c' : Composition W} {r r' : Automaton W} {places places' : Array Place}
    (h : Completes c r places) (h' : Completes c' r' places') (hagrees : c.Agrees c')
    (hagrees' : c'.Agrees c) : Rearranges r r' places places' := by
  -- the expansions of one composite state
  have hexpanded : ∀ {id id' : Nat} {place : Place}, places[id]? = some place → places'[id']? = some place →
      r'.final? id' = r.final? id ∧ (placedArcs places' r' id').Perm (placedArcs places r id) := by
    intro id id' place hid hid'
    obtain ⟨expansion, hexpands, hfinal, harcs⟩ := h.expanded hid
    obtain ⟨expansion', hexpands', hfinal', harcs'⟩ := h'.expanded hid'
    obtain ⟨_, hsame, hweight, hperm⟩ := hagrees.expands hexpands
    obtain rfl := hexpands'.unique hsame
    refine ⟨hfinal'.trans (hweight.trans hfinal.symm), ?_⟩
    rw [placedArcs, placedArcs, map_placed_eq harcs, map_placed_eq harcs']
    exact hperm.map _
  exact
    { mem_iff := h'.mem_iff.trans (Iff.trans ⟨hagrees'.met, hagrees.met⟩ h.mem_iff.symm)
      final?_eq := fun hid hid' => (hexpanded hid hid').1
      arcsAt_perm := fun hid hid' => (hexpanded hid hid').2 }

/-! ### Either operand listed -/

section

variable {a b : Automaton W}

/-- To list either operand gives the same chart, in whatever order. -/
theorem perm_chart {place : Place} (ha : ∀ arc ∈ a.arcsAt place.left, arc.olabel ≠ noLabel)
    (hb : ∀ arc ∈ b.arcsAt place.right, arc.ilabel ≠ noLabel) (operand operand' : Operand) :
    (chart a b operand place).Perm (chart a b operand' place) := by
  refine (List.perm_ext_iff_of_nodup nodup_chart.of_map nodup_chart.of_map).2 fun ⟨move, step⟩ => ?_
  rw [mem_chart ha hb, mem_chart ha hb]

variable {opts opts' : Options}

/-- Without layers, two automata agree with themselves under all options that are not refused. -/
theorem agrees_of_no_layers (hla : ∀ {s : Nat}, ∀ arc ∈ a.arcsAt s, arc.olabel ≠ noLabel)
    (hlb : ∀ {s : Nat}, ∀ arc ∈ b.arcsAt s, arc.ilabel ≠ noLabel) {plan plan' : Plan}
    (hplan : opts.plan = .ok plan) (hplan' : opts'.plan = .ok plan')
    (hl : opts.left.layers = []) (hr : opts.right.layers = []) (hl' : opts'.left.layers = [])
    (hr' : opts'.right.layers = []) (left right left' right' : PropertyCache) :
    ((of opts plan a b).withCaches left right).Agrees ((of opts' plan' a b).withCaches left' right') where
  origin_eq := rfl
  expands := fun {place expansion} hexpands => by
    obtain rfl := hexpands.unique ((plain_of hplan hl hr hla hlb left right).expands hexpands.inRange)
    have hrange : ((of opts' plan' a b).withCaches left' right').InRange place := hexpands.inRange
    have hexpands' := (plain_of hplan' hl' hr' hla hlb left' right').expands hrange
    exact ⟨_, hexpands', rfl, (perm_chart hla hlb _ _).map Prod.snd⟩

/-- Under any two options without layers that are not refused, two automata have the same composition, but for
the order of arcs and the numbers of states; or it is refused both times, since some composite state cannot be
expanded, which does not happen if their arcs stay within them. -/
theorem rearranges_of_build (hla : ∀ {s : Nat}, ∀ arc ∈ a.arcsAt s, arc.olabel ≠ noLabel)
    (hlb : ∀ {s : Nat}, ∀ arc ∈ b.arcsAt s, arc.ilabel ≠ noLabel) {cache cache' : PropertyCache}
    (ha : a.CacheSound) (hb : b.CacheSound) (ha' : Automaton.CacheSound { a with cache })
    (hb' : Automaton.CacheSound { b with cache := cache' }) (hl : opts.left.layers = [])
    (hr : opts.right.layers = []) (hl' : opts'.left.layers = []) (hr' : opts'.right.layers = [])
    {c c' : Composition W} {operands operands' : Automaton W × Automaton W}
    (hbuild : build opts (a, b) = .ok c operands)
    (hbuild' : build opts' ({ a with cache }, { b with cache := cache' }) = .ok c' operands') :
    (a.WellFormed → b.WellFormed → ∃ r memo, c.toAutomaton {} = .ok r memo) ∧
    ((c.Stuck ∧ ∃ e e' memo memo', c.toAutomaton {} = .error e memo ∧ c'.toAutomaton {} = .error e' memo') ∨
    ∃ r r' memo memo', c.toAutomaton {} = .ok r memo ∧ c'.toAutomaton {} = .ok r' memo' ∧
      Completes c r memo.places ∧ Completes c' r' memo'.places ∧
      Rearranges r r' memo.places memo'.places) := by
  obtain ⟨plan, left, right, hplan, rfl⟩ := eq_of_build ha hb hbuild
  obtain ⟨plan', left', right', hplan', rfl⟩ := eq_of_build ha' hb' hbuild'
  have hagrees := agrees_of_no_layers hla hlb hplan hplan' hl hr hl' hr' left right left' right'
  have hagrees' := agrees_of_no_layers hla hlb hplan' hplan hl' hr' hl hr left' right' left right
  constructor
  · intro hwa hwb
    obtain ⟨r, memo, heq, -⟩ := (plain_of hplan hl hr hla hlb left right).exists_completes
      ⟨hwa.start_lt, hwa.target_lt, hwa.isZero_final⟩ ⟨hwb.start_lt, hwb.target_lt, hwb.isZero_final⟩
    exact ⟨r, memo, heq⟩
  · refine (hagrees.toAutomaton hagrees' (explored_empty _) (explored_empty _)).imp_right ?_
    rintro ⟨r, r', memo, memo', heq, heq', hcompletes, hcompletes'⟩
    exact ⟨r, r', memo, memo', heq, heq', hcompletes, hcompletes',
      hcompletes.rearranges hcompletes' hagrees hagrees'⟩

end

/-- The left operand is listed and cannot be asked. -/
def listLeft : Options := { driver := .left, left := { side := none } }

/-- The right operand is listed and cannot be asked. -/
def listRight : Options := { driver := .right, right := { side := none } }

/-- Where either operand can move alone first, it makes no difference which one is listed. -/
theorem rearranges_of_build_deleter_inserter : ∃ c c' operands operands',
    build listLeft (deleter, inserter) = .ok c operands ∧
      build listRight (deleter, inserter) = .ok c' operands' ∧
      ∃ r r' memo memo', c.toAutomaton {} = .ok r memo ∧ c'.toAutomaton {} = .ok r' memo' ∧
        Completes c r memo.places ∧ Completes c' r' memo'.places ∧
        Rearranges r r' memo.places memo'.places := by
  have ha : deleter.CacheSound := PropertyCache.sound_empty _
  have hb : inserter.CacheSound := PropertyCache.sound_empty _
  have hplan : listLeft.plan = .ok (.fixed .left) := rfl
  have hplan' : listRight.plan = .ok (.fixed .right) := rfl
  obtain ⟨_, _, hbuild⟩ := exists_build ha hb hplan rfl rfl rfl
  obtain ⟨_, _, hbuild'⟩ := exists_build ha hb hplan' rfl rfl rfl
  refine ⟨_, _, _, _, hbuild, hbuild', ?_⟩
  obtain ⟨hok, ⟨-, e, _, memo, _, herror, -⟩ | hsame⟩ := rearranges_of_build (a := deleter) (b := inserter)
    (Automaton.forall_mem_arcsAt_iff.2 (by decide)) (Automaton.forall_mem_arcsAt_iff.2 (by decide)) ha hb ha hb
    rfl rfl rfl rfl hbuild hbuild'
  · -- the arcs of both operands stay within them
    obtain ⟨r, memo', hr⟩ := hok (by decide) (by decide)
    cases herror.symm.trans hr
  · exact hsame

end Transducer.Composition
