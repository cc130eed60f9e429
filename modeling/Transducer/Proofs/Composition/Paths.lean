import Mathlib
import Transducer.Proofs.Automaton.Trim
import Transducer.Proofs.Composition.Exploration
import Transducer.Proofs.Composition.Interleaving
import Transducer.Proofs.Composition.Operands
import Transducer.Proofs.Weight.Exact

/-!
# The paths of a composition

The accepting paths of a composition are the matching pairs of accepting paths of its operands:
`exists_equiv_pairs` for what is built on demand, `exists_equiv_compose` for the composition of two automata
with all its options.

A path of the composition is followed move by move (`Follows`). It determines the moves, since each arc is
a step of the chart of its composite state, and is determined by them, since no chart has a move twice.
The moves are a run of the operands, and the two ways of a run determine it in turn.
-/

namespace Transducer.Composition

open Transducer.Automaton

variable {W : Type} [Weight W]

/-! ### Final weights -/

/-- Two states that are final are final together. -/
theorem finalWeight_eq_some [NoZeroProducts W] {left right : Option W}
    (hl : ∀ u, left = some u → isZero u = false) (hr : ∀ v, right = some v → isZero v = false) {w : W} :
    finalWeight left right = some w ↔ ∃ u v, left = some u ∧ right = some v ∧ w = u * v := by
  constructor
  · intro hw
    unfold finalWeight at hw
    split at hw
    · next u v =>
      split at hw
      · cases hw
      · exact ⟨u, v, rfl, rfl, (Option.some.inj hw).symm⟩
    · cases hw
  · rintro ⟨u, v, rfl, rfl, rfl⟩
    refine if_neg fun hzero => ?_
    rcases NoZeroProducts.isZero_mul u v hzero with hzero | hzero
    · rw [hl u rfl] at hzero
      cases hzero
    · rw [hr v rfl] at hzero
      cases hzero

/-! ### Operands without layers -/

/-- Operands without layers whose arcs stay within them are composed as a whole. -/
theorem Plain.exists_completes {c : Composition W} (h : Plain c) (ha : c.left.automaton.WellFormed)
    (hb : c.right.automaton.WellFormed) :
    ∃ r memo, c.toAutomaton {} = .ok r memo ∧ Completes c r memo.places :=
  exists_completes_of_expands ha.confined hb.confined fun hrange => ⟨_, h.expands hrange⟩

/-- The moves that are possible at a composite state. -/
def movesAt (c : Composition W) (place : Place) : List (Move × Step W) :=
  chart c.left.automaton c.right.automaton c.plan.operand place

section Presented

variable {c : Composition W} {r : Automaton W} {places : Array Place}

theorem Presents.final?_eq (hp : Presents c r places) (h : Plain c) {id : Nat} {place : Place}
    (hid : places[id]? = some place) :
    r.final? id =
      finalWeight (c.left.automaton.final? place.left) (c.right.automaton.final? place.right) := by
  obtain ⟨expansion, hexpands, hfinal, -⟩ := hp.expanded hid
  obtain rfl := hexpands.unique (h.expands hexpands.inRange)
  exact hfinal

theorem Presents.arcsAt_eq (hp : Presents c r places) (h : Plain c) {id : Nat} {place : Place}
    (hid : places[id]? = some place) :
    List.Forall₂ (fun x arc => Numbers places x.2 arc) (c.movesAt place) (r.arcsAt id).toList := by
  obtain ⟨expansion, hexpands, -, harcs⟩ := hp.expanded hid
  obtain rfl := hexpands.unique (h.expands hexpands.inRange)
  exact List.forall₂_map_left_iff.1 harcs

/-- The arcs at the positions of a way make these moves and steps. -/
inductive Follows (c : Composition W) (r : Automaton W) (places : Array Place) :
    Nat → List Nat → List (Arc W) → List Move → List (Step W) → Nat → Prop where
  /-- No arc, no move. -/
  | nil (id : Nat) : Follows c r places id [] [] [] [] id
  /-- An arc and the move that makes it. -/
  | cons {id id' k : Nat} {place : Place} {arc : Arc W} {move : Move} {step : Step W} {ks : List Nat}
      {arcs : List (Arc W)} {moves : List Move} {steps : List (Step W)} :
      places[id]? = some place → (c.movesAt place)[k]? = some (move, step) →
      (r.arcsAt id)[k]? = some arc → Numbers places step arc →
      Follows c r places arc.target ks arcs moves steps id' →
      Follows c r places id (k :: ks) (arc :: arcs) (move :: moves) (step :: steps) id'

namespace Follows

variable {id id' id'' : Nat} {ks ks' : List Nat} {arcs arcs' : List (Arc W)} {moves moves' : List Move}
  {steps steps' : List (Step W)}

theorem way (h : Follows c r places id ks arcs moves steps id') : r.Way id ks arcs id' := by
  induction h with
  | nil id => exact .nil id
  | cons _ _ hk _ _ ih => exact .cons hk ih

theorem content_eq (h : Follows c r places id ks arcs moves steps id') :
    arcs.map Arc.content = steps.map Step.content := by
  induction h with
  | nil id => rfl
  | cons _ _ _ hn _ ih => rw [List.map_cons, List.map_cons, hn.1, ih]

/-- The moves are a run of the operands. -/
theorem run (h : Plain c) (hf : Follows c r places id ks arcs moves steps id') {place : Place}
    (hid : places[id]? = some place) :
    ∃ place', places[id']? = some place' ∧
      Run c.left.automaton c.right.automaton place moves steps place' := by
  induction hf generalizing place with
  | nil id => exact ⟨place, hid, .nil place⟩
  | cons hid' hmove _ hn _ ih =>
    obtain rfl := Option.some.inj (hid.symm.trans hid')
    obtain ⟨place', hplace', hrun⟩ := ih hn.2
    exact ⟨place', hplace', .cons ((mem_chart h.left_ne h.right_ne).1 (List.mem_of_getElem? hmove)) hrun⟩

/-- The positions determine the moves. -/
theorem moves_unique (h : Follows c r places id ks arcs moves steps id')
    (h' : Follows c r places id ks arcs' moves' steps' id'') : moves = moves' := by
  induction h generalizing arcs' moves' steps' with
  | nil id => cases h'; rfl
  | cons hid hmove hk _ _ ih =>
    cases h' with
    | cons hid' hmove' hk' _ h' =>
      obtain rfl := Option.some.inj (hid.symm.trans hid')
      obtain ⟨rfl, rfl⟩ := Prod.mk.inj (Option.some.inj (hmove.symm.trans hmove'))
      obtain rfl := Option.some.inj (hk.symm.trans hk')
      rw [ih h']

/-- The moves determine the positions. -/
theorem positions_unique (h : Follows c r places id ks arcs moves steps id')
    (h' : Follows c r places id ks' arcs' moves steps' id'') : ks = ks' := by
  induction h generalizing ks' arcs' steps' with
  | nil id => cases h'; rfl
  | @cons id id' k place arc move step ks arcs moves steps hid hmove hk hn _ ih =>
    cases h' with
    | @cons _ _ k' place' _ _ step' ks' _ _ _ hid' hmove' hk' _ h' =>
      obtain rfl := Option.some.inj (hid.symm.trans hid')
      -- no move stands at two positions of the chart
      obtain rfl : k = k' := by
        have hfst : ∀ {k : Nat} {step : Step W}, (c.movesAt place)[k]? = some (move, step) →
            ((c.movesAt place).map Prod.fst)[k]? = some move := by
          intro k step hk
          rw [List.getElem?_map, hk]
          rfl
        have hlt := (List.getElem?_eq_some_iff.1 (hfst hmove)).1
        exact (List.getElem?_inj hlt nodup_chart).1 ((hfst hmove).trans (hfst hmove').symm)
      obtain rfl := Option.some.inj (hk.symm.trans hk')
      rw [ih h']

end Follows

/-- A way of the composition follows some moves. -/
theorem Presents.follows_of_way (hp : Presents c r places) (h : Plain c) {id id' : Nat} {ks : List Nat}
    {arcs : List (Arc W)} (hway : r.Way id ks arcs id') {place : Place} (hid : places[id]? = some place) :
    ∃ moves steps, Follows c r places id ks arcs moves steps id' := by
  induction hway generalizing place with
  | nil id => exact ⟨[], [], .nil id⟩
  | @cons id k id' arc ks arcs hk _ ih =>
    have harcs := hp.arcsAt_eq h hid
    have hlt : k < (c.movesAt place).length := by
      rw [harcs.length_eq]
      simpa using (Array.getElem?_eq_some_iff.1 hk).1
    have hmove : (c.movesAt place)[k]? = some (c.movesAt place)[k] := List.getElem?_eq_getElem hlt
    have hn : Numbers places (c.movesAt place)[k].2 arc := by
      rw [← Array.getElem?_toList] at hk
      obtain ⟨hlt', rfl⟩ := List.getElem?_eq_some_iff.1 hk
      exact harcs.get hlt hlt'
    obtain ⟨moves, steps, hf⟩ := ih hn.2
    exact ⟨_, _, .cons hid hmove hk hn hf⟩

/-- The moves of a run are followed by a way of the composition. -/
theorem Presents.follows_of_run (hp : Presents c r places) (h : Plain c) {place place' : Place}
    {moves : List Move} {steps : List (Step W)}
    (hrun : Run c.left.automaton c.right.automaton place moves steps place') {id : Nat}
    (hid : places[id]? = some place) :
    ∃ ks arcs id', places[id']? = some place' ∧ Follows c r places id ks arcs moves steps id' := by
  induction hrun generalizing id with
  | nil place => exact ⟨[], [], id, hid, .nil id⟩
  | @cons place _ move step _ _ hallowed _ ih =>
    have harcs := hp.arcsAt_eq h hid
    obtain ⟨k, hmove⟩ : ∃ k : Nat, (c.movesAt place)[k]? = some (move, step) :=
      List.getElem?_of_mem ((mem_chart h.left_ne h.right_ne).2 hallowed)
    obtain ⟨hlt, hget⟩ := List.getElem?_eq_some_iff.1 hmove
    have hlt' : k < (r.arcsAt id).toList.length := harcs.length_eq ▸ hlt
    have hk : (r.arcsAt id)[k]? = some (r.arcsAt id).toList[k] := by
      rw [← Array.getElem?_toList]
      exact List.getElem?_eq_getElem hlt'
    have hn := harcs.get hlt hlt'
    simp only [List.get_eq_getElem, hget] at hn
    obtain ⟨ks, arcs, id', hplace', hf⟩ := ih hn.2
    exact ⟨_, _, id', hplace', .cons hid hmove hk hn hf⟩

/-! ### Pairs of paths -/

/-- The pairs of accepting paths of which the first writes what the second reads. -/
abbrev MatchingPair (a b : Automaton W) : Type :=
  { pair : AcceptingPath a × AcceptingPath b // pair.1.labels .output = pair.2.labels .input }

/-- The path reads what the first path of the pair reads, writes what the second one writes, and weighs
what both weigh. -/
def Carries {a b r : Automaton W} (p : AcceptingPath r) (pair : MatchingPair a b) : Prop :=
  p.labels .input = pair.1.1.labels .input ∧ p.labels .output = pair.1.2.labels .output ∧
    p.weight = pair.1.1.weight * pair.1.2.weight

/-- The path follows moves of which the pair makes up the two ways. -/
def Joins (c : Composition W) (places : Array Place) (p : AcceptingPath r)
    (pair : MatchingPair c.left.automaton c.right.automaton) : Prop :=
  ∃ moves steps, Follows c r places p.first p.places p.arcs moves steps p.last ∧
    lefts moves = pair.1.1.places ∧ rights moves = pair.1.2.places

theorem Presents.final?_eq_some [NoZeroProducts W] (hp : Presents c r places) (h : Plain c)
    (ha : c.left.automaton.WellFormed) (hb : c.right.automaton.WellFormed) {id : Nat} {place : Place}
    (hid : places[id]? = some place) {w : W} :
    r.final? id = some w ↔ ∃ u v, c.left.automaton.final? place.left = some u ∧
      c.right.automaton.final? place.right = some v ∧ w = u * v := by
  rw [hp.final?_eq h hid]
  exact finalWeight_eq_some (fun u => ha.isZero_final) fun v => hb.isZero_final

section

variable {p q : AcceptingPath r} {pair pair' : MatchingPair c.left.automaton c.right.automaton} {s t first : Nat}

theorem Joins.pair_unique (h : Joins c places p pair) (h' : Joins c places p pair') : pair = pair' := by
  obtain ⟨⟨l, r⟩, hlr⟩ := pair
  obtain ⟨⟨l', r'⟩, hlr'⟩ := pair'
  obtain ⟨moves, steps, hf, hl, hr⟩ := h
  obtain ⟨moves', steps', hf', hl', hr'⟩ := h'
  obtain rfl := hf.moves_unique hf'
  obtain rfl : l = l' := AcceptingPath.ext_places (hl.symm.trans hl')
  obtain rfl : r = r' := AcceptingPath.ext_places (hr.symm.trans hr')
  rfl

theorem Joins.path_unique (hplain : Plain c) (hstart : r.start = some first)
    (hplace : places[first]? = some ⟨s, t, .either⟩) (h : Joins c places p pair) (h' : Joins c places q pair) :
    p = q := by
  obtain ⟨moves, steps, hf, hl, hr⟩ := h
  obtain ⟨moves', steps', hf', hl', hr'⟩ := h'
  rw [p.first_eq hstart] at hf
  rw [q.first_eq hstart] at hf'
  obtain ⟨place, -, hrun⟩ := hf.run hplain hplace
  obtain ⟨place', -, hrun'⟩ := hf'.run hplain hplace
  obtain rfl := hrun.unique hrun' (hl.trans hl'.symm) (hr.trans hr'.symm)
  exact AcceptingPath.ext_places (hf.positions_unique hf')

variable [CommMul W] [NoZeroProducts W]

/-- Every path is joined from some pair. -/
theorem Presents.exists_joined (hp : Presents c r places) (h : Plain c) (ha : c.left.automaton.WellFormed)
    (hb : c.right.automaton.WellFormed) (hs : c.left.automaton.start = some s)
    (ht : c.right.automaton.start = some t) (hstart : r.start = some first)
    (hplace : places[first]? = some ⟨s, t, .either⟩) (p : AcceptingPath r) : ∃ pair, Joins c places p pair := by
  obtain ⟨id, ks, arcs, id', w, hid, hway, hw⟩ := p
  obtain rfl := Option.some.inj (hid.symm.trans hstart)
  obtain ⟨moves, steps, hf⟩ := hp.follows_of_way h hway hplace
  obtain ⟨place', hplace', hrun⟩ := hf.run h hplace
  obtain ⟨ls, rs, hl, hr, hmatch, -, -, -⟩ := hrun.ways hf.content_eq
  obtain ⟨u, v, hu, hv, rfl⟩ := (hp.final?_eq_some h ha hb hplace').1 hw
  exact ⟨⟨(⟨_, _, ls, _, u, hs, hl, hu⟩, ⟨_, _, rs, _, v, ht, hr, hv⟩), hmatch⟩, moves, steps, hf, rfl, rfl⟩

omit [CommMul W] in
/-- Every matching pair joins to some path. -/
theorem Presents.exists_joining (hp : Presents c r places) (h : Plain c) (ha : c.left.automaton.WellFormed)
    (hb : c.right.automaton.WellFormed) (hs : c.left.automaton.start = some s)
    (ht : c.right.automaton.start = some t) (hstart : r.start = some first)
    (hplace : places[first]? = some ⟨s, t, .either⟩)
    (pair : MatchingPair c.left.automaton c.right.automaton) : ∃ p : AcceptingPath r, Joins c places p pair := by
  obtain ⟨⟨⟨s', ps, ls, s'', u, hs', hl, hu⟩, ⟨t', qs, rs, t'', v, ht', hr', hv⟩⟩, hmatch⟩ := pair
  obtain rfl := Option.some.inj (hs.symm.trans hs')
  obtain rfl := Option.some.inj (ht.symm.trans ht')
  obtain ⟨moves, steps, place', hrun, rfl, rfl, rfl, rfl⟩ :=
    exists_run .either hl hr' hmatch (by rw [hu]; rfl) nofun
  obtain ⟨ks, arcs, id', hplace', hf⟩ := hp.follows_of_run h hrun hplace
  have hw := (hp.final?_eq_some h ha hb hplace').2 ⟨u, v, hu, hv, rfl⟩
  exact ⟨⟨first, ks, arcs, id', u * v, hstart, hf.way, hw⟩, moves, steps, hf, rfl, rfl⟩

/-- A path carries what the pair carries that it is joined from. -/
theorem Presents.carries (hp : Presents c r places) (h : Plain c) (ha : c.left.automaton.WellFormed)
    (hb : c.right.automaton.WellFormed) (hs : c.left.automaton.start = some s)
    (ht : c.right.automaton.start = some t) (hstart : r.start = some first)
    (hplace : places[first]? = some ⟨s, t, .either⟩) (hjoins : Joins c places p pair) : Carries p pair := by
  obtain ⟨moves, steps, hf, hl, hr⟩ := hjoins
  rw [p.first_eq hstart] at hf
  obtain ⟨place', hplace', hrun⟩ := hf.run h hplace
  obtain ⟨ls, rs, hls, hrs, -, hread, hwrite, hweigh⟩ := hrun.ways hf.content_eq
  obtain ⟨u, v, hu, hv, heq⟩ := (hp.final?_eq_some h ha hb hplace').1 p.final_eq
  rw [hl] at hls
  rw [hr] at hrs
  have hway := pair.1.1.way
  have hway' := pair.1.2.way
  rw [pair.1.1.first_eq hs] at hway
  rw [pair.1.2.first_eq ht] at hway'
  obtain ⟨rfl, hlast⟩ := hls.unique hway
  obtain ⟨rfl, hlast'⟩ := hrs.unique hway'
  rw [hlast] at hu
  rw [hlast'] at hv
  obtain rfl := Option.some.inj (hu.symm.trans pair.1.1.final_eq)
  obtain rfl := Option.some.inj (hv.symm.trans pair.1.2.final_eq)
  refine ⟨hread, hwrite, ?_⟩
  rw [AcceptingPath.weight, heq, hweigh]
  rfl

/-- A composition that presents the composite states that are met has a path for each matching pair. -/
theorem Presents.exists_equiv (hp : Presents c r places) (h : Plain c) (ha : c.left.automaton.WellFormed)
    (hb : c.right.automaton.WellFormed) (hs : c.left.automaton.start = some s)
    (ht : c.right.automaton.start = some t) (hstart : r.start = some first)
    (hplace : places[first]? = some ⟨s, t, .either⟩) :
    ∃ e : AcceptingPath r ≃ MatchingPair c.left.automaton c.right.automaton, ∀ p, Carries p (e p) := by
  obtain ⟨e, he⟩ := exists_equiv_of_related (hp.exists_joined h ha hb hs ht hstart hplace)
    (hp.exists_joining h ha hb hs ht hstart hplace) Joins.pair_unique (Joins.path_unique h hstart hplace)
  exact ⟨e, fun p => hp.carries h ha hb hs ht hstart hplace (he p)⟩

end

end Presented

/-- What is built on demand has a path for each matching pair of paths of the operands. -/
theorem exists_equiv_pairs [CommMul W] [NoZeroProducts W] {c : Composition W} (h : Plain c)
    (ha : c.left.automaton.WellFormed) (hb : c.right.automaton.WellFormed) :
    ∃ r memo, c.toAutomaton {} = .ok r memo ∧ r.WellFormed ∧
      ∃ e : AcceptingPath r ≃ MatchingPair c.left.automaton c.right.automaton, ∀ p, Carries p (e p) := by
  obtain ⟨r, memo, heq, hc⟩ := h.exists_completes ha hb
  refine ⟨r, memo, heq, hc.wellFormed, ?_⟩
  cases horigin : c.origin with
  | some place =>
    obtain ⟨s, t, hs, ht, rfl⟩ := origin_eq_some.1 horigin
    obtain ⟨first, hplace⟩ := Array.getElem?_of_mem (hc.mem_iff.2 (.origin horigin))
    have hstart := hc.start_iff.2 ⟨_, horigin, hplace⟩
    exact hc.toPresents.exists_equiv h ha hb hs ht hstart hplace
  | none =>
    -- without a start there is no path on either side
    refine (exists_equiv_of_related (R := fun _ _ => False) ?_ ?_ ?_ ?_).imp fun e he p => (he p).elim
    · intro p
      obtain ⟨place, hplace, -⟩ := hc.start_iff.1 p.start_eq
      cases horigin.symm.trans hplace
    · intro pair
      cases horigin.symm.trans (origin_eq_some.2 ⟨_, _, pair.1.1.start_eq, pair.1.2.start_eq, rfl⟩)
    · exact fun h => h.elim
    · exact fun h => h.elim

/-! ### The composition of two automata -/

/-- Without layers, what two automata are composed from is plain. Beside what is cached it is the automata
themselves. -/
theorem build_eq {a b : Automaton W} (ha : a.CacheSound) (hb : b.CacheSound)
    (hla : ∀ {s : Nat}, ∀ arc ∈ a.arcsAt s, arc.olabel ≠ noLabel)
    (hlb : ∀ {s : Nat}, ∀ arc ∈ b.arcsAt s, arc.ilabel ≠ noLabel)
    (hsymbols : ∀ written read, a.outputSymbols = some written → b.inputSymbols = some read →
      written.isCompatible read = true)
    {opts : Options} {plan : Plan} (hplan : opts.plan = .ok plan) (hl : opts.left.layers = [])
    (hr : opts.right.layers = []) :
    ∃ c cache cache', build opts (a, b) = .ok c ({ a with cache }, { b with cache := cache' }) ∧
      Plain c ∧ c.left.automaton = { a with cache } ∧ c.right.automaton = { b with cache := cache' } := by
  have hcheck : checkSymbols a b = .ok () := by
    unfold checkSymbols
    split
    · next written read hw hr => rw [if_pos (hsymbols written read hw hr)]
    · rfl
  obtain ⟨cache, cache', hbuild⟩ := exists_build ha hb hplan hcheck
    (Matching.Config.fault?_of_no_layers hl) (Matching.Config.fault?_of_no_layers hr)
  exact ⟨_, cache, cache', hbuild, plain_of hplan hl hr hla hlb cache cache', rfl, rfl⟩

/-- The accepting paths of a composition, trimmed or not, correspond one-to-one to the pairs of accepting
paths of which the first writes what the second reads, and carry the labels and the weights of both. This
holds under all options without layers that are not refused. -/
theorem exists_equiv_compose [CommMul W] [NoZeroProducts W] {a b : Automaton W} (ha : a.WellFormed)
    (hb : b.WellFormed) (hca : a.CacheSound) (hcb : b.CacheSound)
    (hla : ∀ {s : Nat}, ∀ arc ∈ a.arcsAt s, arc.olabel ≠ noLabel)
    (hlb : ∀ {s : Nat}, ∀ arc ∈ b.arcsAt s, arc.ilabel ≠ noLabel)
    (hsymbols : ∀ written read, a.outputSymbols = some written → b.inputSymbols = some read →
      written.isCompatible read = true)
    {opts : Options} {plan : Plan} (hplan : opts.plan = .ok plan) (hl : opts.left.layers = [])
    (hr : opts.right.layers = []) :
    ∃ r operands, compose opts (a, b) = .ok r operands ∧
      ∃ e : AcceptingPath r ≃ MatchingPair a b, ∀ p, Carries p (e p) := by
  obtain ⟨c, cache, cache', hbuild, hplain, hleft, hright⟩ :=
    build_eq hca hcb hla hlb hsymbols hplan hl hr
  have hpairs := exists_equiv_pairs hplain (by rw [hleft]; exact ⟨ha.start_lt, ha.target_lt, ha.isZero_final⟩)
    (by rw [hright]; exact ⟨hb.start_lt, hb.target_lt, hb.isZero_final⟩)
  rw [hleft, hright] at hpairs
  obtain ⟨r, memo, heq, hwf, e, he⟩ := hpairs
  let pairs : MatchingPair { a with cache } { b with cache := cache' } ≃ MatchingPair a b :=
    ((AcceptingPath.withCache cache).symm.prodCongr (AcceptingPath.withCache cache').symm).subtypeEquiv
      fun _ => Iff.rfl
  cases htrim : opts.trim with
  | false =>
    refine ⟨r, ({ a with cache }, { b with cache := cache' }), ?_, e.trans pairs, he⟩
    simp only [compose, bind, EStateM.bind, hbuild, heq, htrim]
    rfl
  | true =>
    obtain ⟨trimmed, hcontent⟩ := exists_equiv_trim hwf.start_lt
    refine ⟨r.trim, ({ a with cache }, { b with cache := cache' }), ?_,
      (trimmed.symm.trans e).trans pairs, fun p => ?_⟩
    · simp only [compose, bind, EStateM.bind, hbuild, heq, htrim]
      rfl
    · have hp : (trimmed.symm p).content = p.content := by
        rw [← hcontent, Equiv.apply_symm_apply]
      obtain ⟨hread, hwrite, hweight⟩ := he (trimmed.symm p)
      exact ⟨(AcceptingPath.labels_congr hp .input).symm.trans hread,
        (AcceptingPath.labels_congr hp .output).symm.trans hwrite,
        (AcceptingPath.weight_congr hp).symm.trans hweight⟩

/-- An automaton that reads a label and writes nothing. -/
def deleter : Automaton (ExactCost ℤ) where
  states := #[{ arcs := #[⟨1, epsilon, ⟨2⟩, 1⟩] }, { final := some ⟨3⟩ }]
  start := some 0

/-- An automaton that reads nothing and writes a label. -/
def inserter : Automaton (ExactCost ℤ) where
  states := #[{ arcs := #[⟨epsilon, 4, ⟨5⟩, 1⟩] }, { final := some 1 }]
  start := some 0

/-- Either operand can move alone first, and there is one path. -/
theorem exists_equiv_compose_deleter_inserter : ∃ r operands,
    compose {} (deleter, inserter) = .ok r operands ∧
      ∃ e : AcceptingPath r ≃ MatchingPair deleter inserter, ∀ p, Carries p (e p) :=
  exists_equiv_compose (a := deleter) (b := inserter) (by decide) (by decide)
    (PropertyCache.sound_empty _) (PropertyCache.sound_empty _) (forall_mem_arcsAt_iff.2 (by decide))
    (forall_mem_arcsAt_iff.2 (by decide)) (fun _ _ h => nomatch h)
    (show Options.plan {} = .ok .perState from rfl) rfl rfl

end Transducer.Composition
