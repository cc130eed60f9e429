import Mathlib
import Transducer.Proofs.Composition.Numbering
import Transducer.Proofs.Matching.Targets

/-!
# The composition as a whole

To build a composition as a whole is to expand all composite states that can be met. There are two ways in
which that ends (`toAutomaton_spec`): either some composite state that can be met cannot be expanded, and the
composition is refused, or the result `Completes` the composition: it has a state for each composite state
that can be met and for no other, with the weight and the steps of its expansion. This is so whatever has been
asked for before.

The search goes on as long as there are composite states that are not expanded (`Sweeps`). What is expanded is in
range, and there are only so many composite states in range, so the search ends (`Explored.sweeps`). Where the arcs
of the operands stay within them, all that is met is in range (`Met.inRange`).
-/

namespace Transducer.Composition

variable {W : Type}

theorem start_eq (c : Composition W) (memo : Memo W) :
    c.start memo = match c.origin with
      | some place => .ok (some (memo.intern place).1) (memo.intern place).2
      | none => .ok none memo := by
  unfold start origin
  cases c.left.automaton.start with
  | none => rfl
  | some s => cases c.right.automaton.start <;> rfl

variable [Weight W] {c : Composition W} {memo : Memo W}

/-! ### Composite states in range -/

/-- Each of the items is asked for, and paired with what is found. -/
theorem exists_of_mem_asked {α β γ ε : Type} {f : α → Except ε (List β)} {g : α → β → γ} {l : List α}
    {found : List (List γ)} (h : (l.mapM fun x => return (← f x).map (g x)) = .ok found) {z : γ}
    (hz : z ∈ found.flatten) : ∃ x ∈ l, ∃ ys, f x = .ok ys ∧ ∃ y ∈ ys, z = g x y := by
  obtain ⟨zs, hzs, hz⟩ := List.mem_flatten.1 hz
  obtain ⟨x, hx, heq⟩ := exists_of_mem_right (mapM_eq_ok_iff.1 h) hzs
  obtain ⟨ys, hys, heq⟩ := bind_eq_ok.1 heq
  obtain rfl := Except.ok.inj heq
  obtain ⟨y, hy, rfl⟩ := List.mem_map.1 hz
  exact ⟨x, hx, ys, hys, y, hy, rfl⟩

/-- One of the two arcs is listed at a composite state, the other one is found for it: the listed one is an arc
of its operand state, or the implicit one. -/
def Paired (c : Composition W) (place : Place) : Operand → Arc W → Arc W → Prop
  | .left, l, r => (l = ⟨epsilon, noLabel, 1, place.left⟩ ∨ l ∈ c.left.automaton.arcsAt place.left) ∧
      ∃ found, c.right.find place.right l.olabel = .ok found ∧ r ∈ found
  | .right, l, r => (r = ⟨noLabel, epsilon, 1, place.right⟩ ∨ r ∈ c.right.automaton.arcsAt place.right) ∧
      ∃ found, c.left.find place.left r.ilabel = .ok found ∧ l ∈ found

theorem paired_of_mem_pairs {operand : Operand} {place : Place} {pairs : List (Arc W × Arc W)}
    (hpairs : c.pairs operand place = .ok pairs) {l r : Arc W} (hmem : (l, r) ∈ pairs) :
    c.Paired place operand l r := by
  cases operand with
  | left =>
    obtain ⟨arcs, harcs, hpairs⟩ := bind_eq_ok.1 hpairs
    obtain ⟨found, hfound, hflatten⟩ := bind_eq_ok.1 hpairs
    obtain rfl := Except.ok.inj hflatten
    obtain ⟨x, hx, ys, hys, y, hy, heq⟩ := exists_of_mem_asked hfound hmem
    obtain ⟨rfl, rfl⟩ := Prod.mk.inj heq
    rw [(Automaton.findArcs_eq_ok harcs).2, List.mem_cons, Array.mem_toList_iff] at hx
    exact ⟨hx, ys, hys, hy⟩
  | right =>
    obtain ⟨arcs, harcs, hpairs⟩ := bind_eq_ok.1 hpairs
    obtain ⟨found, hfound, hflatten⟩ := bind_eq_ok.1 hpairs
    obtain rfl := Except.ok.inj hflatten
    obtain ⟨x, hx, ys, hys, y, hy, heq⟩ := exists_of_mem_asked (g := fun x y => (y, x)) hfound hmem
    obtain ⟨rfl, rfl⟩ := Prod.mk.inj heq
    rw [(Automaton.findArcs_eq_ok harcs).2, List.mem_cons, Array.mem_toList_iff] at hx
    exact ⟨hx, ys, hys, hy⟩

/-- A composite state is final with the weights of its operand states, and each of its steps is made by two
arcs that match and that the turn allows. -/
theorem Expands.spec {place : Place} {expansion : Expansion W} (h : c.Expands place expansion) :
    expansion.final =
        finalWeight (c.left.automaton.final? place.left) (c.right.automaton.final? place.right) ∧
      ∃ operand pairs, (∀ id, c.listed id place = .ok operand) ∧ c.pairs operand place = .ok pairs ∧
        ∀ step ∈ expansion.steps, ∃ l r turn, (l, r) ∈ pairs ∧
          place.turn.pass (mustMove c.left.automaton place.left) (mustMeet c.left.automaton place.left) l r =
            some turn ∧
          step = ⟨l.ilabel, r.olabel, l.weight * r.weight, ⟨l.target, r.target, turn⟩⟩ := by
  obtain ⟨leftFinal, hleft, hexpand⟩ := bind_eq_ok.1 (h 0)
  obtain ⟨rightFinal, hright, hexpand⟩ := bind_eq_ok.1 hexpand
  obtain ⟨arcs, harcs, hexpand⟩ := bind_eq_ok.1 hexpand
  obtain ⟨operand, hlisted, hexpand⟩ := bind_eq_ok.1 hexpand
  obtain ⟨pairs, hpairs, hexpand⟩ := bind_eq_ok.1 hexpand
  obtain rfl := Except.ok.inj hexpand
  obtain ⟨hl, hr⟩ := h.inRange
  rw [Automaton.findFinal_eq hl] at hleft
  rw [Automaton.findFinal_eq hr] at hright
  rw [Automaton.findArcs_eq hl] at harcs
  obtain rfl := Except.ok.inj hleft
  obtain rfl := Except.ok.inj hright
  obtain rfl := Except.ok.inj harcs
  refine ⟨rfl, operand, pairs, listed_eq_of_ok hlisted, hpairs, fun step hstep => ?_⟩
  obtain ⟨⟨l, r⟩, hmem, hstep⟩ := List.mem_filterMap.1 hstep
  obtain ⟨turn, hturn, rfl⟩ := Option.map_eq_some_iff.1 hstep
  exact ⟨l, r, turn, hmem, hturn, rfl⟩

section

variable (hl : c.left.automaton.Confined) (hr : c.right.automaton.Confined)
include hl hr

/-- Where the arcs of the operands stay within them, so do those that match each other. -/
theorem target_lt_of_mem_pairs {operand : Operand} {place : Place} (hrange : c.InRange place)
    {pairs : List (Arc W × Arc W)} (hpairs : c.pairs operand place = .ok pairs) {l r : Arc W}
    (hmem : (l, r) ∈ pairs) : l.target < c.left.automaton.size ∧ r.target < c.right.automaton.size := by
  have hpair := paired_of_mem_pairs hpairs hmem
  cases operand with
  | left =>
    obtain ⟨hlisted, found, hfound, hasked⟩ := hpair
    refine ⟨?_, Matcher.target_lt_of_find hr hfound hasked⟩
    rcases hlisted with rfl | hlisted
    · exact hrange.1
    · exact hl.target_lt hlisted
  | right =>
    obtain ⟨hlisted, found, hfound, hasked⟩ := hpair
    refine ⟨Matcher.target_lt_of_find hl hfound hasked, ?_⟩
    rcases hlisted with rfl | hlisted
    · exact hrange.2
    · exact hr.target_lt hlisted

/-- Where the arcs of the operands stay within them, so do the steps of the composition. -/
theorem Expands.inRange_of_mem {place : Place} {expansion : Expansion W} (h : c.Expands place expansion)
    {step : Step W} (hstep : step ∈ expansion.steps) : c.InRange step.target := by
  obtain ⟨-, operand, pairs, -, hpairs, hsteps⟩ := h.spec
  obtain ⟨l, r, turn, hmem, -, rfl⟩ := hsteps step hstep
  exact target_lt_of_mem_pairs hl hr h.inRange hpairs hmem

/-- Where the arcs of the operands stay within them, so do all composite states that can be met. -/
theorem Met.inRange {place : Place} (hmet : c.Met place) : c.InRange place := by
  induction hmet with
  | origin hplace =>
    obtain ⟨s, t, hs, ht, rfl⟩ := origin_eq_some.1 hplace
    exact ⟨hl.start_lt hs, hr.start_lt ht⟩
  | step _ hexpands hstep _ => exact hexpands.inRange_of_mem hl hr hstep

end

omit [Weight W] in
/-- There are not more composite states in range than pairs of operand states with a turn. -/
theorem finite_inRange (c : Composition W) : {place | c.InRange place}.Finite ∧
    {place | c.InRange place}.ncard ≤ 2 * c.left.automaton.size * c.right.automaton.size := by
  have hsub : {place | c.InRange place} ⊆
      (((Finset.range c.left.automaton.size ×ˢ Finset.range c.right.automaton.size) ×ˢ
        {Turn.either, Turn.right}).image fun x => (⟨x.1.1, x.1.2, x.2⟩ : Place) : Finset Place) := by
    rintro ⟨s, t, turn⟩ ⟨hl, hr⟩
    refine Finset.mem_coe.2 (Finset.mem_image.2 ⟨((s, t), turn), ?_, rfl⟩)
    simp only [Finset.mem_product, Finset.mem_range, Finset.mem_insert, Finset.mem_singleton]
    exact ⟨⟨hl, hr⟩, by cases turn <;> simp⟩
  refine ⟨(Finset.finite_toSet _).subset hsub, ?_⟩
  calc
    {place | c.InRange place}.ncard ≤ _ := Set.ncard_le_ncard hsub (Finset.finite_toSet _)
    _ = _ := Set.ncard_coe_finset _
    _ ≤ _ := Finset.card_image_le
    _ = 2 * c.left.automaton.size * c.right.automaton.size := by
      rw [Finset.card_product, Finset.card_product, Finset.card_range, Finset.card_range,
        Finset.card_pair (by decide), mul_comm, mul_assoc]

/-- Where all that can be met can be expanded, it is in range, so there is only so much of it. -/
theorem finite_met (hstuck : ¬c.Stuck) : {place | c.Met place}.Finite := by
  refine (finite_inRange c).1.subset fun place hmet => ?_
  by_contra hrange
  exact hstuck ⟨place, hmet, fun expansion hexpands => hrange hexpands.inRange⟩

/-- Different numbers are those of different composite states. -/
theorem Consistent.length_le_ncard (h : Consistent c memo) {ids : List Nat} (hnodup : ids.Nodup)
    {places : Set Place} (hfinite : places.Finite)
    (hids : ∀ id ∈ ids, ∃ place, memo.places[id]? = some place ∧ place ∈ places) :
    ids.length ≤ places.ncard := by
  have hplace : ∀ i : Fin ids.length, ∃ place, memo.places[ids[i]]? = some place ∧ place ∈ places :=
    fun i => hids _ (List.getElem_mem i.2)
  choose place hplace hmem using hplace
  have hinj : Function.Injective place := by
    intro i j hij
    have hi := h.ids_iff.2 (hplace i)
    have hj := h.ids_iff.2 (hplace j)
    rw [hij] at hi
    exact List.nodup_iff_injective_get.1 hnodup (Option.some.inj (hi.symm.trans hj))
  have hsub : Set.range place ⊆ places := Set.range_subset_iff.2 hmem
  calc
    ids.length = (Set.range place).ncard := by
      rw [← Set.image_univ, Set.ncard_image_of_injective _ hinj, Set.ncard_univ, Nat.card_fin]
    _ ≤ places.ncard := Set.ncard_le_ncard hsub hfinite

/-- There are not more numbers of composite states in range than there are such states. -/
theorem Consistent.length_le_of_inRange (h : Consistent c memo) {ids : List Nat} (hnodup : ids.Nodup)
    (hids : ∀ id ∈ ids, ∃ place, memo.places[id]? = some place ∧ c.InRange place) :
    ids.length ≤ 2 * c.left.automaton.size * c.right.automaton.size :=
  (h.length_le_ncard hnodup (finite_inRange c).1 hids).trans (finite_inRange c).2

/-- What has been expanded is in range. -/
theorem Consistent.length_le_of_known (h : Consistent c memo) {ids : List Nat} (hnodup : ids.Nodup)
    (hids : ∀ id ∈ ids, (memo.known? id).isSome = true) :
    ids.length ≤ 2 * c.left.automaton.size * c.right.automaton.size := by
  refine h.length_le_of_inRange hnodup fun id hid => ?_
  obtain ⟨known, hknown⟩ := Option.isSome_iff_exists.1 (hids id hid)
  obtain ⟨place, expansion, hplace, hexpand, -⟩ := h.expanded hknown
  exact ⟨place, hplace, (expands_of_expand hexpand).inRange⟩

/-- Where the arcs of the operands stay within them, all that has been met is in range. -/
theorem Explored.size_le (h : Explored c memo) (hl : c.left.automaton.Confined)
    (hr : c.right.automaton.Confined) :
    memo.size ≤ 2 * c.left.automaton.size * c.right.automaton.size := by
  have hle := h.length_le_of_inRange (List.nodup_range : (List.range memo.size).Nodup) fun id hid => by
    have hplace := Array.getElem?_eq_getElem (List.mem_range.1 hid : id < memo.places.size)
    exact ⟨_, hplace, (h.met _ (Array.mem_of_getElem? hplace)).inRange hl hr⟩
  rwa [List.length_range] at hle

/-- The start has a number once it has been asked for, if there is one. -/
theorem start_spec (h : Explored c memo) :
    (c.origin = none ∧ c.start memo = .ok none memo) ∨
    ∃ place id memo', c.origin = some place ∧ c.start memo = .ok (some id) memo' ∧ Explored c memo' ∧
      memo.Grows memo' ∧ memo'.places[id]? = some place := by
  rw [start_eq]
  cases horigin : c.origin with
  | none => exact .inl ⟨rfl, rfl⟩
  | some place =>
    obtain ⟨hexplored, hgrows⟩ := h.intern (.origin horigin)
    obtain ⟨-, -, hid, -⟩ := intern_spec h.toConsistent place
    exact .inr ⟨place, _, _, rfl, rfl, hexplored, hgrows, hid⟩

/-- A start that is given is the number of where the composition starts. -/
theorem Explored.of_start (h : Explored c memo) {id : Nat} {memo' : Memo W}
    (hstart : c.start memo = .ok (some id) memo') :
    ∃ place, c.origin = some place ∧ Explored c memo' ∧ memo.Grows memo' ∧ memo'.places[id]? = some place := by
  obtain ⟨-, heq⟩ | ⟨place, _, _, horigin, heq, hstarted⟩ := start_spec h
  · cases hstart.symm.trans heq
  · obtain ⟨hid, rfl⟩ := EStateM.Result.ok.inj (hstart.symm.trans heq)
    obtain rfl := Option.some.inj hid
    exact ⟨place, horigin, hstarted⟩

/-! ### The search -/

/-- The search that expands one composite state after the other, from the given number on, and how it ends:
when all that have been met are expanded, or at the first one that cannot be expanded. -/
inductive Sweeps (c : Composition W) : Nat → Memo W → EStateM.Result Error (Memo W) Unit → Prop where
  | done {id : Nat} {memo : Memo W} : memo.size ≤ id → Sweeps c id memo (.ok () memo)
  | refused {id : Nat} {e : Error} {memo memo' : Memo W} : id < memo.size →
      c.request id memo = .error e memo' → Sweeps c id memo (.error e memo')
  | next {id : Nat} {known : Known W} {memo memo' : Memo W} {result : EStateM.Result Error (Memo W) Unit} :
      id < memo.size → c.request id memo = .ok known memo' → Sweeps c (id + 1) memo' result →
        Sweeps c id memo result

/-- The bound of the search is never reached, so the search ends by itself. -/
theorem sweeps_requestFrom (bound id : Nat) (h : Explored c memo)
    (hbelow : ∀ i < id, (memo.known? i).isSome = true)
    (hbound : 2 * c.left.automaton.size * c.right.automaton.size < bound + id) :
    Sweeps c id memo (c.requestFrom bound id memo) := by
  induction bound generalizing id memo with
  | zero =>
    have hle := h.length_le_of_known List.nodup_range fun i hi => hbelow i (List.mem_range.1 hi)
    rw [List.length_range] at hle
    omega
  | succ bound ih =>
    unfold requestFrom
    by_cases hlt : id < memo.size
    · rw [if_pos hlt]
      obtain ⟨known, memo', heq, hexplored, hgrows, hnew⟩ | ⟨e, heq, -⟩ := request_spec h id
      · rw [heq]
        exact .next hlt heq (ih (id + 1) hexplored (hgrows.known_succ hnew hbelow) (by omega))
      · rw [heq]
        exact .refused hlt heq
    · rw [if_neg hlt]
      exact .done (Nat.le_of_not_lt hlt)

/-- The search expands all composite states that are met, unless it meets one that cannot be expanded. -/
theorem Sweeps.spec {id : Nat} {result : EStateM.Result Error (Memo W) Unit} (hsweeps : Sweeps c id memo result)
    (h : Explored c memo) (hbelow : ∀ i < id, (memo.known? i).isSome = true) :
    (∃ memo', result = .ok () memo' ∧ Explored c memo' ∧ memo.Grows memo' ∧
      ∀ i < memo'.size, (memo'.known? i).isSome = true) ∨
    ∃ e memo', result = .error e memo' ∧ Explored c memo' ∧ c.Stuck := by
  induction hsweeps with
  | @done id memo hle => exact .inl ⟨memo, rfl, h, .refl _, fun i hi => hbelow i (by omega)⟩
  | @refused id e memo memo' hlt heq =>
    obtain ⟨_, _, heq', -⟩ | ⟨_, heq', hstuck⟩ := request_spec h id
    · cases heq.symm.trans heq'
    · obtain ⟨rfl, rfl⟩ := EStateM.Result.error.inj (heq.symm.trans heq')
      have hplace : memo'.places[id]? = some memo'.places[id] := Array.getElem?_eq_getElem hlt
      exact .inr ⟨e, memo', rfl, h, _, h.met _ (Array.mem_of_getElem? hplace), fun expansion =>
        hstuck _ expansion hplace⟩
  | @next id known memo memo' result hlt heq _ ih =>
    obtain ⟨_, _, heq', hexplored, hgrows, hnew⟩ | ⟨_, heq', -⟩ := request_spec h id
    · obtain ⟨rfl, rfl⟩ := EStateM.Result.ok.inj (heq.symm.trans heq')
      refine (ih hexplored (hgrows.known_succ hnew hbelow)).imp_left ?_
      rintro ⟨last, hlast, hexplored', hgrows', hall⟩
      exact ⟨last, hlast, hexplored', hgrows.trans hgrows', hall⟩
    · cases heq.symm.trans heq'

/-- The search for all composite states. -/
theorem Explored.sweeps (h : Explored c memo) : Sweeps c 0 memo (c.requestFrom c.bound 0 memo) :=
  sweeps_requestFrom c.bound 0 h (fun i hi => absurd hi (Nat.not_lt_zero i)) (Nat.lt_succ_self _)

/-! ### The result -/

/-- The automaton has a state for each of the places, with the weight and the steps of its expansion. -/
structure Presents (c : Composition W) (r : Automaton W) (places : Array Place) : Prop where
  size_eq : r.size = places.size
  injective : ∀ {i j : Nat} {place : Place}, places[i]? = some place → places[j]? = some place → i = j
  expanded : ∀ {id : Nat} {place : Place}, places[id]? = some place →
    ∃ expansion, c.Expands place expansion ∧ r.final? id = expansion.final ∧
      List.Forall₂ (Numbers places) expansion.steps (r.arcsAt id).toList

/-- The places are all that can be met, and the automaton starts where the composition does. -/
structure Completes (c : Composition W) (r : Automaton W) (places : Array Place) : Prop
    extends Presents c r places where
  mem_iff : ∀ {place : Place}, place ∈ places ↔ c.Met place
  start_iff : ∀ {id : Nat}, r.start = some id ↔ ∃ place, c.origin = some place ∧ places[id]? = some place
  symbols_eq : r.inputSymbols = c.left.automaton.inputSymbols ∧
    r.outputSymbols = c.right.automaton.outputSymbols

theorem Presents.lt_size {r : Automaton W} {places : Array Place} (hp : Presents c r places) {id : Nat}
    {place : Place} (hid : places[id]? = some place) : id < r.size :=
  hp.size_eq ▸ (Array.getElem?_eq_some_iff.1 hid).1

/-- Every state stands for a composite state. -/
theorem Presents.exists_place {r : Automaton W} {places : Array Place} (hp : Presents c r places) {id : Nat}
    (hid : id < r.size) : ∃ place, places[id]? = some place :=
  ⟨_, Array.getElem?_eq_getElem (hp.size_eq ▸ hid)⟩

theorem Presents.target_lt {r : Automaton W} {places : Array Place} (hp : Presents c r places) {id : Nat}
    {arc : Arc W} (harc : arc ∈ r.arcsAt id) : arc.target < r.size := by
  obtain ⟨place, hid⟩ := hp.exists_place (Automaton.lt_size_of_mem harc)
  obtain ⟨expansion, -, -, harcs⟩ := hp.expanded hid
  obtain ⟨step, -, hn⟩ := exists_of_mem_right harcs (Array.mem_toList_iff.2 harc)
  exact hp.lt_size hn.2

theorem isZero_finalWeight {left right : Option W} {w : W} (h : finalWeight left right = some w) :
    isZero w = false := by
  unfold finalWeight at h
  split at h
  · split at h
    · cases h
    · next hzero =>
      obtain rfl := Option.some.inj h
      simpa using hzero
  · cases h

/-- Whatever the operands are like, the composition as a whole is well-formed. -/
theorem Completes.wellFormed {r : Automaton W} {places : Array Place} (hc : Completes c r places) :
    r.WellFormed := by
  have hp := hc.toPresents
  refine ⟨fun {s} hs => ?_, fun {s arc} harc => hp.target_lt harc, fun {s w} hs => ?_⟩
  · obtain ⟨place, -, hplace⟩ := hc.start_iff.1 hs
    exact hp.lt_size hplace
  · obtain ⟨place, hid⟩ := hp.exists_place (Automaton.lt_size_of_final? hs)
    obtain ⟨expansion, hexpands, hfinal, -⟩ := hp.expanded hid
    rw [hfinal, hexpands.spec.1] at hs
    exact isZero_finalWeight hs

/-- What can be completed has no composite state that cannot be expanded. -/
theorem Completes.not_stuck {r : Automaton W} {places : Array Place} (h : Completes c r places) : ¬c.Stuck := by
  rintro ⟨place, hmet, hstuck⟩
  obtain ⟨id, hid⟩ := Array.getElem?_of_mem (h.mem_iff.2 hmet)
  obtain ⟨expansion, hexpands, -⟩ := h.expanded hid
  exact hstuck expansion hexpands

theorem Consistent.presents (h : Consistent c memo)
    (hall : ∀ i < memo.size, (memo.known? i).isSome = true) (start : Nat) :
    Presents c (memo.toAutomaton start c) memo.places := by
  refine ⟨?_, fun hi hj => ?_, fun {id place} hid => ?_⟩
  · simp [Automaton.size, Memo.toAutomaton, h.size_known]
  · exact Option.some.inj ((h.ids_iff.2 hi).symm.trans (h.ids_iff.2 hj))
  · have hlt := (Array.getElem?_eq_some_iff.1 hid).1
    obtain ⟨known, hknown⟩ := Option.isSome_iff_exists.1 (hall id hlt)
    obtain ⟨place', expansion, hplace', hexpand, hd⟩ := h.expanded hknown
    obtain rfl := Option.some.inj (hid.symm.trans hplace')
    have hstate : (memo.toAutomaton start c).states[id]? = some known := by
      rw [← h.size_known] at hlt
      have hget : memo.known[id]? = some (some known) := by
        rw [Memo.known?, Array.getD_eq_getD_getElem?, Array.getElem?_eq_getElem hlt] at hknown
        rw [Array.getElem?_eq_getElem hlt]
        exact congrArg some hknown
      simp [Memo.toAutomaton, hget]
    refine ⟨expansion, expands_of_expand hexpand, ?_, ?_⟩
    · rw [Automaton.final?, hstate]
      exact hd.1
    · rw [Automaton.arcsAt, hstate]
      exact hd.2

/-- Where all that has a number is expanded and the start has a number, all that can be met has one. -/
theorem Consistent.mem_of_met (h : Consistent c memo)
    (hall : ∀ i < memo.size, (memo.known? i).isSome = true)
    (horigin : ∀ place, c.origin = some place → place ∈ memo.places) {place : Place} (hmet : c.Met place) :
    place ∈ memo.places := by
  induction hmet with
  | origin hplace => exact horigin _ hplace
  | @step place expansion step _ hexpands hstep ih =>
    obtain ⟨id, hid⟩ := Array.getElem?_of_mem ih
    obtain ⟨known, hknown⟩ := Option.isSome_iff_exists.1 (hall id (Array.getElem?_eq_some_iff.1 hid).1)
    obtain ⟨place', expansion', hplace', hexpand', -, hsteps⟩ := h.expanded hknown
    obtain rfl := Option.some.inj (hid.symm.trans hplace')
    obtain rfl := hexpands.unique (expands_of_expand hexpand')
    obtain ⟨arc, -, hn⟩ := exists_of_mem_left hsteps hstep
    exact Array.mem_of_getElem? hn.2

theorem not_met_of_origin_eq_none (horigin : c.origin = none) (place : Place) : ¬c.Met place := by
  intro hmet
  induction hmet with
  | origin hplace => cases horigin.symm.trans hplace
  | step _ _ _ ih => exact ih

/-- Where all that has a number is expanded and the start has a number, the composition is complete. -/
theorem Explored.completes (h : Explored c memo) (hall : ∀ i < memo.size, (memo.known? i).isSome = true)
    {id : Nat} {place : Place} (horigin : c.origin = some place) (hid : memo.places[id]? = some place) :
    Completes c (memo.toAutomaton id c) memo.places := by
  have hp := h.presents hall id
  refine ⟨hp, fun {other} => ⟨h.met other, h.mem_of_met hall fun other hother => ?_⟩, fun {id'} => ?_, rfl, rfl⟩
  · obtain rfl := Option.some.inj (horigin.symm.trans hother)
    exact Array.mem_of_getElem? hid
  · rw [horigin]
    constructor
    · intro hstart
      obtain rfl := Option.some.inj hstart
      exact ⟨place, rfl, hid⟩
    · rintro ⟨_, hother, hid'⟩
      obtain rfl := Option.some.inj hother
      rw [hp.injective hid' hid]
      rfl

/-- Whatever has been asked for before, the composition as a whole has all composite states that can be met;
or one of them cannot be expanded, and it is refused. -/
theorem toAutomaton_spec (h : Explored c memo) :
    (∃ r memo', c.toAutomaton memo = .ok r memo' ∧ Explored c memo' ∧ Completes c r memo'.places) ∨
    ∃ e memo', c.toAutomaton memo = .error e memo' ∧ Explored c memo' ∧ c.Stuck := by
  obtain ⟨horigin, hstart⟩ | ⟨place, id, started, horigin, hstart, hexplored, -, hid⟩ := start_spec h
  · have hmet := not_met_of_origin_eq_none horigin
    have hempty : memo.places = #[] :=
      Array.eq_empty_iff_forall_not_mem.2 fun place hplace => hmet place (h.met place hplace)
    left
    simp only [toAutomaton, bind, EStateM.bind, hstart]
    refine ⟨_, memo, rfl, h, ?_⟩
    rw [hempty]
    refine ⟨⟨rfl, fun hi => by simp at hi, fun hid => by simp at hid⟩, ?_, ?_, rfl, rfl⟩
    · intro place
      simp [hmet place]
    · intro id
      simp
  · obtain ⟨memo', heq, hexplored', hgrows', hall⟩ | ⟨e, memo', heq, hexplored', hstuck⟩ :=
      hexplored.sweeps.spec hexplored fun i hi => absurd hi (Nat.not_lt_zero i)
    · left
      refine ⟨memo'.toAutomaton id c, memo', ?_, hexplored',
        hexplored'.completes hall horigin (hgrows'.places _ _ hid)⟩
      simp only [toAutomaton, bind, EStateM.bind, hstart, heq]
      rfl
    · right
      refine ⟨e, memo', ?_, hexplored', hstuck⟩
      simp only [toAutomaton, bind, EStateM.bind, hstart, heq]

/-- Where the arcs of the operands stay within them and every composite state in range can be expanded, the
composition is completed. -/
theorem exists_completes_of_expands (hl : c.left.automaton.Confined) (hr : c.right.automaton.Confined)
    (h : ∀ {place : Place}, c.InRange place → ∃ expansion, c.Expands place expansion) :
    ∃ r memo, c.toAutomaton {} = .ok r memo ∧ Completes c r memo.places := by
  obtain ⟨r, memo, heq, -, hcompletes⟩ | ⟨_, _, -, -, place, hmet, hstuck⟩ :=
    toAutomaton_spec (explored_empty c)
  · exact ⟨r, memo, heq, hcompletes⟩
  · obtain ⟨expansion, hexpands⟩ := h (hmet.inRange hl hr)
    exact absurd hexpands (hstuck expansion)

/-! ### Compositions that agree -/

/-- Both compositions start at the same composite state, and what the first one can expand the second one
expands to the same weight and the same steps, in whatever order. -/
structure Agrees (c c' : Composition W) : Prop where
  origin_eq : c'.origin = c.origin
  expands : ∀ {place : Place} {expansion : Expansion W}, c.Expands place expansion →
    ∃ expansion', c'.Expands place expansion' ∧ expansion'.final = expansion.final ∧
      expansion'.steps.Perm expansion.steps

section

variable {c' : Composition W} {memo' : Memo W}

theorem Agrees.met (h : c.Agrees c') {place : Place} (hmet : c.Met place) : c'.Met place := by
  induction hmet with
  | origin hplace => exact .origin (h.origin_eq.trans hplace)
  | step _ hexpands hstep ih =>
    obtain ⟨expansion', hexpands', -, hperm⟩ := h.expands hexpands
    exact .step ih hexpands' (hperm.mem_iff.2 hstep)

theorem Agrees.stuck (h : c.Agrees c') (h' : c'.Agrees c) (hstuck : c.Stuck) : c'.Stuck := by
  obtain ⟨place, hmet, hstuck⟩ := hstuck
  refine ⟨place, h.met hmet, fun expansion' hexpands' => ?_⟩
  obtain ⟨expansion, hexpands, -⟩ := h'.expands hexpands'
  exact hstuck expansion hexpands

/-- Compositions that agree are both refused, if a composite state cannot be expanded, or both completed,
whatever has been asked of either before. -/
theorem Agrees.toAutomaton (h : c.Agrees c') (h' : c'.Agrees c) (hmemo : Explored c memo)
    (hmemo' : Explored c' memo') :
    (c.Stuck ∧ ∃ e e' last last', c.toAutomaton memo = .error e last ∧
      c'.toAutomaton memo' = .error e' last') ∨
    ∃ r r' last last', c.toAutomaton memo = .ok r last ∧ c'.toAutomaton memo' = .ok r' last' ∧
      Completes c r last.places ∧ Completes c' r' last'.places := by
  obtain ⟨r, last, heq, -, hc⟩ | ⟨e, last, heq, -, hstuck⟩ := toAutomaton_spec hmemo
  · obtain ⟨r', last', heq', -, hc'⟩ | ⟨e', last', -, -, hstuck'⟩ := toAutomaton_spec hmemo'
    · exact .inr ⟨r, r', last, last', heq, heq', hc, hc'⟩
    · exact absurd (h'.stuck h hstuck') hc.not_stuck
  · obtain ⟨r', last', -, -, hc'⟩ | ⟨e', last', heq', -, -⟩ := toAutomaton_spec hmemo'
    · exact absurd (h.stuck h' hstuck) hc'.not_stuck
    · exact .inl ⟨hstuck, e, e', last, last', heq, heq'⟩

end

/-! ### The composition of two automata -/

theorem cache_toAutomaton {c : Composition W} {memo memo' : Memo W} {r : Automaton W}
    (h : c.toAutomaton memo = .ok r memo') : r.cache = {} := by
  obtain ⟨start, _, -, h⟩ := run_bind_eq_ok.1 h
  cases start with
  | none =>
    cases h
    rfl
  | some start =>
    obtain ⟨_, _, -, h⟩ := run_bind_eq_ok.1 h
    obtain ⟨_, _, -, h⟩ := run_bind_eq_ok.1 h
    cases h
    rfl

/-- What is built of two automata is composed as a whole. -/
theorem compose_of_build {opts : Options} {operands operands' : Automaton W × Automaton W} {r : Automaton W}
    {memo : Memo W} (hbuild : build opts operands = .ok c operands') (h : c.toAutomaton {} = .ok r memo) :
    compose opts operands = .ok (if opts.trim then r.trim else r) operands' := by
  simp only [compose, bind, EStateM.bind, hbuild, h]
  rfl

/-- What two automata are composed to completes what is built of them, or is that trimmed. -/
theorem exists_completes_of_compose {opts : Options} {operands operands' : Automaton W × Automaton W}
    {r : Automaton W} (h : compose opts operands = .ok r operands') :
    ∃ c whole places, build opts operands = .ok c operands' ∧ Completes c whole places ∧ whole.cache = {} ∧
      (r = whole ∨ r = whole.trim) := by
  obtain ⟨c, between, hbuild, h⟩ := run_bind_eq_ok.1 h
  obtain ⟨whole, memo, heq, -, hcompletes⟩ | ⟨e, memo, heq, -⟩ := toAutomaton_spec (explored_empty c)
  · rw [heq] at h
    obtain ⟨hr, rfl⟩ := EStateM.Result.ok.inj h
    refine ⟨c, whole, memo.places, hbuild, hcompletes, cache_toAutomaton heq, ?_⟩
    cases htrim : opts.trim with
    | false =>
      rw [htrim] at hr
      exact .inl hr.symm
    | true =>
      rw [htrim] at hr
      exact .inr hr.symm
  · rw [heq] at h
    cases h

end Transducer.Composition
