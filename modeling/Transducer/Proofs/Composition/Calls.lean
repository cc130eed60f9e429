import Mathlib
import Transducer.Path.Beam
import Transducer.Proofs.Composition.Exploration
import Transducer.Proofs.Composition.Operands
import Transducer.Proofs.Composition.Paths

/-!
# Compositions do not depend on what has been asked for

A composition numbers its composite states in the order in which they are met, so the numbers depend on what
has been asked for before. Nothing else does (`exists_renumbers_after`): after any two sequences of calls, also
calls that fail, the composition as a whole is either refused both times, or the results have the same
composite states with the same weights and the same arcs in the same order, by the numbers that the states
have in each.

All that calls add to what is known is right and can be met from the start (`Explored`). What a call for the start
and calls for composite states keep, every other call keeps, since it makes no other requests (`Call.keeps_run`).
-/

namespace Transducer.Composition

variable {W : Type} [Weight W]

/-! ### Calls -/

/-- What can be asked of a composition. -/
inductive Call where
  | start
  | finalWeight (id : Nat)
  | arcs (id : Nat)
  | arcCount (id : Nat)
  | whole
  | beam (width : Nat)
  deriving Repr

variable {c : Composition W}

theorem keeps_start : Keeps (Explored c) c.start := by
  intro memo h
  rw [stateAfter]
  obtain ⟨-, heq⟩ | ⟨place, id, memo', -, heq, h', -⟩ := start_spec h
  · rw [heq]
    exact h
  · rw [heq]
    exact h'

theorem keeps_request (id : Nat) : Keeps (Explored c) (c.request id) :=
  keeps_of_outcome fun memo h => (request_spec h id).imp
    (fun ⟨known, memo', heq, hexplored, _, _⟩ => ⟨known, memo', heq, hexplored⟩)
    (fun ⟨e, heq, _⟩ => ⟨e, memo, heq, h⟩)

section

variable {P : Memo W → Prop} (hstart : Keeps P c.start) (hrequest : ∀ id, Keeps P (c.request id))
include hstart hrequest

omit hstart in
theorem keeps_requestFrom (bound id : Nat) : Keeps P (c.requestFrom bound id) := by
  induction bound generalizing id with
  | zero => exact keeps_pure _
  | succ bound ih =>
    intro memo h
    by_cases hlt : id < memo.size
    · have hnext := hrequest id memo h
      cases heq : c.request id memo with
      | ok known memo' =>
        rw [stateAfter, heq] at hnext
        simp only [stateAfter, requestFrom, hlt, if_true, heq]
        exact ih (id + 1) memo' hnext
      | error e memo' =>
        rw [stateAfter, heq] at hnext
        simp only [stateAfter, requestFrom, hlt, if_true, heq]
        exact hnext
    · simp only [stateAfter, requestFrom, hlt, if_false]
      exact h

/-- What all calls for one composite state keep is kept where the composition is built as a whole. -/
theorem keeps_toAutomaton : Keeps P c.toAutomaton := by
  refine hstart.bind fun start => ?_
  cases start with
  | none => exact keeps_pure _
  | some start =>
    exact (keeps_requestFrom hrequest _ _).bind fun _ => keeps_get.bind fun memo => keeps_pure _

variable [Ranked W]

omit hstart in
theorem keeps_search (width bound : Nat) (admitted : Std.HashMap Nat (Admitted W)) (beam : List Nat)
    (best : Option (W × Nat)) : Keeps P (c.search width bound admitted beam best) := by
  induction bound generalizing admitted beam best with
  | zero => exact keeps_pure _
  | succ bound ih =>
    cases beam with
    | nil => exact keeps_pure _
    | cons id beam =>
      refine Keeps.bind (Keeps.foldlM (fun level id => ?_) _) fun level => ih _ _ _
      unfold advance
      split
      · exact keeps_pure _
      · exact (hrequest id).bind fun known => keeps_pure _

theorem keeps_beamSearch (width : Nat) : Keeps P (c.beamSearch width) := by
  unfold beamSearch
  split
  · exact fun _ h => h
  · refine hstart.bind fun start => ?_
    cases start with
    | none => exact keeps_pure _
    | some start => exact (keeps_search hrequest width _ _ _ _).bind fun _ => keeps_pure _

end

section

variable [Ranked W]

/-- To ask for something. Whatever is asked of a composite state expands it. -/
def Call.run (c : Composition W) : Call → Request W Unit
  | start => do let _ ← c.start
  | finalWeight id | arcs id | arcCount id => do let _ ← c.request id
  | whole => do let _ ← c.toAutomaton
  | beam width => do let _ ← c.beamSearch width

/-- What is known after some calls, of which each may have failed. -/
def after (c : Composition W) (calls : List Call) : Memo W :=
  calls.foldl (fun memo call => stateAfter (call.run c) memo) {}

theorem Call.keeps_run {P : Memo W → Prop} (hstart : Keeps P c.start)
    (hrequest : ∀ id, Keeps P (c.request id)) (call : Call) : Keeps P (call.run c) := by
  cases call with
  | start => exact hstart.bind fun _ => keeps_pure _
  | finalWeight id => exact (hrequest id).bind fun _ => keeps_pure _
  | arcs id => exact (hrequest id).bind fun _ => keeps_pure _
  | arcCount id => exact (hrequest id).bind fun _ => keeps_pure _
  | whole => exact (keeps_toAutomaton hstart hrequest).bind fun _ => keeps_pure _
  | beam width => exact (keeps_beamSearch hstart hrequest width).bind fun _ => keeps_pure _

theorem explored_after (calls : List Call) : Explored c (c.after calls) :=
  List.foldlRecOn calls _ (explored_empty c) fun memo h call _ =>
    call.keeps_run keeps_start keeps_request memo h

end

/-! ### Other numbers -/

/-- `f` gives each state of the first automaton its number in the second one, which is the same automaton by
other numbers. -/
structure Renumbers (f : Nat → Nat) (r r' : Automaton W) : Prop where
  bijOn : Set.BijOn f (Set.Iio r.size) (Set.Iio r'.size)
  start_eq : r'.start = r.start.map f
  final?_eq : ∀ {id : Nat}, id < r.size → r'.final? (f id) = r.final? id
  arcsAt_eq : ∀ {id : Nat}, id < r.size →
    r'.arcsAt (f id) = (r.arcsAt id).map fun arc => { arc with target := f arc.target }
  target_lt : ∀ {id : Nat}, ∀ arc ∈ r.arcsAt id, arc.target < r.size
  symbols_eq : r'.inputSymbols = r.inputSymbols ∧ r'.outputSymbols = r.outputSymbols

/-- The function takes the numbers of composite states to the numbers that they have in another order. -/
def Translates (f : Nat → Nat) (places places' : Array Place) : Prop :=
  ∀ (id : Nat) (place : Place), places[id]? = some place → places'[f id]? = some place

theorem exists_translates {places places' : Array Place} (h : ∀ place ∈ places, place ∈ places') :
    ∃ f, Translates f places places' := by
  obtain ⟨index, hindex⟩ := exists_index places'
  refine ⟨fun id => (places[id]?.map index).getD 0, fun id place hid => ?_⟩
  simp only [hid, Option.map_some, Option.getD_some]
  exact hindex place (h place (Array.mem_of_getElem? hid))

section

variable {c c' : Composition W} {r r' : Automaton W} {places places' : Array Place} {f : Nat → Nat}

theorem Translates.bijOn (hf : Translates f places places') (h : Presents c r places)
    (h' : Presents c' r' places') (hmem : ∀ place ∈ places', place ∈ places) :
    Set.BijOn f (Set.Iio r.size) (Set.Iio r'.size) := by
  refine ⟨fun id hid => ?_, fun i hi j hj hij => ?_, fun id' hid' => ?_⟩
  · obtain ⟨place, hid⟩ := h.exists_place hid
    exact h'.lt_size (hf id place hid)
  · obtain ⟨place, hi⟩ := h.exists_place hi
    obtain ⟨place', hj⟩ := h.exists_place hj
    have hsame := hf i place hi
    rw [hij, hf j place' hj] at hsame
    obtain rfl := Option.some.inj hsame
    exact h.injective hi hj
  · obtain ⟨place, hid'⟩ := h'.exists_place hid'
    obtain ⟨id, hid⟩ := Array.getElem?_of_mem (hmem place (Array.mem_of_getElem? hid'))
    exact ⟨id, h.lt_size hid, h'.injective (hf id place hid) hid'⟩

theorem Translates.start_eq (hf : Translates f places places') (h : Completes c r places)
    (h' : Completes c' r' places') (horigin : c'.origin = c.origin) : r'.start = r.start.map f := by
  cases hstart : r.start with
  | some id =>
    obtain ⟨place, hplace, hid⟩ := h.start_iff.1 hstart
    exact h'.start_iff.2 ⟨place, horigin.trans hplace, hf id place hid⟩
  | none =>
    refine Option.eq_none_iff_forall_ne_some.2 fun id' hid' => ?_
    obtain ⟨place, hplace, -⟩ := h'.start_iff.1 hid'
    rw [horigin] at hplace
    obtain ⟨id, hid⟩ := Array.getElem?_of_mem (h.mem_iff.2 (.origin hplace))
    cases hstart.symm.trans (h.start_iff.2 ⟨place, hplace, hid⟩)

/-- Arcs that number the same steps are the same, but for the numbers of their targets. -/
theorem Translates.arcs_eq (hf : Translates f places places') (h' : Presents c' r' places')
    {steps : List (Step W)} {arcs arcs' : List (Arc W)} (harcs : List.Forall₂ (Numbers places) steps arcs)
    (harcs' : List.Forall₂ (Numbers places') steps arcs') :
    arcs' = arcs.map fun arc => { arc with target := f arc.target } := by
  induction harcs generalizing arcs' with
  | nil =>
    cases harcs'
    rfl
  | @cons step arc steps arcs hn _ ih =>
    cases harcs' with
    | @cons _ arc' _ arcs' hn' harcs' =>
      have hcontent : arc'.content = arc.content := hn'.1.trans hn.1.symm
      have htarget : arc'.target = f arc.target := h'.injective hn'.2 (hf _ _ hn.2)
      rw [List.map_cons, ← ih harcs']
      obtain ⟨ilabel, olabel, weight, target⟩ := arc'
      obtain ⟨rfl, rfl, rfl⟩ : ilabel = arc.ilabel ∧ olabel = arc.olabel ∧ weight = arc.weight := by
        simpa [Arc.content] using hcontent
      obtain rfl := htarget
      rfl

end

/-! ### The composition after any calls -/

theorem agrees_withCaches (c : Composition W) (cache cache' : PropertyCache) :
    c.Agrees (c.withCaches cache cache') where
  origin_eq := rfl
  expands := fun {place expansion} h => by
    refine ⟨expansion, fun id => ?_, rfl, .refl _⟩
    rw [expand_withCaches]
    exact h id

section

variable {c : Composition W} {cache cache' : PropertyCache} {r r' : Automaton W} {places places' : Array Place}

/-- Whatever is in the caches of the operands, results that complete a composition are the same by other
numbers. -/
theorem Completes.exists_renumbers (h : Completes c r places)
    (h' : Completes (c.withCaches cache cache') r' places') :
    ∃ f, Renumbers f r r' ∧ ∀ id < r.size, places'[f id]? = places[id]? := by
  have hagrees := agrees_withCaches c cache cache'
  have hagrees' : (c.withCaches cache cache').Agrees c :=
    agrees_withCaches (c.withCaches cache cache') c.left.automaton.cache c.right.automaton.cache
  obtain ⟨f, hf⟩ := exists_translates fun place hplace => h'.mem_iff.2 (hagrees.met (h.mem_iff.1 hplace))
  -- a composite state has the same expansion in both
  have hexpanded : ∀ {id : Nat} {place : Place}, places[id]? = some place → ∃ expansion : Expansion W,
      (r.final? id = expansion.final ∧ r'.final? (f id) = expansion.final) ∧
        List.Forall₂ (Numbers places) expansion.steps (r.arcsAt id).toList ∧
          List.Forall₂ (Numbers places') expansion.steps (r'.arcsAt (f id)).toList := by
    intro id place hid
    obtain ⟨expansion, hexpands, hfinal, harcs⟩ := h.expanded hid
    obtain ⟨expansion', hexpands', hfinal', harcs'⟩ := h'.expanded (hf id place hid)
    have hsame := hexpands' 0
    rw [expand_withCaches, hexpands 0] at hsame
    obtain rfl := Except.ok.inj hsame
    exact ⟨expansion, ⟨hfinal, hfinal'⟩, harcs, harcs'⟩
  refine ⟨f, ⟨?_, hf.start_eq h h' rfl, fun {id} hid => ?_, fun {id} hid => ?_, fun _ harc => ?_, ?_⟩, ?_⟩
  · exact hf.bijOn h.toPresents h'.toPresents fun place hplace =>
      h.mem_iff.2 (hagrees'.met (h'.mem_iff.1 hplace))
  · obtain ⟨place, hid⟩ := h.exists_place hid
    obtain ⟨expansion, ⟨hfinal, hfinal'⟩, -⟩ := hexpanded hid
    exact hfinal'.trans hfinal.symm
  · obtain ⟨place, hid⟩ := h.exists_place hid
    obtain ⟨expansion, -, harcs, harcs'⟩ := hexpanded hid
    apply Array.ext'
    rw [Array.toList_map]
    exact hf.arcs_eq h'.toPresents harcs harcs'
  · exact h.target_lt harc
  · exact ⟨h'.symbols_eq.1.trans h.symbols_eq.1.symm, h'.symbols_eq.2.trans h.symbols_eq.2.symm⟩
  · intro id hid
    obtain ⟨place, hid⟩ := h.exists_place hid
    rw [hid]
    exact hf id place hid

end

/-- Whatever the operands have found out about themselves before, and whatever has been asked of either
composition of them, to build the composition as a whole is refused both times, since some composite state
cannot be expanded, or the results are complete and the same but for the numbers of their states. -/
theorem exists_renumbers_after [Ranked W] {a b : Automaton W} {cache cache' : PropertyCache}
    (ha : a.CacheSound) (hb : b.CacheSound) (ha' : Automaton.CacheSound { a with cache })
    (hb' : Automaton.CacheSound { b with cache := cache' }) {opts : Options} {c c' : Composition W}
    {operands operands' : Automaton W × Automaton W} (hbuild : build opts (a, b) = .ok c operands)
    (hbuild' : build opts ({ a with cache }, { b with cache := cache' }) = .ok c' operands')
    (calls calls' : List Call) :
    (c.Stuck ∧ ∃ e e' memo memo', c.toAutomaton (c.after calls) = .error e memo ∧
      c'.toAutomaton (c'.after calls') = .error e' memo') ∨
    ∃ r r' memo memo' f, c.toAutomaton (c.after calls) = .ok r memo ∧
      c'.toAutomaton (c'.after calls') = .ok r' memo' ∧
      Completes c r memo.places ∧ Completes c' r' memo'.places ∧ Renumbers f r r' ∧
      ∀ id < r.size, memo'.places[f id]? = memo.places[id]? := by
  obtain ⟨plan, left, right, hplan, rfl⟩ := eq_of_build ha hb hbuild
  obtain ⟨plan', left', right', hplan', rfl⟩ := eq_of_build ha' hb' hbuild'
  obtain rfl := Except.ok.inj (hplan.symm.trans hplan')
  -- the second composition is the first one, but for what its operands have cached
  have hagrees := agrees_withCaches ((of opts plan a b).withCaches left right) left' right'
  have hagrees' := agrees_withCaches ((of opts plan a b).withCaches left' right') left right
  refine (hagrees.toAutomaton hagrees' (explored_after calls) (explored_after calls')).imp_right ?_
  rintro ⟨r, r', memo, memo', heq, heq', hr, hr'⟩
  obtain ⟨f, hf, hplaces⟩ := hr.exists_renumbers hr'
  exact ⟨r, r', memo, memo', f, heq, heq', hr, hr', hf, hplaces⟩

/-- An automaton with two ways to go, one state longer each. -/
def fork : Automaton (ExactCost ℤ) where
  states := #[{ arcs := #[⟨1, 1, ⟨1⟩, 1⟩, ⟨2, 2, ⟨1⟩, 2⟩] }, { arcs := #[⟨3, 3, ⟨1⟩, 3⟩] },
    { arcs := #[⟨4, 4, ⟨1⟩, 4⟩] }, { final := some 1 }, { final := some 1 }]
  start := some 0

/-- An automaton that accepts what the fork writes. -/
def turnstile : Automaton (ExactCost ℤ) where
  states := #[{ final := some 1, arcs := #[⟨1, 5, 1, 0⟩, ⟨2, 6, 1, 0⟩, ⟨3, 7, 1, 0⟩, ⟨4, 8, 1, 0⟩] }]
  start := some 0

/-- The states behind the fork change their numbers if the second way is asked for first. -/
theorem exists_renumbers_after_fork : ∃ c c' operands operands',
    build {} (fork, turnstile) = .ok c operands ∧
    build {} ({ fork with cache := { known := .all, value := fork.facts } }, turnstile) = .ok c' operands' ∧
    ∃ r r' memo memo' f, c.toAutomaton (c.after []) = .ok r memo ∧
      c'.toAutomaton (c'.after [.arcs 7, .start, .arcs 0, .arcs 2]) = .ok r' memo' ∧
      Completes c r memo.places ∧ Completes c' r' memo'.places ∧ Renumbers f r r' ∧
      ∀ id < r.size, memo'.places[f id]? = memo.places[id]? := by
  have hfork : fork.CacheSound := PropertyCache.sound_empty _
  have hturnstile : turnstile.CacheSound := PropertyCache.sound_empty _
  have hknowing : Automaton.CacheSound { fork with cache := { known := .all, value := fork.facts } } := rfl
  have hplan : Options.plan {} = .ok .perState := rfl
  obtain ⟨left, right, hbuild⟩ := exists_build hfork hturnstile hplan rfl rfl rfl
  obtain ⟨_, _, hbuild'⟩ := exists_build hknowing hturnstile hplan rfl rfl rfl
  refine ⟨_, _, _, _, hbuild, hbuild', ?_⟩
  obtain ⟨-, e, _, memo, _, herror, -⟩ | hsame := exists_renumbers_after hfork hturnstile hknowing hturnstile
    hbuild hbuild' [] [.arcs 7, .start, .arcs 0, .arcs 2]
  · -- the arcs of both operands stay within them
    have hwf : fork.WellFormed := by decide
    have hwf' : turnstile.WellFormed := by decide
    have hplain := plain_of (a := fork) (b := turnstile) hplan rfl rfl
      (Automaton.forall_mem_arcsAt_iff.2 (by decide)) (Automaton.forall_mem_arcsAt_iff.2 (by decide)) left right
    obtain ⟨r, memo', hr, -⟩ := hplain.exists_completes ⟨hwf.start_lt, hwf.target_lt, hwf.isZero_final⟩
      ⟨hwf'.start_lt, hwf'.target_lt, hwf'.isZero_final⟩
    cases herror.symm.trans hr
  · exact hsame

end Transducer.Composition
