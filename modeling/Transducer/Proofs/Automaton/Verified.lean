import Mathlib
import Transducer.Automaton.Verification
import Transducer.Proofs.Automaton.Results
import Transducer.Proofs.Composition.Paths
import Transducer.Proofs.Property.Upkeep
import Transducer.Weight.Tropical

/-!
# Verified automata

What `verify` accepts are the automata that meet a standard and whose cached properties are facts
(`verify_eq_ok_iff`). Algorithms keep that but for the weights, of which a sum or a product may leave the members:
whatever is derived from verified automata is accepted if its weights are members (`verify_of_derived`). Labels and
tables change together: a projection moves the table with the labels, and a composition has the outer tables of its
operands.
-/

namespace Transducer

variable {W : Type} [Weight W] {P : W → Prop} {a b : Automaton W}

/-- The label may stand on an arc whose side has the table, if any. -/
def Permits (table : Option SymbolTable) (label : Label) : Prop :=
  label ≠ noLabel ∧ ∀ t, table = some t → label = epsilon ∨ t.hasKey label = true

theorem permits_epsilon (table : Option SymbolTable) : Permits table epsilon :=
  ⟨by decide, fun _ _ => .inl rfl⟩

/-- The standard of verified automata with weights that have the property. -/
def Standard.verified (P : W → Prop) (symbols : Side → Option SymbolTable) : Standard W where
  weight := P
  final := P
  label side := Permits (symbols side)

theorem ClosedWeights.closed_verified (hP : ClosedWeights P) (symbols : Side → Option SymbolTable) :
    (Standard.verified P symbols).Closed where
  label_epsilon side := permits_epsilon (symbols side)
  weight_zero := hP.zero
  weight_one := hP.one
  weight_add := hP.add
  weight_mul := hP.mul
  weight_of_final := id
  final_of_weight h _ := h
  final_one := hP.one

/-! ### What is verified -/

/-- What the cache takes for true is so. -/
def PropertyCache.Trusted (cache : PropertyCache) (facts : PropertySet) : Prop :=
  facts.contains (cache.value.inter cache.known) = true

theorem PropertyCache.trusted_empty (facts : PropertySet) : ({} : PropertyCache).Trusted facts := by
  rw [Trusted, PropertySet.contains_iff]
  exact PropertySet.ext_bits (BitVec.and_zero ..)

/-- A search through all entries with their positions finds nothing if every entry passes, wherever it stands. -/
theorem findSome?_zipIdx_eq_none_iff {α β : Type} {f : α × Nat → Option β} {Q : α → Prop}
    (h : ∀ x i, f (x, i) = none ↔ Q x) (xs : Array α) :
    xs.toList.zipIdx.findSome? f = none ↔ ∀ x ∈ xs, Q x := by
  rw [List.findSome?_eq_none_iff]
  constructor
  · intro hnone x hx
    obtain ⟨i, hi⟩ := List.getElem?_of_mem (Array.mem_toList_iff.2 hx)
    exact (h x i).1 (hnone (x, i) (List.mem_zipIdx_iff_getElem?.2 hi))
  · rintro hall ⟨x, i⟩ hx
    have hmem := List.mem_of_getElem? (List.mem_zipIdx_iff_getElem?.1 hx)
    exact (h x i).2 (hall x (Array.mem_toList_iff.1 hmem))

omit [Weight W] in
theorem labelViolation?_eq_none_iff {s index : Nat} {arc : Arc W} {side : Side} :
    a.labelViolation? s index arc side = none ↔ Permits (a.symbols side) (arc.label side) := by
  unfold Automaton.labelViolation? Permits
  dsimp only
  by_cases hreserved : arc.label side = noLabel
  · simp [hreserved]
  · rw [if_neg hreserved]
    split
    · next table htable =>
      rw [htable]
      by_cases hepsilon : arc.label side = epsilon
      · rw [hepsilon] at hreserved
        simp [hepsilon, hreserved]
      · cases hkey : table.hasKey (arc.label side) <;> simp [hepsilon, hreserved, hkey]
    · next htable => simp [htable, hreserved]

section

variable [ToString W]

theorem arcViolation?_eq_none_iff {s index : Nat} {arc : Arc W} :
    a.arcViolation? s index arc = none ↔ arc.Meets (.verified (isMember · = true) a.symbols) a.size := by
  unfold Automaton.arcViolation?
  split
  · next hge => exact iff_of_false nofun fun h => Nat.not_lt.2 hge h.target_lt
  · next hlt =>
    cases hweight : isMember arc.weight with
    | false =>
      refine iff_of_false nofun fun h => ?_
      have hmember : isMember arc.weight = true := h.weight
      rw [hweight] at hmember
      cases hmember
    | true =>
      show (a.labelViolation? s index arc .input).or (a.labelViolation? s index arc .output) = none ↔ _
      rw [Option.or_eq_none_iff, labelViolation?_eq_none_iff, labelViolation?_eq_none_iff]
      constructor
      · rintro ⟨hi, ho⟩
        refine ⟨Nat.lt_of_not_le hlt, hweight, fun side => ?_⟩
        cases side with
        | input => exact hi
        | output => exact ho
      · exact fun h => ⟨h.label .input, h.label .output⟩

theorem stateViolation?_eq_none_iff {s : Nat} {state : State W} :
    a.stateViolation? s state = none ↔ state.Meets (.verified (isMember · = true) a.symbols) a.size := by
  unfold Automaton.stateViolation?
  split
  · next weight hweight =>
    obtain ⟨hfinal, hmember⟩ := Option.filter_eq_some_iff.1 hweight
    refine iff_of_false nofun fun h => ?_
    have h : isMember weight = true := h.final weight hfinal
    simp [h] at hmember
  · next hfinal =>
    have hfinal : ∀ weight ∈ state.final, isMember weight = true := by
      intro weight hweight
      simpa using Option.filter_eq_none_iff.1 hfinal weight hweight
    rw [findSome?_zipIdx_eq_none_iff fun arc index => arcViolation?_eq_none_iff]
    exact ⟨fun h => ⟨h, hfinal⟩, fun h => h.arcs⟩

/-- An automaton is accepted if it meets the standard and has cached no property that it does not have. -/
theorem verify_eq_ok_iff : a.verify = .ok () ↔
    a.Meets (.verified (isMember · = true) a.symbols) ∧ a.cache.Trusted a.facts := by
  have hviolation : a.verify = .ok () ↔ a.violation? = none := by
    unfold Automaton.verify
    cases a.violation? <;> simp
  have hstates : (a.states.toList.zipIdx.findSome? fun x => a.stateViolation? x.2 x.1) = none ↔
      ∀ state ∈ a.states, state.Meets (.verified (isMember · = true) a.symbols) a.size :=
    findSome?_zipIdx_eq_none_iff (fun _ _ => stateViolation?_eq_none_iff) a.states
  rw [hviolation]
  unfold Automaton.violation?
  split
  · next start hstart =>
    obtain ⟨hstart, hge⟩ := Option.filter_eq_some_iff.1 hstart
    refine iff_of_false (Option.some_ne_none _) fun h => ?_
    exact Nat.not_lt.2 (of_decide_eq_true hge) (h.1.start_lt hstart)
  · next hstart =>
    have hstart : ∀ {s : Nat}, a.start = some s → s < a.size := by
      intro s hs
      simpa using Option.filter_eq_none_iff.1 hstart s hs
    split
    · next violation hfound =>
      refine iff_of_false (Option.some_ne_none _) fun h => ?_
      exact Option.some_ne_none _ (hfound.symm.trans (hstates.2 h.1.states))
    · next hnone =>
      have hmeets : a.Meets (.verified (isMember · = true) a.symbols) := ⟨hstart, hstates.1 hnone⟩
      rw [PropertyCache.Trusted]
      cases hfacts : a.facts.contains (a.cache.value.inter a.cache.known) with
      | true => exact iff_of_true (if_pos hfacts) ⟨hmeets, rfl⟩
      | false => simp [hfacts]

end

/-! ### What algorithms keep -/

section Tables

variable {W : Type} (a : Automaton W)

/-- Tables are attached to an automaton, not to its states. -/
theorem symbols_congr {b : Automaton W} (hi : b.inputSymbols = a.inputSymbols)
    (ho : b.outputSymbols = a.outputSymbols) : b.symbols = a.symbols := by
  funext side
  cases side with
  | input => exact hi
  | output => exact ho

theorem symbols_mapStates (f : State W → State W) : (a.mapStates f).symbols = a.symbols := by
  unfold Automaton.mapStates
  split
  · rfl
  · exact symbols_congr a rfl rfl

theorem symbols_trim : a.trim.symbols = a.symbols := by
  unfold Automaton.trim
  dsimp only
  split
  · rfl
  · exact symbols_congr a rfl rfl

theorem symbols_project (side : Side) : (a.project side).symbols = fun _ => a.symbols side := by
  have hmap := symbols_mapStates a fun state =>
    { state with arcs := state.arcs.map fun arc => arc.withLabel side.other (arc.label side) }
  funext other
  cases side <;> cases other
  · exact congrFun hmap .input
  · rfl
  · rfl
  · exact congrFun hmap .output

theorem symbols_closure [Weight W] (repetition : Repetition) : (a.closure repetition).symbols = a.symbols := by
  have hloop : ∀ start, (a.loopBack start).symbols = a.symbols := by
    intro start
    unfold Automaton.loopBack
    split
    · rfl
    · exact symbols_mapStates a _
  unfold Automaton.closure
  split
  · rfl
  · exact symbols_congr a rfl rfl
  · exact hloop _
  · next start _ => exact (symbols_congr (a.loopBack start) rfl rfl).trans (hloop start)

end Tables

/-- The automaton meets the standard of verified ones with weights that have the property, and has cached no
property that it does not have. -/
structure Verified (P : W → Prop) (a : Automaton W) : Prop where
  meets : a.Meets (.verified P a.symbols)
  cached : a.cache.Trusted a.facts

/-- All weights have the property. -/
def Automaton.WeightsIn (P : W → Prop) (a : Automaton W) : Prop :=
  (∀ {s : Nat}, ∀ arc ∈ a.arcsAt s, P arc.weight) ∧
    ∀ {s : Nat} {weight : W}, a.final? s = some weight → P weight

omit [Weight W] in
theorem Automaton.WeightsIn.imp {Q : W → Prop} (h : a.WeightsIn P) (hPQ : ∀ w, P w → Q w) : a.WeightsIn Q :=
  ⟨fun arc harc => hPQ _ (h.1 arc harc), fun hweight => hPQ _ (h.2 hweight)⟩

omit [Weight W] in
/-- Only the weights depend on which of them may stand there. -/
theorem Automaton.Meets.reweigh {Q : W → Prop} {symbols : Side → Option SymbolTable}
    (h : a.Meets (.verified P symbols)) (hweights : a.WeightsIn Q) : a.Meets (.verified Q symbols) := by
  refine Automaton.meets_iff.2 ⟨h.start_lt, fun {s} arc harc => ?_, hweights.2⟩
  have hmeets := h.arc harc
  exact ⟨hmeets.target_lt, hweights.1 arc harc, hmeets.label⟩

namespace Verified

theorem of_verify [ToString W] (h : a.verify = .ok ()) (hweights : a.WeightsIn P) : Verified P a := by
  obtain ⟨hmeets, hcached⟩ := verify_eq_ok_iff.1 h
  exact ⟨hmeets.reweigh hweights, hcached⟩

theorem weightsIn (h : Verified P a) : a.WeightsIn P :=
  ⟨fun _ harc => (h.meets.arc harc).weight, fun hweight => h.meets.final hweight⟩

/-- Where all else is right, only the weights are left to be checked. -/
theorem verify_iff [ToString W] (h : Verified P a) : a.verify = .ok () ↔ a.WeightsIn (isMember · = true) := by
  rw [verify_eq_ok_iff]
  constructor
  · rintro ⟨hmeets, hcached⟩
    exact weightsIn ⟨hmeets, hcached⟩
  · exact fun hweights => ⟨h.meets.reweigh hweights, h.cached⟩

/-- An algorithm that does not touch tables has to keep what may stand on arcs, and what is cached. -/
theorem of_meets (h : Verified P a) (hb : b.Meets (.verified P a.symbols)) (hsymbols : b.symbols = a.symbols)
    (hrenewed : a.Renewed b) : Verified P b :=
  ⟨hsymbols ▸ hb, hrenewed.of_cache PropertyCache.trusted_empty h.cached⟩

theorem of_cache_eq_empty (hb : b.Meets (.verified P b.symbols)) (hcache : b.cache = {}) : Verified P b := by
  refine ⟨hb, ?_⟩
  rw [hcache]
  exact PropertyCache.trusted_empty _

theorem trim (h : Verified P a) : Verified P a.trim :=
  h.of_meets h.meets.trim (symbols_trim a) a.renewed_trim

theorem deleteStates (h : Verified P a) {deleted : List Nat} (hb : Edit.deleteStates deleted a = .ok () b) :
    Verified P b := by
  have heq := Edit.stateAfter_deleteStates deleted a
  rw [stateAfter_of_ok hb] at heq
  split at heq
  · exact heq ▸ h.of_meets (h.meets.keep _) (symbols_congr a rfl rfl) (.inl rfl)
  · exact heq ▸ h

theorem sortArcs (h : Verified P a) (side : Side) : Verified P (a.sortArcs side) :=
  h.of_meets (h.meets.sortArcs side) (symbols_mapStates a _) (a.renewed_sortArcs side)

/-- The table moves with the labels. -/
theorem project (h : Verified P a) (side : Side) : Verified P (a.project side) := by
  refine ⟨?_, (a.renewed_project side).of_cache PropertyCache.trusted_empty h.cached⟩
  rw [symbols_project]
  exact h.meets.project side

theorem closure (h : Verified P a) (hP : ClosedWeights P) (repetition : Repetition) :
    Verified P (a.closure repetition) :=
  h.of_meets (h.meets.closure (hP.closed_verified _) repetition) (symbols_closure a repetition)
    (a.renewed_closure repetition)

theorem removeEpsilons {D : Type} [Tolerance W D] (h : Verified P a) (hP : ClosedWeights P)
    {config : EpsilonRemoval D} (hb : Edit.removeEpsilons config a = .ok () b) : Verified P b := by
  have hbypass : Verified P a.bypass :=
    h.of_meets (h.meets.bypass (hP.closed_verified _)) (symbols_congr a rfl rfl) (.inl rfl)
  obtain heq | heq | heq := Edit.stateAfter_removeEpsilons (fun harc => (h.meets.arc harc).target_lt) config
  · exact (stateAfter_of_ok hb).symm.trans heq ▸ h
  · exact (stateAfter_of_ok hb).symm.trans heq ▸ hbypass
  · exact (stateAfter_of_ok hb).symm.trans heq ▸ hbypass.trim

theorem bestPaths {D : Type} [Ranked W] [Tolerance W D] (h : Verified P a) (hP : ClosedWeights P) {count : Nat}
    {bound : D} {steps : Nat} (hb : a.bestPaths count bound steps = some b) : Verified P b := by
  obtain ⟨hmeets, hsymbols, hcache⟩ := Automaton.meets_bestPaths h.meets (hP.closed_verified _) hb
  exact of_cache_eq_empty (hsymbols ▸ hmeets) hcache

/-- Each side of a composition has the table of the operand that its labels are from. -/
theorem compose {r : Automaton W} (ha : Verified P a) (hb : Verified P b) (hP : ClosedWeights P)
    {opts : Composition.Options} (hl : opts.left.layers = []) (hr : opts.right.layers = [])
    {operands : Automaton W × Automaton W} (h : compose opts (a, b) = .ok r operands) : Verified P r := by
  obtain ⟨c, whole, places, hbuild, hcompletes, hcache, hwhole⟩ := Composition.exists_completes_of_compose h
  obtain ⟨-, -, hleft, hright⟩ := Composition.parts_of_build hbuild
  obtain ⟨cache, hleft⟩ := Matcher.automaton_of_build hleft
  obtain ⟨cache', hright⟩ := Matcher.automaton_of_build hright
  have hla : c.left.automaton.Meets (.verified P a.symbols) := ha.meets.congr (by rw [hleft]) (by rw [hleft])
  have hlb : c.right.automaton.Meets (.verified P b.symbols) := hb.meets.congr (by rw [hright]) (by rw [hright])
  have hmeets : whole.Meets (.verified P whole.symbols) := by
    refine hcompletes.meets (Composition.exact_of_build hbuild hl hr) hla hlb ?_ ?_ (hP.closed_verified _)
    · show Permits a.inputSymbols = Permits whole.inputSymbols
      rw [hcompletes.symbols_eq.1, hleft]
    · show Permits b.outputSymbols = Permits whole.outputSymbols
      rw [hcompletes.symbols_eq.2, hright]
  have hverified := of_cache_eq_empty hmeets hcache
  rcases hwhole with rfl | rfl
  · exact hverified
  · exact hverified.trim

end Verified

/-! ### What is derived from verified automata -/

section Derived

variable [ToString W]

/-- What algorithms derive from verified automata whose weights have the property. The matchers of compositions
are those without layers. -/
inductive Derived (P : W → Prop) : Automaton W → Prop where
  | given {a : Automaton W} : a.verify = .ok () → a.WeightsIn P → Derived P a
  | trim {a : Automaton W} : Derived P a → Derived P a.trim
  | deleteStates {a b : Automaton W} {deleted : List Nat} :
      Derived P a → Edit.deleteStates deleted a = .ok () b → Derived P b
  | sortArcs {a : Automaton W} (side : Side) : Derived P a → Derived P (a.sortArcs side)
  | project {a : Automaton W} (side : Side) : Derived P a → Derived P (a.project side)
  | closure {a : Automaton W} (repetition : Repetition) : Derived P a → Derived P (a.closure repetition)
  | removeEpsilons {D : Type} [Tolerance W D] {a b : Automaton W} {config : EpsilonRemoval D} :
      Derived P a → Edit.removeEpsilons config a = .ok () b → Derived P b
  | bestPaths {D : Type} [Ranked W] [Tolerance W D] {a r : Automaton W} {count : Nat} {bound : D} {steps : Nat} :
      Derived P a → a.bestPaths count bound steps = some r → Derived P r
  | compose {a b r : Automaton W} {opts : Composition.Options} {operands : Automaton W × Automaton W} :
      Derived P a → Derived P b → opts.left.layers = [] → opts.right.layers = [] →
        compose opts (a, b) = .ok r operands → Derived P r

theorem Derived.verified {Q : W → Prop} (hQ : ClosedWeights Q) (hPQ : ∀ w, P w → Q w) (h : Derived P a) :
    Verified Q a := by
  induction h with
  | given h hweights => exact .of_verify h (hweights.imp hPQ)
  | trim _ ih => exact ih.trim
  | deleteStates _ h ih => exact ih.deleteStates h
  | sortArcs side _ ih => exact ih.sortArcs side
  | project side _ ih => exact ih.project side
  | closure repetition _ ih => exact ih.closure hQ repetition
  | removeEpsilons _ h ih => exact ih.removeEpsilons hQ h
  | bestPaths _ h ih => exact ih.bestPaths hQ h
  | compose _ _ hl hr h ih ih' => exact ih.compose ih' hQ hl hr h

/-- Whatever is derived from verified automata is accepted, unless a sum or a product of weights has left the
members. It has not if the given weights are from a closed set of members. -/
theorem verify_of_derived (h : Derived P a) : (a.verify = .ok () ↔ a.WeightsIn (isMember · = true)) ∧
    (ClosedWeights P → (∀ w, P w → isMember w = true) → a.verify = .ok ()) := by
  have hany : a.verify = .ok () ↔ a.WeightsIn (isMember · = true) :=
    (h.verified closedWeights_true fun _ _ => trivial).verify_iff
  refine ⟨hany, fun hP hmember => hany.2 ?_⟩
  have hverified : Verified P a := h.verified hP fun _ => id
  exact hverified.weightsIn.imp hmember

end Derived

/-- A step is free or cannot be taken. -/
theorem closedWeights_zero_one : ClosedWeights fun weight : Tropical => weight = 0 ∨ weight = 1 where
  zero := .inl rfl
  one := .inr rfl
  add h h' := by rcases h with rfl | rfl <;> rcases h' with rfl | rfl <;> decide
  mul h h' := by rcases h with rfl | rfl <;> rcases h' with rfl | rfl <;> decide

/-- A table of one letter beside epsilon. -/
def letters : SymbolTable := (SymbolTable.withEpsilon "letters").bind "a" 1

/-- An automaton that repeats its letter after it has waited as long as it wants. -/
def stutter : Automaton Tropical where
  states := #[{ arcs := #[⟨epsilon, epsilon, 1, 0⟩, ⟨1, 1, 1, 1⟩] }, { final := some 1 }]
  start := some 0
  inputSymbols := some letters
  outputSymbols := some letters

/-- The automaton is composed with itself, and the result repeated, projected and trimmed. -/
theorem verify_of_derived_stutter : ∃ r operands, compose {} (stutter, stutter) = .ok r operands ∧
    (((r.closure .star).project .output).trim).verify = .ok () := by
  have hlabels : ∀ {s : Nat}, ∀ arc ∈ stutter.arcsAt s, arc.ilabel ≠ noLabel ∧ arc.olabel ≠ noLabel :=
    Automaton.forall_mem_arcsAt_iff.2 (by decide)
  have hfinal : ∀ {s : Nat} {weight : Tropical}, stutter.final? s = some weight → weight = 0 ∨ weight = 1 :=
    (Automaton.forall_final?_iff (P := fun weight => weight = 0 ∨ weight = 1)).2 (by decide)
  have hweights : stutter.WeightsIn fun weight => weight = 0 ∨ weight = 1 :=
    ⟨Automaton.forall_mem_arcsAt_iff.2 (by decide), hfinal⟩
  have hgiven : Derived (fun weight => weight = 0 ∨ weight = 1) stutter := .given (by decide +kernel) hweights
  have hsound : stutter.CacheSound := PropertyCache.sound_empty _
  have hwf : stutter.WellFormed := by decide
  have hsymbols : ∀ written read, stutter.outputSymbols = some written → stutter.inputSymbols = some read →
      written.isCompatible read = true := by
    rintro _ _ ⟨⟩ ⟨⟩
    decide
  obtain ⟨c, cache, cache', hbuild, hplain, hleft, hright⟩ :=
    Composition.build_eq hsound hsound (fun arc h => (hlabels arc h).2) (fun arc h => (hlabels arc h).1) hsymbols
      (show Composition.Options.plan {} = .ok .perState from rfl) rfl rfl
  obtain ⟨whole, memo, hwhole, -⟩ := hplain.exists_completes
    (hleft ▸ ⟨hwf.start_lt, hwf.target_lt, hwf.isZero_final⟩)
    (hright ▸ ⟨hwf.start_lt, hwf.target_lt, hwf.isZero_final⟩)
  have hcompose := Composition.compose_of_build hbuild hwhole
  have hderived := Derived.trim (.project .output (.closure .star (.compose hgiven hgiven rfl rfl hcompose)))
  refine ⟨_, _, hcompose, (verify_of_derived hderived).2 closedWeights_zero_one ?_⟩
  rintro _ (rfl | rfl) <;> decide

end Transducer
