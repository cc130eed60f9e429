import Mathlib
import Transducer.Proofs.Composition.Calls

/-!
# What a composition knows

Whatever is asked of a composition, and in whatever order, what it knows stays in order (`inOrder_of_asked`):
composite states and numbers determine each other, the arcs of expanded states lead to states that have numbers,
and nothing that is known changes later. A call that fails to expand a composite state leaves all as it was.
Where the arcs of the operands stay within them, only so many composite states can be met as there are pairs of
operand states with a turn, and the search for all of them ends.
-/

namespace Transducer.Composition

variable {W : Type}

/-- Composite states and their numbers determine each other, for each number there is a place for what is known
of the composite state, and what is known has no other numbers. -/
structure Memo.InOrder (memo : Memo W) : Prop where
  ids_iff : ∀ {place : Place} {id : Nat}, memo.ids[place]? = some id ↔ memo.places[id]? = some place
  size_known : memo.known.size = memo.size
  target_lt : ∀ {id : Nat} {known : Known W}, memo.known? id = some known →
    ∀ arc ∈ known.arcs, arc.target < memo.size

variable [Weight W] {c : Composition W} {memo memo' : Memo W}

theorem Consistent.inOrder (h : Consistent c memo) : memo.InOrder where
  ids_iff := h.ids_iff
  size_known := h.size_known
  target_lt := by
    intro id known hknown arc harc
    obtain ⟨place, expansion, -, -, -, hsteps⟩ := h.expanded hknown
    obtain ⟨step, -, -, htarget⟩ := exists_of_mem_right hsteps (Array.mem_toList_iff.2 harc)
    exact (Array.getElem?_eq_some_iff.1 htarget).1

/-! ### Calls one by one -/

/-- What is known after some calls. Each of them asks for the start or for a composite state, and may fail. -/
inductive Asked (c : Composition W) (memo : Memo W) : Memo W → Prop where
  | nothing : Asked c memo memo
  | start {memo' : Memo W} : Asked c memo memo' → Asked c memo (stateAfter c.start memo')
  | request {memo' : Memo W} (id : Nat) : Asked c memo memo' → Asked c memo (stateAfter (c.request id) memo')

theorem asked_toAutomaton : c.Asked memo (stateAfter c.toAutomaton memo) :=
  keeps_toAutomaton (P := c.Asked memo) (fun _ h => h.start) (fun id _ h => h.request id) memo .nothing

/-- What is known to be right stays so, and nothing is lost. -/
theorem Asked.explored (hasked : c.Asked memo memo') (h : Explored c memo) :
    Explored c memo' ∧ memo.Grows memo' := by
  induction hasked with
  | nothing => exact ⟨h, .refl memo⟩
  | @start memo' _ ih =>
    obtain ⟨h', hgrows⟩ := ih
    rw [stateAfter]
    obtain ⟨-, heq⟩ | ⟨place, id, memo'', -, heq, h'', hgrows', -⟩ := start_spec h'
    · rw [heq]
      exact ⟨h', hgrows⟩
    · rw [heq]
      exact ⟨h'', hgrows.trans hgrows'⟩
  | @request memo' id _ ih =>
    obtain ⟨h', hgrows⟩ := ih
    rw [stateAfter]
    obtain ⟨known, memo'', heq, h'', hgrows', -⟩ | ⟨e, heq, -⟩ := request_spec h' id
    · rw [heq]
      exact ⟨h'', hgrows.trans hgrows'⟩
    · rw [heq]
      exact ⟨h', hgrows⟩

/-! ### Calls that fail -/

/-- A request that fails leaves all as it was, and the composite state unexpanded. -/
theorem eq_of_request_error {id : Nat} {e : Error} (h : c.request id memo = .error e memo') :
    memo' = memo ∧ memo.known? id = none := by
  unfold request at h
  split at h
  · cases h
  · next hknown =>
    split at h
    · cases h
      exact ⟨rfl, hknown⟩
    · split at h
      · cases h
        exact ⟨rfl, hknown⟩
      · cases h

/-- A search that fails ends with a request that fails. -/
theorem Sweeps.exists_refused {first : Nat} {result : EStateM.Result Error (Memo W) Unit}
    (h : Sweeps c first memo result) {e : Error} (hresult : result = .error e memo') :
    ∃ id < memo'.size, c.request id memo' = .error e memo' := by
  induction h with
  | done => cases hresult
  | @refused id e memo memo' hlt hrequest =>
    cases hresult
    obtain ⟨rfl, -⟩ := eq_of_request_error hrequest
    exact ⟨id, hlt, hrequest⟩
  | next _ _ _ ih => exact ih hresult

/-- To build the composition as a whole fails only where some composite state cannot be expanded. -/
theorem exists_refused_of_toAutomaton (h : Explored c memo) {e : Error}
    (herror : c.toAutomaton memo = .error e memo') :
    ∃ id < memo'.size, c.request id memo' = .error e memo' := by
  obtain ⟨-, hstart⟩ | ⟨place, id, started, -, hstart, hexplored, -⟩ := start_spec h
  · simp only [toAutomaton, bind, EStateM.bind, hstart] at herror
    cases herror
  · have hsweeps := hexplored.sweeps
    cases hsearch : c.requestFrom c.bound 0 started with
    | ok u last =>
      simp only [toAutomaton, bind, EStateM.bind, hstart, hsearch] at herror
      cases herror
    | error e' last =>
      simp only [toAutomaton, bind, EStateM.bind, hstart, hsearch] at herror
      rw [hsearch] at hsweeps
      cases herror
      exact hsweeps.exists_refused rfl

/-! ### After any calls -/

/-- Whatever has been asked of a composition, what it knows is in order, and not more composite states have been
met than there are pairs of operand states with a turn. Nothing that is known changes later. A request that fails
leaves all as it was, and the composite state unexpanded. The search for all composite states ends; where it
fails, the last request was the one that failed. -/
theorem inOrder_of_asked {a b : Automaton W} (ha : a.Confined) (hb : b.Confined) {opts : Options}
    {operands : Automaton W × Automaton W} (hbuild : build opts (a, b) = .ok c operands)
    (hasked : c.Asked {} memo) :
    memo.InOrder ∧ memo.size ≤ 2 * a.size * b.size ∧
    (∀ memo', c.Asked memo memo' → memo.Grows memo') ∧
    (∀ id e memo', c.request id memo = .error e memo' → memo' = memo ∧ memo.known? id = none) ∧
    Sweeps c 0 memo (c.requestFrom c.bound 0 memo) ∧
    ∀ e memo', c.toAutomaton memo = .error e memo' → c.Asked memo memo' ∧
      ∃ id < memo'.size, memo'.known? id = none ∧ c.request id memo' = .error e memo' := by
  obtain ⟨hexplored, -⟩ := hasked.explored (explored_empty c)
  refine ⟨hexplored.inOrder, ?_, fun memo' h => (h.explored hexplored).2, fun id e memo' h =>
    eq_of_request_error h, hexplored.sweeps, fun e memo' h => ?_⟩
  · obtain ⟨-, -, hleft, hright⟩ := parts_of_build hbuild
    obtain ⟨_, hl⟩ := Matcher.automaton_of_build hleft
    obtain ⟨_, hr⟩ := Matcher.automaton_of_build hright
    have hle := hexplored.size_le (hl ▸ ⟨ha.start_lt, ha.target_lt⟩) (hr ▸ ⟨hb.start_lt, hb.target_lt⟩)
    rwa [hl, hr] at hle
  · have hafter : c.Asked memo (stateAfter c.toAutomaton memo) := asked_toAutomaton
    rw [stateAfter, h] at hafter
    obtain ⟨id, hlt, hrequest⟩ := exists_refused_of_toAutomaton hexplored h
    exact ⟨hafter, id, hlt, (eq_of_request_error hrequest).2, hrequest⟩

/-- An automaton that goes on for ever with one label. -/
def treadmill (label : Label) : Automaton (ExactCost ℤ) where
  states := #[{ arcs := #[⟨5, 5, 1, 1⟩] }, { final := some 1, arcs := #[⟨label, label, ⟨1⟩, 1⟩] }]
  start := some 0

/-- Either operand has a label that matches every label. -/
def wildcards : Options where
  left := { side := some .output, layers := [⟨.sigma, 8⟩] }
  right := { layers := [⟨.sigma, 9⟩] }

/-- The composite state behind the first one cannot be expanded, since neither operand can be listed there. -/
theorem inOrder_of_asked_treadmill : ∃ c operands, build wildcards (treadmill 8, treadmill 9) = .ok c operands ∧
    c.expand 1 ⟨1, 1, .either⟩ = .error (.config (.bothSpecial 1 1 1)) ∧
    ∃ memo, memo = stateAfter (c.request 1) (stateAfter (c.request 0) (stateAfter c.start {})) ∧
      memo.InOrder ∧ memo.size ≤ 2 * (treadmill 8).size * (treadmill 9).size ∧
      (∀ memo', c.Asked memo memo' → memo.Grows memo') ∧
      (∀ id e memo', c.request id memo = .error e memo' → memo' = memo ∧ memo.known? id = none) ∧
      Sweeps c 0 memo (c.requestFrom c.bound 0 memo) ∧
      ∀ e memo', c.toAutomaton memo = .error e memo' → c.Asked memo memo' ∧
        ∃ id < memo'.size, memo'.known? id = none ∧ c.request id memo' = .error e memo' := by
  have ha : (treadmill 8).CacheSound := PropertyCache.sound_empty _
  have hb : (treadmill 9).CacheSound := PropertyCache.sound_empty _
  have hplan : wildcards.plan = .ok .perState := rfl
  obtain ⟨cache, cache', hbuild⟩ := exists_build ha hb hplan rfl rfl rfl
  refine ⟨_, _, hbuild, ?_, _, rfl, inOrder_of_asked (by decide) (by decide) hbuild ?_⟩
  · rw [expand_withCaches]
    cbv
  · exact ((Asked.nothing.start).request 0).request 1

end Transducer.Composition
