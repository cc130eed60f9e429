import Mathlib
import Transducer.Automaton.Relabel
import Transducer.Proofs.Automaton.Verified
import Transducer.Proofs.SymbolTable.History

/-!
# Re-keying

An automaton is re-keyed as a whole or not at all: each side that is to be re-keyed needs a table, and each of its
labels a symbol there to which the new table gives a key (`rekey_eq_ok_iff`). On the labels themselves, re-keying
from one table to another is undone by re-keying back, as tables are one to one.

Only epsilon is looked at by its number, and only before it is looked up. A table may bind a symbol to epsilon,
though, or to `noLabel`. A label of such a symbol turns into epsilon, and re-keying back does not bring it back
(`exists_rekey_back`), or it turns into `noLabel`, which `verify` refuses (`verify_rekey_iff`).
-/

namespace Transducer

variable {W : Type}

/-! ### What re-keying does -/

/-- Each label has become what it is re-keyed to, and nothing else has changed. -/
structure Arc.Rekeyed (label? : Side → Label → Option Label) (arc new : Arc W) : Prop where
  label : ∀ side, label? side (arc.label side) = some (new.label side)
  weight : new.weight = arc.weight
  target : new.target = arc.target

/-- The arcs are re-keyed in their order, and nothing else has changed. -/
structure State.Rekeyed (label? : Side → Label → Option Label) (state new : State W) : Prop where
  arcs : List.Forall₂ (Arc.Rekeyed label?) state.arcs.toList new.arcs.toList
  final : new.final = state.final

/-- The arc with its labels changed. -/
def Arc.relabel (f : Side → Label → Label) (arc : Arc W) : Arc W :=
  { arc with ilabel := f .input arc.ilabel, olabel := f .output arc.olabel }

/-- The state with the labels of its arcs changed. -/
def State.relabel (f : Side → Label → Label) (state : State W) : State W :=
  { state with arcs := state.arcs.map (Arc.relabel f) }

theorem Arc.label_relabel (f : Side → Label → Label) (arc : Arc W) (side : Side) :
    (arc.relabel f).label side = f side (arc.label side) := by
  cases side <;> rfl

theorem Arc.relabel_eq_self_iff {f : Side → Label → Label} {arc : Arc W} :
    arc.relabel f = arc ↔ ∀ side, f side (arc.label side) = arc.label side := by
  constructor
  · intro h side
    rw [← Arc.label_relabel f arc, h]
  · intro h
    show Arc.mk (f .input (arc.label .input)) (f .output (arc.label .output)) arc.weight arc.target = arc
    rw [h, h]
    rfl

/-- An array is mapped to itself if each of its items is. -/
theorem map_eq_self_iff {α : Type} {f : α → α} {xs : Array α} : xs.map f = xs ↔ ∀ x ∈ xs, f x = x := by
  rw [← Array.map_inj_left (g := fun x => x), Array.map_id']

theorem State.relabel_eq_self_iff {f : Side → Label → Label} {state : State W} :
    state.relabel f = state ↔ ∀ arc ∈ state.arcs, ∀ side, f side (arc.label side) = arc.label side := by
  obtain ⟨final, arcs⟩ := state
  simp only [State.relabel, State.mk.injEq, true_and, map_eq_self_iff, Arc.relabel_eq_self_iff]

/-- A state that is re-keyed twice has its labels changed, if each label depends on what it was at first. -/
theorem State.Rekeyed.relabel {label? label?' : Side → Label → Option Label} {f : Side → Label → Label}
    {state new : State W} (h : state.Rekeyed label? new)
    (hf : ∀ side label label', label? side label = some label' → label?' side label' = some (f side label)) :
    new.Rekeyed label?' (state.relabel f) := by
  refine ⟨?_, h.final.symm⟩
  have harcs := h.arcs.flip
  rw [State.relabel, Array.toList_map, List.forall₂_map_right_iff]
  refine harcs.imp fun new arc hrekeyed => ⟨fun side => ?_, hrekeyed.weight.symm, hrekeyed.target.symm⟩
  rw [Arc.label_relabel]
  exact hf side _ _ (hrekeyed.label side)

namespace Automaton

/-- Whether the labels of a side are to be re-keyed. -/
def chosen (input output : Bool) : Side → Bool
  | .input => input
  | .output => output

/-- The table to re-key the labels of a side from, if they are to be re-keyed and the side has a table. -/
def source? (a : Automaton W) (input output : Bool) (side : Side) : Option SymbolTable :=
  if chosen input output side then a.symbols side else none

/-- What becomes of a label. Where there is no table to re-key from, it stays. -/
def relabel? (source : Option SymbolTable) (target : SymbolTable) (label : Label) : Option Label :=
  match source with
  | none => some label
  | some source => rekeyLabel? source target label

/-- The automaton with re-keyed states, and with the table on the sides that were to be re-keyed. -/
def rekeyed (a : Automaton W) (target : SymbolTable) (input output : Bool) (states : List (State W)) :
    Automaton W where
  states := states.toArray
  start := a.start
  inputSymbols := if input then some target else a.inputSymbols
  outputSymbols := if output then some target else a.outputSymbols
  cache := if states.isEmpty then a.cache else {}

variable {a b : Automaton W} {source target : SymbolTable} {input output : Bool}

theorem symbols_rekeyed (states : List (State W)) (side : Side) :
    (a.rekeyed target input output states).symbols side =
      if chosen input output side then some target else a.symbols side := by
  cases side <;> rfl

theorem rekeySide_eq_ok_iff {source : Option SymbolTable} {side : Side} {s index : Nat} {arc new : Arc W} :
    rekeySide source target side s index arc = .ok new ↔
      ∃ label, relabel? source target (arc.label side) = some label ∧ arc.withLabel side label = new := by
  unfold rekeySide relabel?
  cases source with
  | none =>
    have hsame : arc.withLabel side (arc.label side) = arc := by cases side <;> rfl
    simp [hsame]
  | some source =>
    dsimp only
    cases rekeyLabel? source target (arc.label side) <;> simp

/-- Both sides of an arc are re-keyed, one after the other. -/
theorem rekeySides_eq_ok_iff (sources : Side → Option SymbolTable) {s index : Nat} {arc new : Arc W} :
    (rekeySide (sources .input) target .input s index arc >>= rekeySide (sources .output) target .output s index) =
        .ok new ↔
      arc.Rekeyed (fun side => relabel? (sources side) target) new := by
  simp only [bind_eq_ok, rekeySide_eq_ok_iff]
  constructor
  · rintro ⟨_, ⟨ilabel, hi, rfl⟩, olabel, ho, rfl⟩
    refine ⟨fun side => ?_, rfl, rfl⟩
    cases side with
    | input => exact hi
    | output => exact ho
  · intro h
    refine ⟨_, ⟨_, h.label .input, rfl⟩, _, h.label .output, ?_⟩
    obtain ⟨_, _, _, _⟩ := new
    obtain rfl := h.weight
    obtain rfl := h.target
    rfl

theorem rekeySource_eq_ok_iff {side : Side} {wanted : Bool} {source : Option SymbolTable} :
    a.rekeySource side wanted = .ok source ↔
      (wanted = true → (a.symbols side).isSome = true) ∧ (if wanted then a.symbols side else none) = source := by
  unfold rekeySource
  cases wanted
  · simp
  · cases a.symbols side <;> simp

/-- The states are put into the automaton unless there are none, and the table is attached. -/
theorem rekeyed_eq {states : List (State W)} (hlength : a.states.toList.length = states.length) :
    a.rekeyed target input output states =
      (let relabelled := if states.isEmpty then a else { a with states := states.toArray, cache := {} }
       let relabelled := if input then relabelled.withSymbols .input (some target) else relabelled
       if output then relabelled.withSymbols .output (some target) else relabelled) := by
  obtain ⟨old, _, _, _, _⟩ := a
  cases states with
  | nil =>
    obtain rfl : old = #[] := Array.toList_eq_nil_iff.1 (List.length_eq_zero_iff.1 hlength)
    cases input <;> cases output <;> rfl
  | cons state states => cases input <;> cases output <;> rfl

/-- An automaton can be re-keyed if the sides that are to be re-keyed have tables and no label stands in the way. -/
theorem rekey_eq_ok_iff : a.rekey target input output = .ok b ↔
    (∀ side, chosen input output side = true → (a.symbols side).isSome = true) ∧
      ∃ states, List.Forall₂ (State.Rekeyed fun side => relabel? (a.source? input output side) target)
        a.states.toList states ∧ a.rekeyed target input output states = b := by
  have harcs : ∀ (arcs : List (Arc W)) (s : Nat) (new : List (Arc W)),
      (arcs.zipIdx.mapM fun x => do
        rekeySide (a.source? input output .output) target .output s x.2
          (← rekeySide (a.source? input output .input) target .input s x.2 x.1)) = .ok new ↔
      List.Forall₂ (Arc.Rekeyed fun side => relabel? (a.source? input output side) target) arcs new :=
    fun arcs s new => mapM_zipIdx_eq_ok_iff fun arc index new => rekeySides_eq_ok_iff (a.source? input output)
  have hstate : ∀ (state : State W) (s : Nat) (new : State W),
      (do
        let arcs ← state.arcs.toList.zipIdx.mapM fun x => do
          rekeySide (a.source? input output .output) target .output s x.2
            (← rekeySide (a.source? input output .input) target .input s x.2 x.1)
        return { state with arcs := arcs.toArray } : Except Error (State W)) = .ok new ↔
      state.Rekeyed (fun side => relabel? (a.source? input output side) target) new := by
    intro state s new
    simp only [bind_eq_ok, harcs]
    constructor
    · rintro ⟨arcs, harcs, h⟩
      obtain rfl := Except.ok.inj h
      exact ⟨harcs, rfl⟩
    · intro h
      refine ⟨_, h.arcs, ?_⟩
      obtain ⟨_, _⟩ := new
      obtain rfl := h.final
      rfl
  unfold rekey
  simp only [bind_eq_ok, rekeySource_eq_ok_iff]
  constructor
  · rintro ⟨_, ⟨hi, rfl⟩, _, ⟨ho, rfl⟩, states, hstates, h⟩
    obtain rfl := Except.ok.inj h
    have hstates := (mapM_zipIdx_eq_ok_iff hstate).1 hstates
    refine ⟨fun side => ?_, states, hstates, rekeyed_eq hstates.length_eq⟩
    cases side with
    | input => exact hi
    | output => exact ho
  · rintro ⟨hattached, states, hstates, rfl⟩
    refine ⟨_, ⟨hattached .input, rfl⟩, _, ⟨hattached .output, rfl⟩, states, ?_, ?_⟩
    · exact (mapM_zipIdx_eq_ok_iff hstate).2 hstates
    · exact congrArg Except.ok (rekeyed_eq hstates.length_eq).symm

/-- The arcs of a state are re-keyed in their order. -/
theorem forall₂_arcsAt {label? : Side → Label → Option Label}
    (h : List.Forall₂ (State.Rekeyed label?) a.states.toList b.states.toList) (s : Nat) :
    List.Forall₂ (Arc.Rekeyed label?) (a.arcsAt s).toList (b.arcsAt s).toList := by
  have hsize : a.size = b.size := h.length_eq
  by_cases hs : s < a.size
  · have hs' : s < b.size := hsize ▸ hs
    rw [arcsAt, arcsAt, Array.getElem?_eq_getElem hs, Array.getElem?_eq_getElem hs']
    exact (h.get hs hs').arcs
  · have hle := Nat.le_of_not_lt hs
    rw [arcsAt_eq_empty hle, arcsAt_eq_empty (hsize ▸ hle)]
    exact .nil

theorem exists_rekeyed_from {label? : Side → Label → Option Label}
    (h : List.Forall₂ (State.Rekeyed label?) a.states.toList b.states.toList) {s : Nat} {arc : Arc W}
    (harc : arc ∈ b.arcsAt s) : ∃ old ∈ a.arcsAt s, old.Rekeyed label? arc := by
  obtain ⟨old, hold, hrekeyed⟩ := exists_of_mem_right (forall₂_arcsAt h s) (Array.mem_toList_iff.2 harc)
  exact ⟨old, Array.mem_toList_iff.1 hold, hrekeyed⟩

theorem exists_rekeyed_to {label? : Side → Label → Option Label}
    (h : List.Forall₂ (State.Rekeyed label?) a.states.toList b.states.toList) {s : Nat} {arc : Arc W}
    (harc : arc ∈ a.arcsAt s) : ∃ new ∈ b.arcsAt s, arc.Rekeyed label? new := by
  obtain ⟨new, hnew, hrekeyed⟩ := exists_of_mem_left (forall₂_arcsAt h s) (Array.mem_toList_iff.2 harc)
  exact ⟨new, Array.mem_toList_iff.1 hnew, hrekeyed⟩

/-- Of what a standard is about, re-keying changes the labels only. -/
theorem Meets.rekey {std : Standard W} (h : a.Meets std) (hb : a.rekey target input output = .ok b)
    {label : Side → Label → Prop}
    (hlabel : ∀ side {s : Nat}, ∀ arc ∈ b.arcsAt s, label side (arc.label side)) :
    b.Meets (std.relabel label) := by
  obtain ⟨-, states, hstates, rfl⟩ := rekey_eq_ok_iff.1 hb
  have hsize : (a.rekeyed target input output states).size = a.size := hstates.length_eq.symm
  rw [meets_iff, hsize]
  refine ⟨h.start_lt, fun {s arc} harc => ?_, ?_⟩
  · obtain ⟨old, hold, hrekeyed⟩ := exists_rekeyed_from hstates harc
    have hmeets := h.arc hold
    exact ⟨hrekeyed.target ▸ hmeets.target_lt, hrekeyed.weight ▸ hmeets.weight,
      fun side => hlabel side arc harc⟩
  · refine forall_final?_iff.2 fun new hnew weight hweight => ?_
    obtain ⟨state, hstate, hrekeyed⟩ := exists_of_mem_right hstates (Array.mem_toList_iff.2 hnew)
    exact (h.states state (Array.mem_toList_iff.1 hstate)).final weight (hrekeyed.final ▸ hweight)

/-! ### Whether the result is verified -/

/-- A re-keyed label is bound in the table that it is re-keyed to, unless it is epsilon. -/
theorem eq_or_hasKey_of_rekeyLabel? {label new : Label} (h : rekeyLabel? source target label = some new) :
    new = epsilon ∨ target.hasKey new = true := by
  unfold rekeyLabel? at h
  split at h
  · exact .inl (Option.some.inj h).symm
  · obtain ⟨symbol, -, hkey⟩ := Option.bind_eq_some_iff.1 h
    exact .inr (SymbolTable.hasKey_of_key? hkey)

/-- A label is bound in the table that its side has then, whether the side has been re-keyed or not. -/
theorem bound_of_relabel? {side : Side} {label new : Label} (hold : Permits (a.symbols side) label)
    (hattached : chosen input output side = true → (a.symbols side).isSome = true)
    (h : relabel? (a.source? input output side) target label = some new) {table : SymbolTable}
    (htable : (if chosen input output side then some target else a.symbols side) = some table) :
    new = epsilon ∨ table.hasKey new = true := by
  unfold source? at h
  split at htable
  · next hchosen =>
    obtain rfl := Option.some.inj htable
    obtain ⟨source, hsource⟩ := Option.isSome_iff_exists.1 (hattached hchosen)
    rw [if_pos hchosen, hsource] at h
    exact eq_or_hasKey_of_rekeyLabel? h
  · next hchosen =>
    rw [if_neg hchosen] at h
    obtain rfl := Option.some.inj h
    exact hold.2 table htable

/-- A label becomes the reserved one only by being re-keyed to it. -/
theorem ne_noLabel_of_relabel? {table : Option SymbolTable} {label new : Label} (hold : label ≠ noLabel)
    (h : relabel? table target label = some new)
    (hne : ∀ source, table = some source → rekeyLabel? source target label ≠ some noLabel) : new ≠ noLabel := by
  rintro rfl
  cases table with
  | none => exact hold (Option.some.inj h)
  | some source => exact hne source rfl h

/-- Every label of a re-keyed automaton has a meaning in the table of its side. The automaton is verified as before
unless one of its labels has become the reserved one. -/
theorem verify_rekey_iff [Weight W] [ToString W] (h : a.verify = .ok ()) (hb : a.rekey target input output = .ok b) :
    (∀ side table, b.symbols side = some table →
      ∀ {s : Nat}, ∀ arc ∈ b.arcsAt s, arc.label side = epsilon ∨ table.hasKey (arc.label side) = true) ∧
    (b.verify = .ok () ↔ ∀ side source, a.source? input output side = some source →
      ∀ {s : Nat}, ∀ arc ∈ a.arcsAt s, rekeyLabel? source target (arc.label side) ≠ some noLabel) := by
  obtain ⟨hmeets, htrusted⟩ := verify_eq_ok_iff.1 h
  have hcached := (renewed_rekey hb).of_cache PropertyCache.trusted_empty htrusted
  obtain ⟨hattached, states, hstates, heq⟩ := rekey_eq_ok_iff.1 hb
  have hsymbols : ∀ side, b.symbols side = if chosen input output side then some target else a.symbols side :=
    fun side => heq ▸ symbols_rekeyed states side
  have hrekeyed : List.Forall₂ (State.Rekeyed fun side => relabel? (a.source? input output side) target)
      a.states.toList b.states.toList := heq ▸ hstates
  have hbound : ∀ side table, b.symbols side = some table →
      ∀ {s : Nat}, ∀ arc ∈ b.arcsAt s, arc.label side = epsilon ∨ table.hasKey (arc.label side) = true := by
    intro side table htable s arc harc
    obtain ⟨old, hold, hlabels⟩ := exists_rekeyed_from hrekeyed harc
    exact bound_of_relabel? ((hmeets.arc hold).label side) (hattached side) (hlabels.label side)
      (hsymbols side ▸ htable)
  refine ⟨hbound, fun hverify side source hsource s arc harc hreserved => ?_, fun hne => ?_⟩
  · obtain ⟨new, hnew, hlabels⟩ := exists_rekeyed_to hrekeyed harc
    have hlabel := hlabels.label side
    rw [hsource] at hlabel
    have hpermits := ((verify_eq_ok_iff.1 hverify).1.arc hnew).label side
    exact hpermits.1 (Option.some.inj (hlabel.symm.trans hreserved))
  · refine verify_eq_ok_iff.2 ⟨hmeets.rekey hb fun side s arc harc => ?_, hcached⟩
    obtain ⟨old, hold, hlabels⟩ := exists_rekeyed_from hrekeyed harc
    refine ⟨ne_noLabel_of_relabel? ((hmeets.arc hold).label side).1 (hlabels.label side) ?_, ?_⟩
    · exact fun source hsource => hne side source hsource old hold
    · exact fun table htable => hbound side table htable arc harc

/-- A table that binds one letter and nothing else. -/
def only (key : Label) : SymbolTable := (SymbolTable.empty "only").bind "a" key

theorem verify_rekey_stutter : ∃ b, stutter.rekey (only 2) true false = .ok b ∧ b.verify = .ok () := by
  have hb : stutter.rekey (only 2) true false = .ok (stutter.rekeyed (only 2) true false
      [{ arcs := #[⟨epsilon, epsilon, 1, 0⟩, ⟨2, 1, 1, 1⟩] }, { final := some 1 }]) := by
    rfl
  refine ⟨_, hb, (verify_rekey_iff (by decide +kernel) hb).2.2 fun side source hsource => ?_⟩
  obtain rfl : letters = source := by
    cases side with
    | input => exact Option.some.inj hsource
    | output => cases hsource
  refine forall_mem_arcsAt_iff.2 ?_
  cases side <;> decide

/-- The letter becomes the reserved label where the other table binds it to that. -/
theorem verify_rekey_ne_stutter : ∃ b, stutter.verify = .ok () ∧ stutter.rekey (only noLabel) true true = .ok b ∧
    b.verify = .error (.verification (.reservedLabel 1 0 .input noLabel)) :=
  ⟨_, by decide +kernel, rfl, by decide +kernel⟩

/-! ### There and back -/

/-- What is left of a label after it has been re-keyed to a table and back. -/
def survivor (source target : SymbolTable) (label : Label) : Label :=
  if rekeyLabel? source target label = some epsilon then epsilon else label

/-- As symbols and keys are bound one to one, a label comes back from wherever it went, except from epsilon. -/
theorem rekeyLabel?_back (hsource : source.Sound) (htarget : target.Sound) {label new : Label}
    (h : rekeyLabel? source target label = some new) :
    rekeyLabel? target source new = some (survivor source target label) := by
  unfold survivor
  by_cases hnew : new = epsilon
  · subst hnew
    rw [if_pos h, rekeyLabel?, if_pos rfl]
  · rw [if_neg (fun hepsilon => hnew (Option.some.inj (h.symm.trans hepsilon))), rekeyLabel?, if_neg hnew]
    unfold rekeyLabel? at h
    split at h
    · exact absurd (Option.some.inj h).symm hnew
    · obtain ⟨symbol, hsymbol, hkey⟩ := Option.bind_eq_some_iff.1 h
      refine Option.bind_eq_some_iff.2 ⟨symbol, ?_, ?_⟩
      · exact htarget.symbol?_eq_some_iff.2 (htarget.key?_eq_some_iff.1 hkey)
      · exact hsource.key?_eq_some_iff.2 (hsource.symbol?_eq_some_iff.1 hsymbol)

/-- What is left of the labels of each side, if some sides have been re-keyed. -/
def survivors (source target : SymbolTable) (input output : Bool) (side : Side) (label : Label) : Label :=
  if chosen input output side then survivor source target label else label

/-- Nothing is lost of a label that is epsilon already, or does not become epsilon. -/
theorem survivors_eq_iff {side : Side} {label : Label} :
    survivors source target input output side label = label ↔
      (chosen input output side = true → label ≠ epsilon → rekeyLabel? source target label ≠ some epsilon) := by
  unfold survivors survivor
  split
  · next hchosen =>
    split
    · next h =>
      refine ⟨fun heq _ hne => absurd heq.symm hne, fun hne => ?_⟩
      by_contra heq
      exact hne hchosen (Ne.symm heq) h
    · next h => exact iff_of_true rfl fun _ _ => h
  · next hchosen => exact iff_of_true rfl fun h => absurd h hchosen

theorem relabel_survivors_eq_iff :
    a.states.map (State.relabel (survivors source target input output)) = a.states ↔
      ∀ side, chosen input output side = true → ∀ {s : Nat}, ∀ arc ∈ a.arcsAt s,
        arc.label side ≠ epsilon → rekeyLabel? source target (arc.label side) ≠ some epsilon := by
  simp only [map_eq_self_iff, State.relabel_eq_self_iff, survivors_eq_iff]
  rw [← forall_mem_arcsAt_iff]
  constructor
  · exact fun h side hchosen s arc harc => h arc harc side hchosen
  · exact fun h s arc harc side hchosen => h side hchosen arc harc

/-- Where the chosen sides have one table, the labels of both sides come back. -/
theorem relabel?_back (hsource : source.Sound) (htarget : target.Sound) {states : List (State W)} {side : Side}
    (htable : chosen input output side = true → a.symbols side = some source) {label new : Label}
    (h : relabel? (a.source? input output side) target label = some new) :
    relabel? ((a.rekeyed target input output states).source? input output side) source new =
      some (survivors source target input output side label) := by
  unfold source? at h ⊢
  unfold survivors
  rw [symbols_rekeyed]
  split
  · next hchosen =>
    rw [if_pos hchosen, htable hchosen] at h
    exact rekeyLabel?_back hsource htarget h
  · next hchosen =>
    rw [if_neg hchosen] at h
    exact congrArg some (Option.some.inj h).symm

/-- Whatever can be re-keyed can be re-keyed back to the table that it is from. Nothing has changed then but for
the labels that had become epsilon: these stay epsilon. -/
theorem exists_rekey_back (hsource : source.Sound) (htarget : target.Sound)
    (htables : ∀ side, chosen input output side = true → a.symbols side = some source)
    (h : a.rekey target input output = .ok b) :
    ∃ c, b.rekey source input output = .ok c ∧ c.start = a.start ∧ c.symbols = a.symbols ∧
      c.states = a.states.map (State.relabel (survivors source target input output)) ∧
      (c.states = a.states ↔ ∀ side, chosen input output side = true → ∀ {s : Nat}, ∀ arc ∈ a.arcsAt s,
        arc.label side ≠ epsilon → rekeyLabel? source target (arc.label side) ≠ some epsilon) := by
  obtain ⟨-, states, hstates, rfl⟩ := rekey_eq_ok_iff.1 h
  let back := a.states.toList.map (State.relabel (survivors source target input output))
  have hback : List.Forall₂ (State.Rekeyed fun side =>
      relabel? ((a.rekeyed target input output states).source? input output side) source) states back := by
    refine List.forall₂_map_right_iff.2 (hstates.flip.imp fun new state hrekeyed => ?_)
    exact hrekeyed.relabel fun side label new => relabel?_back hsource htarget (htables side)
  have hstates : back.toArray = a.states.map (State.relabel (survivors source target input output)) := by
    rw [← List.map_toArray, Array.toArray_toList]
  refine ⟨_, rekey_eq_ok_iff.2 ⟨fun side hchosen => ?_, back, hback, rfl⟩, rfl, ?_, hstates, ?_⟩
  · rw [symbols_rekeyed, if_pos hchosen]
    rfl
  · funext side
    rw [symbols_rekeyed, symbols_rekeyed]
    split
    · next hchosen => exact (htables side hchosen).symm
    · rfl
  · show back.toArray = a.states ↔ _
    rw [hstates]
    exact relabel_survivors_eq_iff

theorem exists_rekey_back_stutter : ∃ b c, stutter.rekey (only 2) true true = .ok b ∧
    b.rekey letters true true = .ok c ∧ c.states = stutter.states := by
  have htables : ∀ side, chosen true true side = true → stutter.symbols side = some letters := by
    intro side _
    cases side <;> rfl
  have hb : stutter.rekey (only 2) true true = .ok (stutter.rekeyed (only 2) true true
      [{ arcs := #[⟨epsilon, epsilon, 1, 0⟩, ⟨2, 2, 1, 1⟩] }, { final := some 1 }]) := by
    rfl
  obtain ⟨c, hc, -, -, -, hstates⟩ := exists_rekey_back (by decide) (by decide) htables hb
  refine ⟨_, c, hb, hc, hstates.2 fun side _ => forall_mem_arcsAt_iff.2 ?_⟩
  cases side <;> decide

/-- The letter becomes epsilon where the other table binds it to that, and stays epsilon. -/
theorem rekey_back_ne_stutter : ∃ b c, stutter.rekey (only epsilon) true true = .ok b ∧
    b.rekey letters true true = .ok c ∧ c.states ≠ stutter.states :=
  ⟨_, _, rfl, rfl, by decide⟩

end Automaton

end Transducer
