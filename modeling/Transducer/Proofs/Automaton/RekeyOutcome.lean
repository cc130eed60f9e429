import Mathlib
import Transducer.Proofs.Automaton.Rekey

/-!
# When an automaton can be re-keyed

What re-keying makes of an automaton, and why it is refused, said by the symbols of the labels only (`rekey_outcome`).
It is done if each side that is to be re-keyed has a table in which every label but epsilon has a symbol, and the new
table binds all these symbols. It is refused because of the first table that is missing or, if both are there, because
of the first label that stands in the way.

The labels come in the order of the states, then of the arcs of a state, and the input label of an arc before its
output label. All of them are looked at before any is changed, so nothing has changed after a refusal.
-/

namespace Transducer.Automaton

variable {W : Type} {a b : Automaton W} {target : SymbolTable} {input output : Bool}

/-! ### Labels -/

/-- What a label becomes. On the sides that are re-keyed, a label other than epsilon becomes the key that the new table
gives to its symbol; all other labels stay. -/
def Converts (a : Automaton W) (target : SymbolTable) (input output : Bool) (side : Side) (label new : Label) :
    Prop :=
  if chosen input output side = true ∧ label ≠ epsilon then
    ∃ source symbol, a.symbols side = some source ∧ source.symbol? label = some symbol ∧
      target.key? symbol = some new
  else new = label

theorem relabel?_eq_some_iff {side : Side} {label new : Label}
    (hattached : chosen input output side = true → (a.symbols side).isSome = true) :
    relabel? (a.source? input output side) target label = some new ↔
      a.Converts target input output side label new := by
  unfold Converts source?
  cases hchosen : chosen input output side with
  | false =>
    rw [if_neg Bool.false_ne_true, if_neg fun h => Bool.false_ne_true h.1]
    exact Option.some_inj.trans eq_comm
  | true =>
    obtain ⟨source, hsource⟩ := Option.isSome_iff_exists.1 (hattached hchosen)
    rw [if_pos rfl, hsource, relabel?, rekeyLabel?]
    by_cases hlabel : label = epsilon
    · subst hlabel
      rw [if_pos rfl, if_neg fun h => h.2 rfl]
      exact Option.some_inj.trans eq_comm
    · rw [if_neg hlabel, if_pos ⟨rfl, hlabel⟩, Option.bind_eq_some_iff]
      constructor
      · rintro ⟨symbol, hsymbol, hkey⟩
        exact ⟨source, symbol, rfl, hsymbol, hkey⟩
      · rintro ⟨_, symbol, ⟨⟩, hsymbol, hkey⟩
        exact ⟨symbol, hsymbol, hkey⟩

/-- Labels and tables have changed, and nothing else has. -/
structure Converted (a b : Automaton W) (target : SymbolTable) (input output : Bool) : Prop where
  size_eq : b.size = a.size
  start_eq : b.start = a.start
  final?_eq : ∀ s, b.final? s = a.final? s
  /-- The new table is attached to the sides that were to be re-keyed. -/
  symbols_eq : ∀ side, b.symbols side = if chosen input output side then some target else a.symbols side
  /-- The arcs of each state have the same order, weights and targets. -/
  arcs : ∀ s, List.Forall₂ (fun arc new : Arc W =>
    (∀ side, a.Converts target input output side (arc.label side) (new.label side)) ∧
      new.weight = arc.weight ∧ new.target = arc.target) (a.arcsAt s).toList (b.arcsAt s).toList

theorem converted_of_rekey (h : a.rekey target input output = .ok b) : a.Converted b target input output := by
  obtain ⟨hattached, states, hstates, rfl⟩ := rekey_eq_ok_iff.1 h
  have hsize : a.size = states.length := hstates.length_eq
  refine ⟨hsize.symm, rfl, fun s => ?_, symbols_rekeyed states, fun s => ?_⟩
  · by_cases hs : s < a.size
    · have hs' : s < states.length := hsize ▸ hs
      rw [final?, final?, Array.getElem?_eq_getElem hs, rekeyed, List.getElem?_toArray, List.getElem?_eq_getElem hs']
      exact (hstates.get hs hs').final
    · have hle := Nat.le_of_not_lt hs
      have hle' : (a.rekeyed target input output states).size ≤ s := hsize.symm.trans_le hle
      rw [final?_eq_none hle, final?_eq_none hle']
  · refine (forall₂_arcsAt hstates s).imp fun arc new hrekeyed => ⟨fun side => ?_, hrekeyed.weight, hrekeyed.target⟩
    exact (relabel?_eq_some_iff (hattached side)).1 (hrekeyed.label side)

/-! ### Places of labels -/

/-- Where a label stands: on a side of the arc at a position of a state. -/
structure Spot where
  state : Nat
  index : Nat
  side : Side

/-- The order in which labels are looked at. -/
def Spot.Before (p q : Spot) : Prop :=
  p.state < q.state ∨ p.state = q.state ∧
    (p.index < q.index ∨ p.index = q.index ∧ p.side = .input ∧ q.side = .output)

theorem Spot.before_or_eq_or_before (p q : Spot) : p.Before q ∨ p = q ∨ q.Before p := by
  obtain ⟨s, i, side⟩ := p
  obtain ⟨s', i', side'⟩ := q
  simp only [Spot.Before, Spot.mk.injEq]
  rcases Nat.lt_trichotomy s s' with hs | rfl | hs
  · exact .inl (.inl hs)
  · rcases Nat.lt_trichotomy i i' with hi | rfl | hi
    · exact .inl (.inr ⟨rfl, .inl hi⟩)
    · cases side <;> cases side' <;> simp
    · exact .inr (.inr (.inr ⟨rfl, .inl hi⟩))
  · exact .inr (.inr (.inl hs))

/-- The label at a spot. -/
def labelAt? (a : Automaton W) (p : Spot) : Option Label := (a.arcsAt p.state)[p.index]?.map (·.label p.side)

/-- The label at a spot cannot be converted. -/
def Stuck (a : Automaton W) (target : SymbolTable) (input output : Bool) (p : Spot) (label : Label) : Prop :=
  a.labelAt? p = some label ∧ ¬ ∃ new, a.Converts target input output p.side label new

/-- Why an automaton cannot be re-keyed. -/
inductive RekeyFault (a : Automaton W) (target : SymbolTable) (input output : Bool) : Error → Prop where
  /-- The input side has no table. -/
  | noInputTable : input = true → a.symbols .input = none →
      RekeyFault a target input output (.config (.noTable .input))
  /-- The output side has none, and the input side is not at fault. -/
  | noOutputTable : (input = true → (a.symbols .input).isSome = true) → output = true → a.symbols .output = none →
      RekeyFault a target input output (.config (.noTable .output))
  /-- There are tables, and this is the first label that cannot be converted. -/
  | unknownSymbol {p : Spot} {label : Label} :
      (∀ side, chosen input output side = true → (a.symbols side).isSome = true) →
        a.Stuck target input output p label →
        (∀ q label', q.Before p → ¬ a.Stuck target input output q label') →
        RekeyFault a target input output (.unknownSymbol p.state p.index label p.side)

/-- There is one fault at most. -/
theorem RekeyFault.unique {e e' : Error} (h : RekeyFault a target input output e)
    (h' : RekeyFault a target input output e') : e = e' := by
  have hmissing : ∀ {side : Side}, a.symbols side = none → ¬ (a.symbols side).isSome = true := by
    intro side hnone
    rw [hnone]
    exact Bool.false_ne_true
  cases h with
  | noInputTable hinput hnone =>
    cases h' with
    | noInputTable => rfl
    | noOutputTable hsome => exact absurd (hsome hinput) (hmissing hnone)
    | unknownSymbol hattached => exact absurd (hattached .input hinput) (hmissing hnone)
  | noOutputTable hsome houtput hnone =>
    cases h' with
    | noInputTable hinput hnone' => exact absurd (hsome hinput) (hmissing hnone')
    | noOutputTable => rfl
    | unknownSymbol hattached => exact absurd (hattached .output houtput) (hmissing hnone)
  | @unknownSymbol p label hattached hstuck hfirst =>
    cases h' with
    | noInputTable hinput hnone => exact absurd (hattached .input hinput) (hmissing hnone)
    | noOutputTable _ houtput hnone => exact absurd (hattached .output houtput) (hmissing hnone)
    | @unknownSymbol q label' _ hstuck' hfirst' =>
      rcases p.before_or_eq_or_before q with hbefore | rfl | hbefore
      · exact absurd hstuck (hfirst' p label hbefore)
      · rw [Option.some.inj (hstuck.1.symm.trans hstuck'.1)]
      · exact absurd hstuck' (hfirst q label' hbefore)

/-! ### Refusal -/

theorem rekeySource_eq_error_iff {side : Side} {wanted : Bool} {e : Error} :
    a.rekeySource side wanted = .error e ↔
      wanted = true ∧ a.symbols side = none ∧ e = .config (.noTable side) := by
  unfold rekeySource
  cases wanted
  · simp
  · cases a.symbols side <;> simp [eq_comm]

theorem rekeySide_eq_error_iff {source : Option SymbolTable} {side : Side} {s index : Nat} {arc : Arc W} {e : Error} :
    rekeySide source target side s index arc = .error e ↔
      relabel? source target (arc.label side) = none ∧ e = .unknownSymbol s index (arc.label side) side := by
  unfold rekeySide relabel?
  cases source with
  | none => simp
  | some source =>
    dsimp only
    cases rekeyLabel? source target (arc.label side) <;> simp [eq_comm]

/-- The side of an arc at which re-keying it stops has a label that cannot be re-keyed, and the sides before have
none. -/
theorem exists_side_of_rekeySides {sources : Side → Option SymbolTable} {s index : Nat} {arc : Arc W} {e : Error}
    (h : (rekeySide (sources .input) target .input s index arc >>=
      rekeySide (sources .output) target .output s index) = .error e) :
    ∃ side, relabel? (sources side) target (arc.label side) = none ∧ e = .unknownSymbol s index (arc.label side) side ∧
      ∀ other, other = .input → side = .output →
        ∃ new, relabel? (sources other) target (arc.label other) = some new := by
  rcases bind_eq_error.1 h with h | ⟨next, hnext, h⟩
  · obtain ⟨hnone, he⟩ := rekeySide_eq_error_iff.1 h
    exact ⟨.input, hnone, he, fun _ _ hside => nomatch hside⟩
  · obtain ⟨new, hnew, rfl⟩ := rekeySide_eq_ok_iff.1 hnext
    obtain ⟨hnone, he⟩ := rekeySide_eq_error_iff.1 h
    exact ⟨.output, hnone, he, fun _ hother _ => ⟨new, hother ▸ hnew⟩⟩

/-- The arcs of a state with both of their sides re-keyed. -/
def rekeyArcs (sources : Side → Option SymbolTable) (target : SymbolTable) (s : Nat) (arcs : List (Arc W)) :
    Except Error (List (Arc W)) :=
  arcs.zipIdx.mapM fun (arc, index) => do
    rekeySide (sources .output) target .output s index (← rekeySide (sources .input) target .input s index arc)

section Arcs

variable {sources : Side → Option SymbolTable} {s : Nat} {arcs : List (Arc W)}

theorem exists_label_of_rekeyArcs {done : List (Arc W)} (h : rekeyArcs sources target s arcs = .ok done) {arc : Arc W}
    (harc : arc ∈ arcs) (side : Side) : ∃ label, relabel? (sources side) target (arc.label side) = some label := by
  have hrekeyed := (mapM_zipIdx_eq_ok_iff fun _ _ _ => rekeySides_eq_ok_iff sources).1 h
  obtain ⟨new, -, hnew⟩ := exists_of_mem_left hrekeyed harc
  exact ⟨_, hnew.label side⟩

/-- The label of a state at which re-keying stops is the first one in the order of the arcs that cannot be re-keyed. -/
theorem exists_first_of_rekeyArcs {e : Error} (h : rekeyArcs sources target s arcs = .error e) :
    ∃ index arc side, arcs[index]? = some arc ∧ relabel? (sources side) target (arc.label side) = none ∧
      e = .unknownSymbol s index (arc.label side) side ∧
      ∀ index' other side', arcs[index']? = some other →
        index' < index ∨ index' = index ∧ side' = .input ∧ side = .output →
        ∃ label, relabel? (sources side') target (other.label side') = some label := by
  obtain ⟨index, ⟨arc, _⟩, hentry, h, hbefore⟩ := mapM_eq_error_iff.1 h
  obtain ⟨harc, rfl⟩ : arcs[index]? = some arc ∧ index = _ := by
    simpa [List.getElem?_zipIdx, and_comm] using hentry
  obtain ⟨side, hnone, rfl, hsides⟩ := exists_side_of_rekeySides h
  refine ⟨index, arc, side, harc, hnone, rfl, fun index' other side' hother hlt => ?_⟩
  rcases hlt with hlt | ⟨rfl, hinput, houtput⟩
  · obtain ⟨new, hnew⟩ := hbefore index' hlt (other, index') (by simp [List.getElem?_zipIdx, hother])
    exact ⟨_, ((rekeySides_eq_ok_iff sources).1 hnew).label side'⟩
  · obtain rfl := Option.some.inj (harc.symm.trans hother)
    exact hsides side' hinput houtput

end Arcs

/-- Re-keying is stopped by a label that cannot be re-keyed. -/
theorem stuck_iff (hattached : ∀ side, chosen input output side = true → (a.symbols side).isSome = true) {p : Spot}
    {arc : Arc W} (harc : (a.arcsAt p.state)[p.index]? = some arc) {label : Label} :
    a.Stuck target input output p label ↔
      arc.label p.side = label ∧ relabel? (a.source? input output p.side) target (arc.label p.side) = none := by
  rw [Stuck, labelAt?, harc, Option.map_some, Option.some_inj]
  refine and_congr_right ?_
  rintro rfl
  rw [Option.eq_none_iff_forall_ne_some, not_exists]
  exact forall_congr' fun new => not_congr (relabel?_eq_some_iff (hattached p.side)).symm

/-- Where the states are looked through, the first label that stands in the way is found. -/
theorem rekeyFault_of_states (hattached : ∀ side, chosen input output side = true → (a.symbols side).isSome = true)
    {s : Nat} {state : State W} (hstate : a.states[s]? = some state) {e : Error}
    (h : rekeyArcs (a.source? input output) target s state.arcs.toList = .error e)
    (hbefore : ∀ t < s, ∀ old, a.states[t]? = some old →
      ∃ done, rekeyArcs (a.source? input output) target t old.arcs.toList = .ok done) :
    RekeyFault a target input output e := by
  have hown : ∀ {t : Nat} {old : State W}, a.states[t]? = some old → a.arcsAt t = old.arcs := by
    intro t old hold
    rw [arcsAt, hold]
  obtain ⟨index, arc, side, harc, hnone, rfl, hfirst⟩ := exists_first_of_rekeyArcs h
  rw [← hown hstate] at hfirst harc
  rw [Array.getElem?_toList] at harc
  refine .unknownSymbol (p := ⟨s, index, side⟩) hattached ((stuck_iff hattached harc).2 ⟨rfl, hnone⟩) ?_
  intro q label' hq hstuck
  obtain ⟨other, hother, -⟩ := Option.map_eq_some_iff.1 hstuck.1
  refine Option.ne_none_iff_exists'.2 ?_ ((stuck_iff hattached hother).1 hstuck).2
  rcases hq with hlt | ⟨hsame, hlt⟩
  · have hold := Array.getElem?_eq_getElem (Nat.lt_trans hlt (Array.getElem?_eq_some_iff.1 hstate).1)
    obtain ⟨done, hdone⟩ := hbefore q.state hlt _ hold
    rw [hown hold] at hother
    exact exists_label_of_rekeyArcs hdone (Array.mem_toList_iff.2 (Array.mem_of_getElem? hother)) q.side
  · rw [hsame, ← Array.getElem?_toList] at hother
    exact hfirst q.index other q.side hother hlt

/-- Where re-keying stops, there is a fault. -/
theorem rekeyFault_of_rekey {e : Error} (h : a.rekey target input output = .error e) :
    RekeyFault a target input output e := by
  unfold rekey at h
  rcases bind_eq_error.1 h with h | ⟨_, hi, h⟩
  · obtain ⟨hinput, hnone, rfl⟩ := rekeySource_eq_error_iff.1 h
    exact .noInputTable hinput hnone
  obtain ⟨hinput, rfl⟩ := rekeySource_eq_ok_iff.1 hi
  rcases bind_eq_error.1 h with h | ⟨_, ho, h⟩
  · obtain ⟨houtput, hnone, rfl⟩ := rekeySource_eq_error_iff.1 h
    exact .noOutputTable hinput houtput hnone
  obtain ⟨houtput, rfl⟩ := rekeySource_eq_ok_iff.1 ho
  have hattached : ∀ side, chosen input output side = true → (a.symbols side).isSome = true := by
    rintro (_ | _)
    · exact hinput
    · exact houtput
  rcases bind_eq_error.1 h with h | ⟨_, -, h⟩
  · obtain ⟨s, ⟨state, _⟩, hentry, h, hbefore⟩ := mapM_eq_error_iff.1 h
    obtain ⟨hstate, rfl⟩ : a.states[s]? = some state ∧ s = _ := by
      simpa [List.getElem?_zipIdx, and_comm] using hentry
    rcases bind_eq_error.1 h with h | ⟨_, -, h⟩
    · refine rekeyFault_of_states hattached hstate h fun t ht old hold => ?_
      obtain ⟨_, hdone⟩ := hbefore t ht (old, t) (by simp [List.getElem?_zipIdx, hold])
      obtain ⟨done, hdone, -⟩ := bind_eq_ok.1 hdone
      exact ⟨done, hdone⟩
    · cases h
  · cases h

/-- Every label on the sides that are re-keyed has a symbol that the new table binds. -/
def Convertible (a : Automaton W) (target : SymbolTable) (input output : Bool) : Prop :=
  ∀ side, chosen input output side = true → ∃ source, a.symbols side = some source ∧
    ∀ {s : Nat}, ∀ arc ∈ a.arcsAt s, arc.label side ≠ epsilon →
      ∃ symbol, source.symbol? (arc.label side) = some symbol ∧ target.hasSymbol symbol = true

theorem Converted.convertible (hattached : ∀ side, chosen input output side = true → (a.symbols side).isSome = true)
    (h : a.Converted b target input output) : a.Convertible target input output := by
  intro side hchosen
  obtain ⟨source, hsource⟩ := Option.isSome_iff_exists.1 (hattached side hchosen)
  refine ⟨source, hsource, fun {s} arc harc hlabel => ?_⟩
  obtain ⟨new, -, hconverts, -⟩ := exists_of_mem_left (h.arcs s) (Array.mem_toList_iff.2 harc)
  obtain ⟨_, symbol, hsource', hsymbol, hkey⟩ := (if_pos (⟨hchosen, hlabel⟩ : _ ∧ _)).mp (hconverts side)
  obtain rfl := Option.some.inj (hsource.symm.trans hsource')
  exact ⟨symbol, hsymbol, by rw [SymbolTable.hasSymbol, hkey]; rfl⟩

theorem RekeyFault.not_convertible {e : Error} (h : RekeyFault a target input output e) :
    ¬ a.Convertible target input output := by
  intro hconvertible
  cases h with
  | noInputTable hinput hnone =>
    obtain ⟨source, hsource, -⟩ := hconvertible .input hinput
    cases hnone.symm.trans hsource
  | noOutputTable _ houtput hnone =>
    obtain ⟨source, hsource, -⟩ := hconvertible .output houtput
    cases hnone.symm.trans hsource
  | @unknownSymbol p label _ hstuck _ =>
    obtain ⟨hlabel, hnone⟩ := hstuck
    obtain ⟨arc, harc, rfl⟩ := Option.map_eq_some_iff.1 hlabel
    refine hnone ?_
    unfold Converts
    split
    · next h =>
      obtain ⟨source, hsource, hbound⟩ := hconvertible p.side h.1
      obtain ⟨symbol, hsymbol, hkey⟩ := hbound arc (Array.mem_of_getElem? harc) h.2
      obtain ⟨key, hkey⟩ := Option.isSome_iff_exists.1 hkey
      exact ⟨key, source, symbol, hsource, hsymbol, hkey⟩
    · exact ⟨_, rfl⟩

theorem exists_rekey_iff : (∃ b, a.rekey target input output = .ok b) ↔ a.Convertible target input output := by
  constructor
  · rintro ⟨b, hb⟩
    exact (converted_of_rekey hb).convertible (rekey_eq_ok_iff.1 hb).1
  · intro h
    cases hb : a.rekey target input output with
    | ok b => exact ⟨b, rfl⟩
    | error e => exact absurd h (rekeyFault_of_rekey hb).not_convertible

theorem rekey_eq_error_iff {e : Error} :
    a.rekey target input output = .error e ↔ RekeyFault a target input output e := by
  constructor
  · exact rekeyFault_of_rekey
  · intro h
    cases hb : a.rekey target input output with
    | ok b => exact absurd (exists_rekey_iff.1 ⟨b, hb⟩) h.not_convertible
    | error e' => rw [(rekeyFault_of_rekey hb).unique h]

/-- An automaton is re-keyed if all labels that are not epsilon have symbols that the new table binds. Then these labels
have become the keys of their symbols, and nothing else has changed but for the tables. Otherwise it is refused because
of the first table that is missing or the first label that stands in the way, and is left as it is. -/
theorem rekey_outcome (a : Automaton W) (target : SymbolTable) (input output : Bool) :
    ((∃ b, Edit.rekey target input output a = .ok () b) ↔ ∀ side, chosen input output side = true →
      ∃ source, a.symbols side = some source ∧ ∀ {s : Nat}, ∀ arc ∈ a.arcsAt s, arc.label side ≠ epsilon →
        ∃ symbol, source.symbol? (arc.label side) = some symbol ∧ target.hasSymbol symbol = true) ∧
    (∀ b, Edit.rekey target input output a = .ok () b → a.Converted b target input output) ∧
    ∀ e b, Edit.rekey target input output a = .error e b ↔ b = a ∧ RekeyFault a target input output e := by
  have hok : ∀ b, Edit.rekey target input output a = .ok () b ↔ a.rekey target input output = .ok b := by
    intro b
    unfold Edit.rekey
    cases a.rekey target input output <;> simp
  have herror : ∀ e b, Edit.rekey target input output a = .error e b ↔
      b = a ∧ a.rekey target input output = .error e := by
    intro e b
    unfold Edit.rekey
    cases a.rekey target input output <;> simp [eq_comm, and_comm]
  refine ⟨(exists_congr hok).trans exists_rekey_iff, fun b hb => converted_of_rekey ((hok b).1 hb), fun e b => ?_⟩
  rw [herror, rekey_eq_error_iff]

/-- The letter gets another label on one side. Where the new table binds no symbol at all, the epsilon arc does not
stand in the way, and the arc after it does. -/
theorem rekey_outcome_stutter :
    (∃ b, Edit.rekey (only 2) true false stutter = .ok () b ∧ stutter.Converted b (only 2) true false) ∧
      RekeyFault stutter (SymbolTable.empty "none") true true (.unknownSymbol 0 1 1 .input) := by
  have hdone : Edit.rekey (only 2) true false stutter = .ok () (stutter.rekeyed (only 2) true false
      [{ arcs := #[⟨epsilon, epsilon, 1, 0⟩, ⟨2, 1, 1, 1⟩] }, { final := some 1 }]) := rfl
  have hrefused : Edit.rekey (SymbolTable.empty "none") true true stutter =
      .error (.unknownSymbol 0 1 1 .input) stutter := rfl
  obtain ⟨-, hconverted, -⟩ := rekey_outcome stutter (only 2) true false
  obtain ⟨-, -, hfault⟩ := rekey_outcome stutter (SymbolTable.empty "none") true true
  exact ⟨⟨_, hdone, hconverted _ hdone⟩, ((hfault _ _).1 hrefused).2⟩

end Transducer.Automaton
