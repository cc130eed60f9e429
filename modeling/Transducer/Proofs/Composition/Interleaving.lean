import Mathlib
import Transducer.Proofs.Composition.Expansion
import Transducer.Proofs.Path.Accepting
import Transducer.Proofs.Weight.Laws

/-!
# Runs of two automata

A run of two automata interleaves a way of either. `Run.ways` takes the two ways out of it: the left one
writes what the right one reads, and the labels and the weight of the run are those of the two ways.

Two ways can be interleaved in many orders, since arcs that write or read nothing are taken alone. The
turn of a composite state admits one order only. `exists_run` gives this order: the left automaton moves
alone as long as it can, then the right one does, then both move together. `Run.unique` excludes every
other one: an early move of the right automaton makes the left one wait at a state where it has to move
alone.
-/

namespace Transducer.Composition

open Transducer.Automaton

variable {W : Type}

/-- The positions at which the left automaton moves. -/
def lefts (moves : List Move) : List Nat := moves.filterMap Prod.fst

/-- The positions at which the right automaton moves. -/
def rights (moves : List Move) : List Nat := moves.filterMap Prod.snd

@[simp] theorem lefts_nil : lefts [] = [] := rfl

@[simp] theorem rights_nil : rights [] = [] := rfl

@[simp] theorem lefts_cons_some (i : Nat) (o : Option Nat) (moves : List Move) :
    lefts ((some i, o) :: moves) = i :: lefts moves := rfl

@[simp] theorem lefts_cons_none (o : Option Nat) (moves : List Move) :
    lefts ((none, o) :: moves) = lefts moves := rfl

@[simp] theorem rights_cons_some (j : Nat) (o : Option Nat) (moves : List Move) :
    rights ((o, some j) :: moves) = j :: rights moves := rfl

@[simp] theorem rights_cons_none (o : Option Nat) (moves : List Move) :
    rights ((o, none) :: moves) = rights moves := rfl

theorem Turn.eq_of_iff {turn turn' : Turn} (h : turn = .right ↔ turn' = .right) : turn = turn' := by
  cases turn <;> cases turn' <;> simp at h ⊢

variable [Weight W] {a b : Automaton W}

/-- From one composite state the automata make these moves, one after the other, up to another. -/
inductive Run (a b : Automaton W) : Place → List Move → List (Step W) → Place → Prop where
  /-- No move. -/
  | nil (place : Place) : Run a b place [] [] place
  /-- One move, and a run on from there. -/
  | cons {place place' : Place} {move : Move} {step : Step W} {moves : List Move}
      {steps : List (Step W)} : Allowed a b place move step → Run a b step.target moves steps place' →
      Run a b place (move :: moves) (step :: steps) place'

/-! ### The two ways of a run -/

/-- What a run does is what both automata do on ways of their own: the left one writes what the right one
reads, the run reads what the left one reads, writes what the right one writes and weighs what both ways
weigh. -/
theorem Run.ways [CommMul W] {place place' : Place} {moves : List Move} {steps : List (Step W)}
    (h : Run a b place moves steps place') {arcs : List (Arc W)}
    (harcs : arcs.map Arc.content = steps.map Step.content) :
    ∃ ls rs, a.Way place.left (lefts moves) ls place'.left ∧
      b.Way place.right (rights moves) rs place'.right ∧ spell .output ls = spell .input rs ∧
      spell .input arcs = spell .input ls ∧ spell .output arcs = spell .output rs ∧
      ∀ v w, weigh arcs (v * w) = weigh ls v * weigh rs w := by
  induction h generalizing arcs with
  | nil place =>
    obtain rfl : arcs = [] := List.map_eq_nil_iff.1 harcs
    exact ⟨[], [], .nil _, .nil _, rfl, rfl, rfl, fun v w => rfl⟩
  | @cons place place' move step moves steps hallowed _ ih =>
    obtain ⟨arc, arcs, rfl⟩ : ∃ arc rest, arcs = arc :: rest := by
      cases arcs with
      | nil => cases harcs
      | cons arc rest => exact ⟨arc, rest, rfl⟩
    obtain ⟨harc, harcs⟩ := List.cons.inj harcs
    obtain ⟨hin, hout, hweight⟩ : arc.ilabel = step.ilabel ∧ arc.olabel = step.olabel ∧
        arc.weight = step.weight := by
      simpa [Arc.content, Step.content] using harc
    obtain ⟨ls, rs, hl, hr, hmatch, hread, hwrite, hweigh⟩ := ih harcs
    cases hallowed with
    | left hi hlabel hturn =>
      refine ⟨_ :: ls, rs, .cons hi hl, hr,
        (spell_cons_of_eq .output hlabel ls).trans hmatch, ?_,
        (spell_cons_of_eq .output hout arcs).trans hwrite, fun v w => ?_⟩
      · simp only [spell, List.map_cons, Arc.label, hin] at hread ⊢
        simp only [List.filter_cons, hread]
      · rw [weigh_cons, weigh_cons, hweigh, hweight, LawfulMul.mul_one, LawfulMul.mul_assoc]
    | right hj hlabel hmeet hnext =>
      refine ⟨ls, _ :: rs, hl, .cons hj hr, hmatch.trans (spell_cons_of_eq .input hlabel rs).symm,
        (spell_cons_of_eq .input hin arcs).trans hread, ?_, fun v w => ?_⟩
      · simp only [spell, List.map_cons, Arc.label, hout] at hwrite ⊢
        simp only [List.filter_cons, hwrite]
      · rw [weigh_cons, weigh_cons, hweigh, hweight, LawfulMul.one_mul, ← LawfulMul.mul_assoc,
          CommMul.mul_comm _ (weigh ls v), LawfulMul.mul_assoc]
    | @both i j l r hi hj hlabel hne =>
      refine ⟨l :: ls, r :: rs, .cons hi hl, .cons hj hr, ?_, ?_, ?_, fun v w => ?_⟩
      · rw [spell_cons_of_ne .output hne, hmatch,
          spell_cons_of_ne .input (hlabel ▸ hne : r.ilabel ≠ epsilon)]
        exact congrArg (· :: _) hlabel
      · simp only [spell, List.map_cons, Arc.label, hin] at hread ⊢
        simp only [List.filter_cons, hread]
      · simp only [spell, List.map_cons, Arc.label, hout] at hwrite ⊢
        simp only [List.filter_cons, hwrite]
      · rw [weigh_cons, weigh_cons, weigh_cons, hweigh, hweight, mul_mul_comm]

/-! ### One order of moves -/

/-- Two ways on which the left automaton writes what the right one reads, and the left one ends at a final
state, are those of a run. If the left automaton has to wait at first, its way must not begin with an arc
that writes nothing. -/
theorem exists_run {s s' t t' : Nat} (turn : Turn) {ps qs : List Nat} {ls rs : List (Arc W)}
    (hl : a.Way s ps ls s') (hr : b.Way t qs rs t') (hmatch : spell .output ls = spell .input rs)
    (hfinal : (a.final? s').isSome = true) (hturn : turn = .right → ∀ l ∈ ls.head?, l.olabel ≠ epsilon) :
    ∃ moves steps place', Run a b ⟨s, t, turn⟩ moves steps place' ∧ place'.left = s' ∧
      place'.right = t' ∧ lefts moves = ps ∧ rights moves = qs := by
  have hnext : ∀ s, ∃ next : Turn, next = .right ↔ CanWriteNothing a s := by
    intro s
    by_cases h : CanWriteNothing a s
    · exact ⟨.right, iff_of_true rfl h⟩
    · exact ⟨.either, iff_of_false nofun h⟩
  induction hl generalizing t t' turn qs rs with
  | nil s =>
    -- the left automaton has arrived, the right one moves alone
    induction hr generalizing turn with
    | nil t => exact ⟨[], [], _, .nil _, rfl, rfl, rfl, rfl⟩
    | @cons t j t' r qs rs hj _ ih =>
      have hlabel : r.ilabel = epsilon := by
        by_contra hne
        rw [spell_cons_of_ne .input hne] at hmatch
        cases hmatch
      obtain ⟨next, hnext⟩ := hnext s
      obtain ⟨moves, steps, place', hrun, hl', hr', hlefts, hrights⟩ :=
        ih next (hmatch.trans (spell_cons_of_eq .input hlabel rs)) nofun
      exact ⟨_, _, place', .cons (.right hj hlabel (.inl hfinal) hnext) hrun, hl', hr', hlefts,
        congrArg (j :: ·) hrights⟩
  | @cons s i s' l ps ls hi _ ih =>
    by_cases hlabel : l.olabel = epsilon
    · have hturn : turn = .either := by
        cases turn with
        | either => rfl
        | right => exact absurd hlabel (hturn rfl l rfl)
      obtain ⟨moves, steps, place', hrun, hl', hr', hlefts, hrights⟩ :=
        ih .either hr ((spell_cons_of_eq .output hlabel ls).symm.trans hmatch) hfinal nofun
      exact ⟨_, _, place', .cons (.left hi hlabel hturn) hrun, hl', hr', congrArg (i :: ·) hlefts, hrights⟩
    · -- the left automaton waits for the other one to read what it writes next
      have hmeet : CanMeet a s := .inr ⟨l, Array.mem_of_getElem? hi, hlabel⟩
      induction hr generalizing turn with
      | nil t =>
        rw [spell_cons_of_ne .output hlabel] at hmatch
        cases hmatch
      | @cons t j t' r qs rs hj hr ihr =>
        by_cases hread : r.ilabel = epsilon
        · obtain ⟨next, hnext⟩ := hnext s
          obtain ⟨moves, steps, place', hrun, hl', hr', hlefts, hrights⟩ :=
            ihr next (hmatch.trans (spell_cons_of_eq .input hread rs)) fun _ l' hl' => by
              obtain rfl := Option.some.inj hl'
              exact hlabel
          exact ⟨_, _, place', .cons (.right hj hread hmeet hnext) hrun, hl', hr', hlefts,
            congrArg (j :: ·) hrights⟩
        · rw [spell_cons_of_ne .output hlabel, spell_cons_of_ne .input hread] at hmatch
          obtain ⟨hsame, hmatch⟩ := List.cons.inj hmatch
          obtain ⟨moves, steps, place', hrun, hl', hr', hlefts, hrights⟩ :=
            ih .either hr hmatch hfinal nofun
          exact ⟨_, _, place', .cons (.both hi hj hsame hlabel) hrun, hl', hr', congrArg (i :: ·) hlefts,
            congrArg (j :: ·) hrights⟩

/-- Where the left automaton waits, it does not move by an arc that writes nothing. -/
theorem Run.lefts_ne {place place' : Place} {moves : List Move} {steps : List (Step W)}
    (h : Run a b place moves steps place') (hturn : place.turn = .right) {i : Nat} {l : Arc W}
    (hi : (a.arcsAt place.left)[i]? = some l) (hlabel : l.olabel = epsilon) (rest : List Nat) :
    lefts moves ≠ i :: rest := by
  induction h with
  | nil place => nofun
  | cons hallowed _ ih =>
    cases hallowed with
    | left _ _ heither => rw [hturn] at heither; cases heither
    | right _ _ _ hnext =>
      -- it goes on waiting
      exact ih (hnext.2 ⟨l, Array.mem_of_getElem? hi, hlabel⟩) hi
    | both hi' _ _ hne =>
      intro heq
      obtain ⟨rfl, -⟩ := List.cons.inj heq
      obtain rfl := Option.some.inj (hi.symm.trans hi')
      exact hne hlabel

/-- Every move is a move of one of the automata. -/
theorem Run.eq_nil {place place' : Place} {moves : List Move} {steps : List (Step W)}
    (h : Run a b place moves steps place') (hl : lefts moves = []) (hr : rights moves = []) : moves = [] := by
  cases h with
  | nil => rfl
  | cons hallowed _ => cases hallowed <;> simp at hl hr

/-- Runs from the same composite state with the same two ways are the same. -/
theorem Run.unique {place place' place'' : Place} {moves moves' : List Move} {steps steps' : List (Step W)}
    (h : Run a b place moves steps place') (h' : Run a b place moves' steps' place'')
    (hl : lefts moves = lefts moves') (hr : rights moves = rights moves') : moves = moves' := by
  induction h generalizing moves' steps' with
  | nil place => exact (h'.eq_nil hl.symm hr.symm).symm
  | cons hallowed hrun ih =>
    cases h' with
    | nil => exact (Run.cons hallowed hrun).eq_nil hl hr
    | cons hallowed' hrun' =>
      cases hallowed with
      | left hi hlabel =>
        cases hallowed' with
        | left hi' =>
          obtain ⟨rfl, hl'⟩ := List.cons.inj hl
          obtain rfl := Option.some.inj (hi.symm.trans hi')
          rw [ih hrun' hl' hr]
        | right _ _ _ hnext =>
          have hwait := hnext.2 ⟨_, Array.mem_of_getElem? hi, hlabel⟩
          exact absurd hl.symm (hrun'.lefts_ne hwait hi hlabel _)
        | both hi' _ _ hne =>
          obtain ⟨rfl, -⟩ := List.cons.inj hl
          obtain rfl := Option.some.inj (hi.symm.trans hi')
          exact absurd hlabel hne
      | right hj hlabel _ hnext =>
        cases hallowed' with
        | left hi' hlabel' =>
          have hwait := hnext.2 ⟨_, Array.mem_of_getElem? hi', hlabel'⟩
          exact absurd hl (hrun.lefts_ne hwait hi' hlabel' _)
        | right hj' _ _ hnext' =>
          obtain ⟨rfl, hr'⟩ := List.cons.inj hr
          obtain rfl := Option.some.inj (hj.symm.trans hj')
          obtain rfl := Turn.eq_of_iff (hnext.trans hnext'.symm)
          rw [ih hrun' hl hr']
        | both _ hj' hsame hne =>
          obtain ⟨rfl, -⟩ := List.cons.inj hr
          obtain rfl := Option.some.inj (hj.symm.trans hj')
          exact absurd (hsame.trans hlabel) hne
      | both hi hj hsame hne =>
        cases hallowed' with
        | left hi' hlabel' =>
          obtain ⟨rfl, -⟩ := List.cons.inj hl
          obtain rfl := Option.some.inj (hi.symm.trans hi')
          exact absurd hlabel' hne
        | right hj' hlabel' =>
          obtain ⟨rfl, -⟩ := List.cons.inj hr
          obtain rfl := Option.some.inj (hj.symm.trans hj')
          exact absurd (hsame.trans hlabel') hne
        | both hi' hj' =>
          obtain ⟨rfl, hl'⟩ := List.cons.inj hl
          obtain ⟨rfl, hr'⟩ := List.cons.inj hr
          obtain rfl := Option.some.inj (hi.symm.trans hi')
          obtain rfl := Option.some.inj (hj.symm.trans hj')
          rw [ih hrun' hl' hr']

end Transducer.Composition
