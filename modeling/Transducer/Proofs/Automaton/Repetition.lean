import Mathlib
import Transducer.Automaton.Closure
import Transducer.Proofs.Path.Accepting
import Transducer.Proofs.Weight.Exact

/-!
# Repetition

The arcs that lead back to the start are the last ones of the final states, so an accepting path of the repeated
automaton is cut in one way only: at the positions where it leaves a state behind the arcs that were there before.
The pieces are accepting paths, and any sequence of accepting paths is put together again (`exists_equiv_loopBack`).
The new start that goes before the old one adds the path without arcs, and an arc in front of all others
(`exists_equiv_star`).

The number of the new start must be no target before, which is so wherever the arcs stay in the automaton.
-/

namespace Transducer

/-- The arc by which a final state leads back to the start. -/
def Arc.back {W : Type} (weight : W) (start : Nat) : Arc W := ⟨epsilon, epsilon, weight, start⟩

theorem spell_back {W : Type} (side : Side) (weight : W) (start : Nat) (arcs : List (Arc W)) :
    spell side (Arc.back weight start :: arcs) = spell side arcs :=
  spell_cons_of_eq side (by cases side <;> rfl) arcs

namespace Automaton

variable {W : Type} {a b : Automaton W} {s t start : Nat} {places : List Nat} {arcs : List (Arc W)} {final : W}

/-- Ways through states that two automata have in common are ways of both. -/
theorem Way.of_common {P : Nat → Prop} (h : a.Way s places arcs t) (hs : P s)
    (hcommon : ∀ s, P s → a.arcsAt s = b.arcsAt s)
    (hclosed : ∀ {s : Nat} {arc : Arc W}, P s → arc ∈ a.arcsAt s → P arc.target) :
    b.Way s places arcs t ∧ P t := by
  induction h with
  | nil s => exact ⟨.nil s, hs⟩
  | cons hi _ ih =>
    obtain ⟨hway, ht⟩ := ih (hclosed hs (Array.mem_of_getElem? hi))
    exact ⟨.cons (hcommon _ hs ▸ hi) hway, ht⟩

/-! ### The arcs back to the start -/

/-- The state with an arc back to the start, if it is final. -/
def looped (start : Nat) (state : State W) : State W :=
  match state.final with
  | some weight => state.push (.back weight start)
  | none => state

theorem looped_of_not_final {state : State W} (h : state.final = none) : looped start state = state := by
  rw [looped, h]

/-- Whether or not there are final states, each state is looped. -/
theorem getElem?_loopBack (a : Automaton W) (start s : Nat) :
    (a.loopBack start).states[s]? = a.states[s]?.map (looped start) := by
  unfold loopBack
  split
  · next hnone =>
    rw [Array.all_eq_true'] at hnone
    cases hs : a.states[s]? with
    | none => rfl
    | some state =>
      have hfinal := Option.isNone_iff_eq_none.1 (hnone state (Array.mem_of_getElem? hs))
      rw [Option.map_some, looped_of_not_final hfinal]
  · unfold mapStates
    split
    · next hempty => rw [Array.isEmpty_iff.1 hempty]; rfl
    · exact Array.getElem?_map

@[simp] theorem start_loopBack (a : Automaton W) (start : Nat) : (a.loopBack start).start = a.start := by
  unfold loopBack mapStates
  split
  · rfl
  · split <;> rfl

@[simp] theorem size_loopBack (a : Automaton W) (start : Nat) : (a.loopBack start).size = a.size := by
  unfold loopBack
  split
  · rfl
  · exact size_mapStates _ a

@[simp] theorem final?_loopBack (a : Automaton W) (start s : Nat) : (a.loopBack start).final? s = a.final? s := by
  rw [final?, final?, getElem?_loopBack]
  cases a.states[s]? with
  | none => rfl
  | some state =>
    show (looped start state).final = state.final
    unfold looped
    split
    · rfl
    · rfl

theorem arcsAt_loopBack_of_final (h : a.final? s = some final) :
    (a.loopBack start).arcsAt s = (a.arcsAt s).push (.back final start) := by
  obtain ⟨state, hs, hfinal⟩ := Option.bind_eq_some_iff.1 h
  rw [arcsAt, arcsAt, getElem?_loopBack, hs, Option.map_some, looped, hfinal]
  rfl

theorem arcsAt_loopBack_of_not_final (h : a.final? s = none) : (a.loopBack start).arcsAt s = a.arcsAt s := by
  rw [arcsAt, arcsAt, getElem?_loopBack]
  cases hs : a.states[s]? with
  | none => rfl
  | some state =>
    have hfinal : state.final = none := by rwa [final?, hs, Option.bind_some] at h
    rw [Option.map_some, looped_of_not_final hfinal]

/-- An arc of the repeated automaton stands where it stood before, or it leads back from a final state. -/
theorem getElem?_arcsAt_loopBack {i : Nat} {arc : Arc W} (h : ((a.loopBack start).arcsAt s)[i]? = some arc) :
    (a.arcsAt s)[i]? = some arc ∨
      ∃ final, a.final? s = some final ∧ i = (a.arcsAt s).size ∧ arc = .back final start := by
  cases hf : a.final? s with
  | none =>
    rw [arcsAt_loopBack_of_not_final hf] at h
    exact .inl h
  | some final =>
    rw [arcsAt_loopBack_of_final hf, Array.getElem?_push] at h
    split at h
    · next hi => exact .inr ⟨final, rfl, hi, (Option.some.inj h).symm⟩
    · exact .inl h

theorem Way.loopBack (h : a.Way s places arcs t) (start : Nat) : (a.loopBack start).Way s places arcs t := by
  refine h.mono fun {s i arc} hi => ?_
  cases hf : a.final? s with
  | none => rwa [arcsAt_loopBack_of_not_final hf]
  | some final =>
    have hlt : i < (a.arcsAt s).size := (Array.getElem?_eq_some_iff.1 hi).1
    rw [arcsAt_loopBack_of_final hf, Array.getElem?_push, if_neg hlt.ne, hi]

/-! ### Cutting and putting together -/

/-- The positions at which the repeated automaton leaves its states after a final one: it goes back to the start and
takes one path after the other. -/
def rounds (a : Automaton W) : Nat → List (AcceptingPath a) → List Nat
  | _, [] => []
  | s, p :: paths => (a.arcsAt s).size :: (p.places ++ a.rounds p.last paths)

/-- At the beginning of a round, a state is left where it has no arc. -/
theorem getElem?_of_mem_head?_rounds {paths : List (AcceptingPath a)} :
    ∀ i ∈ (a.rounds s paths).head?, (a.arcsAt s)[i]? = none := by
  intro i hi
  cases paths with
  | nil => cases hi
  | cons p paths =>
    obtain rfl := Option.some.inj hi
    exact Array.getElem?_eq_none (Nat.le_refl _)

/-- A way of the repeated automaton to a final state goes to a final state without a round, and on in rounds. -/
theorem Way.exists_rounds (hstart : a.start = some start) (h : (a.loopBack start).Way s places arcs t)
    (hf : a.final? t = some final) :
    ∃ first firstArcs u weight paths, a.Way s first firstArcs u ∧ a.final? u = some weight ∧
      places = first ++ a.rounds u paths := by
  induction h with
  | nil s => exact ⟨[], [], s, final, [], .nil s, hf, rfl⟩
  | @cons s i t arc places arcs hi _ ih =>
    obtain ⟨first, firstArcs, u, weight, paths, hway, hweight, rfl⟩ := ih hf
    obtain hi | ⟨back, hback, rfl, rfl⟩ := getElem?_arcsAt_loopBack hi
    · exact ⟨i :: first, arc :: firstArcs, u, weight, paths, .cons hi hway, hweight, rfl⟩
    · -- what comes after the arc back is a path from the start
      exact ⟨[], [], s, back, ⟨start, first, firstArcs, u, weight, hstart, hway, hweight⟩ :: paths, .nil s, hback, rfl⟩

/-- Two ways end at the same place if they go on at positions that are none of the automaton. -/
theorem Way.append_inj {u v : Nat} {places' others others' : List Nat} {arcs' : List (Arc W)}
    (h : a.Way s places arcs u) (h' : a.Way s places' arcs' v) (hu : ∀ i ∈ others.head?, (a.arcsAt u)[i]? = none)
    (hv : ∀ i ∈ others'.head?, (a.arcsAt v)[i]? = none) (heq : places ++ others = places' ++ others') :
    places = places' ∧ others = others' := by
  induction h generalizing places' arcs' with
  | nil s =>
    cases h' with
    | nil => exact ⟨rfl, heq⟩
    | @cons _ i _ _ _ _ hi _ =>
      obtain rfl : others = _ := heq
      rw [hu i rfl] at hi
      cases hi
  | @cons s i u arc places arcs hi _ ih =>
    cases h' with
    | nil =>
      obtain rfl : _ = others' := heq
      rw [hv i rfl] at hi
      cases hi
    | cons hi' h' =>
      obtain ⟨rfl, hrest⟩ := List.cons.inj heq
      obtain rfl := Option.some.inj (hi.symm.trans hi')
      obtain ⟨rfl, rfl⟩ := ih h' hu hrest
      exact ⟨rfl, rfl⟩

/-- The positions tell the paths. -/
theorem rounds_inj {p q : AcceptingPath a} {paths others : List (AcceptingPath a)}
    (h : p.places ++ a.rounds p.last paths = q.places ++ a.rounds q.last others) : p :: paths = q :: others := by
  induction paths generalizing p q others with
  | nil =>
    have hway : a.Way p.first q.places q.arcs q.last := p.first_eq q.start_eq ▸ q.way
    obtain ⟨hplaces, hrounds⟩ := p.way.append_inj hway getElem?_of_mem_head?_rounds getElem?_of_mem_head?_rounds h
    obtain rfl := AcceptingPath.ext_places hplaces
    cases others with
    | nil => rfl
    | cons q others => cases hrounds
  | cons next paths ih =>
    have hway : a.Way p.first q.places q.arcs q.last := p.first_eq q.start_eq ▸ q.way
    obtain ⟨hplaces, hrounds⟩ := p.way.append_inj hway getElem?_of_mem_head?_rounds getElem?_of_mem_head?_rounds h
    obtain rfl := AcceptingPath.ext_places hplaces
    cases others with
    | nil => cases hrounds
    | cons q others => rw [ih (List.cons.inj hrounds).2]

variable [Weight W]

/-- The path carries what the paths carry one after the other. -/
structure Concatenates (p : AcceptingPath b) (paths : List (AcceptingPath a)) : Prop where
  labels : ∀ side, p.labels side = paths.flatMap (·.labels side)
  weight : p.weight = (paths.map (·.weight)).prod

/-- Rounds are a way of the repeated automaton. -/
theorem exists_way_rounds [LawfulMul W] (hstart : a.start = some start) (hf : a.final? s = some final)
    (paths : List (AcceptingPath a)) :
    ∃ arcs t last, (a.loopBack start).Way s (a.rounds s paths) arcs t ∧ a.final? t = some last ∧
      (∀ side, spell side arcs = paths.flatMap (·.labels side)) ∧
      weigh arcs last = final * (paths.map (·.weight)).prod := by
  induction paths generalizing s final with
  | nil => exact ⟨[], s, final, .nil s, hf, fun _ => rfl, (LawfulMul.mul_one final).symm⟩
  | cons p paths ih =>
    obtain ⟨arcs, t, last, hway, hlast, hlabels, hweight⟩ := ih p.final_eq
    have hback : ((a.loopBack start).arcsAt s)[(a.arcsAt s).size]? = some (.back final start) := by
      rw [arcsAt_loopBack_of_final hf, Array.getElem?_push, if_pos rfl]
    have hround : (a.loopBack start).Way start p.places p.arcs p.last := (p.first_eq hstart ▸ p.way).loopBack start
    refine ⟨_, t, last, .cons hback (hround.append hway), hlast, fun side => ?_, ?_⟩
    · rw [spell_back, spell_append, hlabels, List.flatMap_cons, AcceptingPath.labels]
    · rw [weigh_cons, weigh_append, hweight, ← weigh_mul, List.map_cons, List.prod_cons]
      rfl

/-- Any paths are put together to one path, by their positions. -/
theorem exists_concatenation [LawfulMul W] (hstart : a.start = some start) (q : AcceptingPath a)
    (paths : List (AcceptingPath a)) :
    ∃ p : AcceptingPath (a.loopBack start), p.places = q.places ++ a.rounds q.last paths ∧
      Concatenates p (q :: paths) := by
  obtain ⟨arcs, t, last, hway, hlast, hlabels, hweight⟩ := exists_way_rounds hstart q.final_eq paths
  refine ⟨⟨q.first, _, _, t, last, ?_, (q.way.loopBack start).append hway, ?_⟩, rfl, fun side => ?_, ?_⟩
  · rw [start_loopBack, q.start_eq]
  · rw [final?_loopBack, hlast]
  · rw [AcceptingPath.labels, spell_append, hlabels, List.flatMap_cons, AcceptingPath.labels]
  · rw [AcceptingPath.weight, weigh_append, hweight, ← weigh_mul, List.map_cons, List.prod_cons, AcceptingPath.weight]

/-- The accepting paths of an automaton with arcs back to its start correspond one-to-one to the sequences of accepting
paths that there were before. -/
theorem exists_equiv_loopBack [LawfulMul W] (hstart : a.start = some start) :
    ∃ e : AcceptingPath (a.loopBack start) ≃ {paths : List (AcceptingPath a) // paths ≠ []},
      ∀ p, Concatenates p (e p).1 := by
  refine (exists_equiv_of_related
    (R := fun (p : AcceptingPath (a.loopBack start)) (paths : {paths : List (AcceptingPath a) // paths ≠ []}) =>
      ∃ q others, paths.1 = q :: others ∧ p.places = q.places ++ a.rounds q.last others)
    (fun p => ?_) (fun paths => ?_) (fun {p paths paths'} h h' => ?_) (fun {p p' paths} h h' => ?_)).imp
    fun e he p => ?_
  · have hfirst : a.start = some p.first := start_loopBack a start ▸ p.start_eq
    obtain ⟨first, firstArcs, u, weight, paths, hway, hweight, hplaces⟩ :=
      p.way.exists_rounds hstart (final?_loopBack a start p.last ▸ p.final_eq)
    exact ⟨⟨⟨p.first, first, firstArcs, u, weight, hfirst, hway, hweight⟩ :: paths, by simp⟩, _, _, rfl, hplaces⟩
  · obtain ⟨paths, hne⟩ := paths
    cases paths with
    | nil => exact absurd rfl hne
    | cons q others =>
      obtain ⟨p, hplaces, -⟩ := exists_concatenation hstart q others
      exact ⟨p, q, others, rfl, hplaces⟩
  · obtain ⟨q, others, heq, hplaces⟩ := h
    obtain ⟨q', others', heq', hplaces'⟩ := h'
    rw [Subtype.ext_iff, heq, heq', rounds_inj (hplaces.symm.trans hplaces')]
  · obtain ⟨q, others, heq, hplaces⟩ := h
    obtain ⟨q', others', heq', hplaces'⟩ := h'
    obtain ⟨rfl, rfl⟩ := List.cons.inj (heq.symm.trans heq')
    exact AcceptingPath.ext_places (hplaces.trans hplaces'.symm)
  · obtain ⟨q, others, heq, hplaces⟩ := he p
    obtain ⟨p', hplaces', hp'⟩ := exists_concatenation hstart q others
    obtain rfl := AcceptingPath.ext_places (hplaces.trans hplaces'.symm)
    exact heq ▸ hp'

/-! ### The new start -/

theorem closure_plus (hstart : a.start = some start) : a.closure .plus = a.loopBack start := by
  unfold closure
  rw [hstart]

theorem closure_star (hstart : a.start = some start) : a.closure .star =
    { (a.loopBack start).pushState { final := some 1, arcs := #[.back 1 start] } with start := some a.size } := by
  unfold closure
  rw [hstart]
  rfl

section

variable (hstart : a.start = some start)
include hstart

theorem start_star : (a.closure .star).start = some a.size := by
  rw [closure_star hstart]

theorem getElem?_star : (a.closure .star).states[s]? =
    if s = a.size then some { final := some 1, arcs := #[.back 1 start] } else (a.loopBack start).states[s]? := by
  rw [closure_star hstart, ← size_loopBack a start]
  exact Array.getElem?_push

theorem arcsAt_star_of_ne (hs : s ≠ a.size) : (a.closure .star).arcsAt s = (a.loopBack start).arcsAt s := by
  rw [arcsAt, arcsAt, getElem?_star hstart, if_neg hs]

theorem final?_star_of_ne (hs : s ≠ a.size) : (a.closure .star).final? s = (a.loopBack start).final? s := by
  rw [final?, final?, getElem?_star hstart, if_neg hs]

theorem arcsAt_star : (a.closure .star).arcsAt a.size = #[.back 1 start] := by
  rw [arcsAt, getElem?_star hstart, if_pos rfl]

theorem final?_star : (a.closure .star).final? a.size = some 1 := by
  rw [final?, getElem?_star hstart, if_pos rfl]
  rfl

end

/-- The path has no arcs and is free, or it carries what another one carries. -/
def EmptyOr (p : AcceptingPath a) : Option (AcceptingPath b) → Prop
  | none => p.arcs = [] ∧ p.weight = 1
  | some q => (∀ side, p.labels side = q.labels side) ∧ p.weight = q.weight

/-- The path goes on from the new start as the other one does from the old start, or it is the path without arcs. -/
def Enters (start : Nat) (p : AcceptingPath (a.closure .star)) : Option (AcceptingPath (a.loopBack start)) → Prop
  | none => p.arcs = [] ∧ p.places = [] ∧ p.final = 1
  | some q => p.arcs = .back 1 start :: q.arcs ∧ p.places = 0 :: q.places ∧ p.final = q.final

namespace Enters

variable {p p' : AcceptingPath (a.closure .star)} {q? q?' : Option (AcceptingPath (a.loopBack start))}

theorem right_unique (h : Enters start p q?) (h' : Enters start p q?') : q? = q?' := by
  cases q? with
  | none =>
    cases q?' with
    | none => rfl
    | some q' => exact nomatch h.2.1.symm.trans h'.2.1
  | some q =>
    cases q?' with
    | none => exact nomatch h.2.1.symm.trans h'.2.1
    | some q' => rw [AcceptingPath.ext_places (List.cons.inj (h.2.1.symm.trans h'.2.1)).2]

theorem left_unique (h : Enters start p q?) (h' : Enters start p' q?) : p = p' := by
  cases q? with
  | none => exact AcceptingPath.ext_places (h.2.1.trans h'.2.1.symm)
  | some q => exact AcceptingPath.ext_places (h.2.1.trans h'.2.1.symm)

/-- The arc from the new start carries nothing and is free. -/
theorem emptyOr [LawfulMul W] (h : Enters start p q?) : EmptyOr p q? := by
  cases q? with
  | none =>
    obtain ⟨harcs, -, hfinal⟩ := h
    exact ⟨harcs, by rw [AcceptingPath.weight, harcs, hfinal, weigh_nil]⟩
  | some q =>
    obtain ⟨harcs, -, hfinal⟩ := h
    refine ⟨fun side => ?_, ?_⟩
    · rw [AcceptingPath.labels, harcs, spell_back, AcceptingPath.labels]
    · rw [AcceptingPath.weight, harcs, hfinal, weigh_cons]
      exact LawfulMul.one_mul _

end Enters

section

variable (hstart : a.start = some start) (hne : start ≠ a.size)
  (hfree : ∀ {s : Nat}, ∀ arc ∈ a.arcsAt s, arc.target ≠ a.size)

omit [Weight W] in
include hne hfree in
/-- No arc but that of a final state leads to where the new start will be, nor do the arcs back. -/
theorem target_ne_of_mem_loopBack {arc : Arc W} (h : arc ∈ (a.loopBack start).arcsAt s) : arc.target ≠ a.size := by
  obtain ⟨i, hi⟩ := Array.getElem?_of_mem h
  obtain hi | ⟨final, -, -, rfl⟩ := getElem?_arcsAt_loopBack hi
  · exact hfree arc (Array.mem_of_getElem? hi)
  · exact hne

include hstart hne hfree

/-- From the old start on, the new start makes no difference. -/
theorem way_star_iff : (a.closure .star).Way start places arcs t ↔
    (a.loopBack start).Way start places arcs t ∧ t ≠ a.size := by
  have hcommon : ∀ s ≠ a.size, (a.closure .star).arcsAt s = (a.loopBack start).arcsAt s :=
    fun s hs => arcsAt_star_of_ne hstart hs
  have hclosed : ∀ {s : Nat} {arc : Arc W}, s ≠ a.size → arc ∈ (a.loopBack start).arcsAt s → arc.target ≠ a.size :=
    fun _ => target_ne_of_mem_loopBack hne hfree
  constructor
  · intro h
    exact h.of_common hne hcommon fun hs harc => hclosed hs (hcommon _ hs ▸ harc)
  · rintro ⟨h, -⟩
    exact (h.of_common hne (fun s hs => (hcommon s hs).symm) hclosed).1

/-- Each path from the new start is without arcs or goes on from the old start. -/
theorem exists_enters (p : AcceptingPath (a.closure .star)) : ∃ q?, Enters start p q? := by
  obtain ⟨first, places, arcs, last, final, hfirst, hway, hfinal⟩ := p
  obtain rfl := Option.some.inj ((start_star hstart).symm.trans hfirst)
  cases hway with
  | nil => exact ⟨none, rfl, rfl, Option.some.inj (hfinal.symm.trans (final?_star hstart))⟩
  | @cons _ i _ arc places arcs hi hway =>
    rw [arcsAt_star hstart] at hi
    obtain ⟨hlt, rfl⟩ := Array.getElem?_eq_some_iff.1 hi
    obtain rfl : i = 0 := Nat.lt_one_iff.1 hlt
    obtain ⟨hway, hlast⟩ := (way_star_iff hstart hne hfree).1 hway
    rw [final?_star_of_ne hstart hlast] at hfinal
    exact ⟨some ⟨start, places, arcs, last, final, by rw [start_loopBack, hstart], hway, hfinal⟩, rfl, rfl, rfl⟩

/-- Each path from the old start is gone on with from the new start. -/
theorem exists_entering (q? : Option (AcceptingPath (a.loopBack start))) :
    ∃ p : AcceptingPath (a.closure .star), Enters start p q? := by
  have hstart' := start_star hstart
  cases q? with
  | none => exact ⟨⟨a.size, [], [], a.size, 1, hstart', .nil _, final?_star hstart⟩, rfl, rfl, rfl⟩
  | some q =>
    obtain ⟨first, places, arcs, last, final, hfirst, hway, hfinal⟩ := q
    rw [start_loopBack, hstart] at hfirst
    obtain rfl := Option.some.inj hfirst
    have hlast : last ≠ a.size := by
      rintro rfl
      rw [final?_eq_none (size_loopBack a start).le] at hfinal
      cases hfinal
    have hback : ((a.closure .star).arcsAt a.size)[0]? = some (.back 1 start) := by
      rw [arcsAt_star hstart]
      rfl
    have hfinal' : (a.closure .star).final? last = some final := by rw [final?_star_of_ne hstart hlast, hfinal]
    exact ⟨⟨a.size, _, _, last, final, hstart', .cons hback ((way_star_iff hstart hne hfree).2 ⟨hway, hlast⟩), hfinal'⟩,
      rfl, rfl, rfl⟩

/-- The accepting paths with a new start are those without it, after an arc from the new start, and the path without
arcs. -/
theorem exists_equiv_star [LawfulMul W] :
    ∃ e : AcceptingPath (a.closure .star) ≃ Option (AcceptingPath (a.loopBack start)), ∀ p, EmptyOr p (e p) := by
  obtain ⟨e, he⟩ := exists_equiv_of_related (exists_enters hstart hne hfree) (exists_entering hstart hne hfree)
    Enters.right_unique Enters.left_unique
  exact ⟨e, fun p => (he p).emptyOr⟩

end

/-- Repeated at least once, an automaton accepts the sequences of its accepting paths, each in one way. Repeated any
number of times, it also accepts by the path without arcs, and in no other way. The number of the new start lies
outside the automaton, so no arc that stays inside leads there. -/
theorem exists_equiv_closure [LawfulMul W] (hstart : a.start = some start) :
    (∃ e : AcceptingPath (a.closure .plus) ≃ {paths : List (AcceptingPath a) // paths ≠ []},
      ∀ p, Concatenates p (e p).1) ∧
    (start < a.size → (∀ {s : Nat}, ∀ arc ∈ a.arcsAt s, arc.target ≠ a.size) →
      ∃ e : AcceptingPath (a.closure .star) ≃ Option (AcceptingPath (a.closure .plus)), ∀ p, EmptyOr p (e p)) := by
  rw [closure_plus hstart]
  exact ⟨exists_equiv_loopBack hstart, fun hlt hfree => exists_equiv_star hstart hlt.ne hfree⟩

/-- An automaton that is final at its start, with a loop there, an epsilon arc to another final state, and an epsilon
arc from there back to the start. -/
def carousel : Automaton (ExactCost ℤ) where
  states := #[{ final := some ⟨((3 : ℤ) : WithTop ℤ)⟩, arcs := #[⟨1, 2, 1, 0⟩, ⟨epsilon, epsilon, ⟨(2 : ℤ)⟩, 1⟩] },
    { final := some ⟨((-1 : ℤ) : WithTop ℤ)⟩, arcs := #[⟨epsilon, epsilon, 1, 0⟩] }]
  start := some 0

theorem exists_equiv_closure_carousel :
    (∃ e : AcceptingPath (carousel.closure .plus) ≃ {paths : List (AcceptingPath carousel) // paths ≠ []},
      ∀ p, Concatenates p (e p).1) ∧
    ∃ e : AcceptingPath (carousel.closure .star) ≃ Option (AcceptingPath (carousel.closure .plus)),
      ∀ p, EmptyOr p (e p) := by
  obtain ⟨hplus, hstar⟩ := exists_equiv_closure (a := carousel) rfl
  exact ⟨hplus, hstar (by decide) (forall_mem_arcsAt_iff.2 (by decide))⟩

end Automaton

end Transducer
