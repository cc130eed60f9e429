import Mathlib
import Transducer.Proofs.Path.Sum
import Transducer.Proofs.Path.Union

/-!
# Sums over unions

What the accepting paths with a pair of strings add up to is kept as paths are added: each path with labels is one more
summand for its own strings, and a path without labels adds its weight to that of the start, which is the summand of
the path without arcs. So the paths of an automaton that is made by additions only add up to what was added, and the
order of the additions does not matter.
-/

namespace Transducer

open scoped LawfulSemiring

variable {W : Type} [Weight W] {v w weight : W} {input output : List Label}

/-- A path of labels with a weight, which is to be added to an automaton. -/
structure Entry (W : Type) where
  input : List Label
  output : List Label
  weight : W

/-- What is read, or written, by a path that is added. -/
def Entry.spelled (entry : Entry W) (side : Side) : List Label :=
  (side.pick entry.input entry.output).filter (· != epsilon)

namespace Automaton

variable {a b : Automaton W}

/-! ### The strings of a pair -/

/-- The path reads the one string and writes the other. -/
def AcceptingPath.Spells (input output : List Label) (p : AcceptingPath a) : Prop :=
  p.labels .input = input ∧ p.labels .output = output

omit [Weight W] in
theorem AcceptingPath.spells_congr {p : AcceptingPath a} {q : AcceptingPath b} (h : q.content = p.content) :
    q.Spells input output ↔ p.Spells input output := by
  rw [Spells, Spells, labels_congr h, labels_congr h]

omit [Weight W] in
theorem AcceptingPath.spells_of_nil {p : AcceptingPath a} (h : p.arcs = []) :
    p.Spells input output ↔ input = [] ∧ output = [] := by
  rw [Spells, labels, labels, h, spell_nil, spell_nil, eq_comm, eq_comm (b := output)]

/-- Finitely many accepting paths read the one string and write the other, and the sum of their weights is as given. -/
def PairSum (a : Automaton W) (input output : List Label) (sum : W) : Prop :=
  a.SumOver (AcceptingPath.Spells input output) sum

/-- What the path without arcs contributes. -/
def ownSum (a : Automaton W) (input output : List Label) : W :=
  if input = [] ∧ output = [] then (a.final? (a.start.getD a.size)).getD 0 else 0

variable [LawfulSemiring W]

theorem sumOver_own (a : Automaton W) (input output : List Label) :
    a.SumOver (fun p => p.Spells input output ∧ ¬p.arcs ≠ []) (a.ownSum input output) := by
  have hnil : a.SumOver (fun p => p.arcs = []) ((a.final? (a.start.getD a.size)).getD 0) := by
    cases hstart : a.start with
    | none =>
      rw [Option.getD_none, final?_eq_none (Nat.le_refl _)]
      exact .none fun p => by cases hstart.symm.trans p.start_eq
    | some s =>
      have hown := a.exists_own_paths [] s
      rw [startingAt_eq hstart] at hown
      obtain ⟨paths, hnodup, hmem, hsum⟩ := hown
      refine ⟨paths, hnodup, fun p => (hmem p).trans ⟨And.left, fun hp => ⟨hp, ?_⟩⟩, hsum.trans (if_pos rfl)⟩
      rw [hp, carried_nil]
  rw [ownSum]
  split
  · next h =>
    refine hnil.congr fun p => ?_
    rw [not_not]
    exact ⟨fun hp => ⟨(AcceptingPath.spells_of_nil hp).2 h, hp⟩, And.right⟩
  · next h =>
    refine .none ?_
    rintro p ⟨hp, hnil⟩
    rw [not_not] at hnil
    exact h ((AcceptingPath.spells_of_nil hnil).1 hp)

/-- What is added without labels is one more summand of what the path without arcs contributes. -/
theorem ownSum_of_unites (h : a.Unites [] [] weight b) (input output : List Label) :
    b.ownSum input output = a.ownSum input output + if [] = input ∧ [] = output then weight else 0 := by
  have hsome : ∀ w : W, (if isZero w then Option.none else some w).getD 0 = w := by
    intro w
    split
    · next hzero => exact ((LawfulSemiring.isZero_iff w).1 hzero).symm
    · rfl
  have htotal : ∀ old : Option W, old.elim weight (· + weight) = old.getD 0 + weight := by
    rintro (_ | old)
    · exact (zero_add weight).symm
    · rfl
  by_cases hpair : [] = input ∧ [] = output
  · obtain ⟨rfl, rfl⟩ := hpair
    have hfinal := (h.own rfl rfl).2.1 (a.start.getD a.size)
    rw [if_pos rfl] at hfinal
    rw [ownSum, ownSum, h.start_eq, Option.getD_some, hfinal]
    simp only [hsome, htotal, and_self, if_true]
  · have hpair' : ¬(input = [] ∧ output = []) := fun h => hpair ⟨h.1.symm, h.2.symm⟩
    rw [ownSum, ownSum, if_neg hpair, if_neg hpair', if_neg hpair', add_zero]

/-- The one path that is new is a summand for its own strings, if it is a path. -/
theorem sumOver_new {ilabels olabels : List Label}
    (e : AcceptingPath a ⊕ PLift (isZero weight = false) ≃ AcceptingPath b)
    (hweight : ∀ h, (e (.inr h)).weight = weight)
    (hlabels : ∀ h side, (e (.inr h)).labels side = (side.pick ilabels olabels).filter (· != epsilon))
    (input output : List Label) :
    b.SumOver (fun q => q.Spells input output ∧ ∃ h, e (.inr h) = q)
      (if ilabels.filter (· != epsilon) = input ∧ olabels.filter (· != epsilon) = output then weight else 0) := by
  have hspells : ∀ h, (e (.inr h)).Spells input output ↔
      ilabels.filter (· != epsilon) = input ∧ olabels.filter (· != epsilon) = output := by
    intro h
    rw [AcceptingPath.Spells, hlabels, hlabels]
    rfl
  split
  · next hpair =>
    by_cases hzero : isZero weight = true
    · obtain rfl := (LawfulSemiring.isZero_iff weight).1 hzero
      refine .none ?_
      rintro _ ⟨-, h, rfl⟩
      exact Bool.false_ne_true (h.down.symm.trans hzero)
    · rw [Bool.not_eq_true] at hzero
      have hsingle := SumOver.single (e (.inr ⟨hzero⟩))
      rw [hweight ⟨hzero⟩] at hsingle
      refine hsingle.congr fun q => ⟨?_, ?_⟩
      · rintro rfl
        exact ⟨(hspells _).2 hpair, _, rfl⟩
      · rintro ⟨-, h, rfl⟩
        rfl
  · next hpair =>
    refine .none ?_
    rintro _ ⟨hq, h, rfl⟩
    exact hpair ((hspells _).1 hq)

namespace PairSum

/-- The sum is made up of the paths with arcs and of the one without. -/
theorem exists_long (h : a.PairSum input output v) :
    ∃ long, a.SumOver (fun p => p.Spells input output ∧ p.arcs ≠ []) long ∧ v = long + a.ownSum input output := by
  obtain ⟨long, own, hlong, hown, rfl⟩ := h.split fun p => p.arcs ≠ []
  exact ⟨long, hlong, by rw [hown.unique (a.sumOver_own input output)]⟩

theorem of_long {long : W} (h : a.SumOver (fun p => p.Spells input output ∧ p.arcs ≠ []) long) :
    a.PairSum input output (long + a.ownSum input output) := by
  refine (h.add (a.sumOver_own input output) fun p hp hp' => hp'.2 hp.2).congr fun p => ?_
  rw [← and_or_left, and_iff_left (em _)]

/-- A path with labels is one more summand of the sum for its strings. -/
theorem unites_of_ne_nil {ilabels olabels : List Label} (hne : ilabels ≠ [] ∨ olabels ≠ [])
    (hunites : a.Unites ilabels olabels weight b) (h : a.PairSum input output v) :
    b.PairSum input output (v + if ilabels.filter (· != epsilon) = input ∧ olabels.filter (· != epsilon) = output
      then weight else 0) := by
  obtain ⟨e, hold, hnew⟩ := hunites.path hne
  have hsame : a.SumOver (fun p => (e (.inl p)).Spells input output) v :=
    SumOver.congr h fun p => (AcceptingPath.spells_congr (hold p)).symm
  have holdSum := hsame.image (R := AcceptingPath.Spells input output) (e.injective.comp Sum.inl_injective) fun p =>
    AcceptingPath.weight_congr (hold p)
  have hnewSum := sumOver_new e (fun h => (hnew h).2.1) (fun h => (hnew h).2.2) input output
  refine (holdSum.add hnewSum ?_).congr fun q => ?_
  · rintro _ ⟨-, p, rfl⟩ ⟨-, hweight, heq⟩
    cases e.injective heq
  · rw [← and_or_left, and_iff_left_iff_imp]
    intro _
    obtain ⟨p | hweight, rfl⟩ := e.surjective q
    · exact .inl ⟨p, rfl⟩
    · exact .inr ⟨hweight, rfl⟩

/-- Without labels, the weight is one more summand of what the path without arcs contributes. -/
theorem unites_nil (hunites : a.Unites [] [] weight b) (h : a.PairSum input output v) :
    b.PairSum input output (v + if [] = input ∧ [] = output then weight else 0) := by
  obtain ⟨-, -, e, he⟩ := hunites.own rfl rfl
  obtain ⟨long, hlong, rfl⟩ := h.exists_long
  rw [add_assoc, ← ownSum_of_unites hunites]
  refine of_long (hlong.transport (fun p hp => (e ⟨p, hp.2⟩).1) (fun q => ?_) ?_ fun p hp =>
    AcceptingPath.weight_congr (he ⟨p, hp.2⟩))
  · constructor
    · rintro ⟨hq, harcs⟩
      obtain ⟨p, hp⟩ := e.surjective ⟨q, harcs⟩
      have hspells : (e p).1.Spells input output ↔ p.1.Spells input output := AcceptingPath.spells_congr (he p)
      rw [hp] at hspells
      exact ⟨p.1, ⟨hspells.1 hq, p.2⟩, congrArg Subtype.val hp⟩
    · rintro ⟨p, hp, rfl⟩
      exact ⟨(AcceptingPath.spells_congr (he ⟨p, hp.2⟩)).2 hp.1, (e ⟨p, hp.2⟩).2⟩
  · intro p hp p' hp' heq
    exact congrArg Subtype.val (e.injective (Subtype.ext heq))

/-- Whatever is added, its weight is one more summand of the sum for its strings. -/
theorem unites {entry : Entry W} (hunites : a.Unites entry.input entry.output entry.weight b)
    (h : a.PairSum input output v) :
    b.PairSum input output
      (v + if entry.spelled .input = input ∧ entry.spelled .output = output then entry.weight else 0) := by
  by_cases hne : entry.input ≠ [] ∨ entry.output ≠ []
  · exact h.unites_of_ne_nil hne hunites
  · obtain ⟨ilabels, olabels, weight⟩ := entry
    obtain ⟨rfl, rfl⟩ : ilabels = [] ∧ olabels = [] := by simpa using hne
    exact h.unites_nil hunites

end PairSum

/-! ### Many additions -/

/-- Adds one path after the other. -/
def addAll (a : Automaton W) (entries : List (Entry W)) : Automaton W :=
  entries.foldl (fun a entry => (a.addPath entry.input entry.output entry.weight).2) a

/-- What the entries with a pair of strings add up to is added to the sum for these strings. -/
theorem PairSum.addAll (h : a.PairSum input output v) (hreturn : a.NoReturn) (wf : a.WellFormed)
    (entries : List (Entry W)) :
    (a.addAll entries).PairSum input output (v + ((entries.filter fun entry =>
      entry.spelled .input = input ∧ entry.spelled .output = output).map (·.weight)).sum) := by
  induction entries generalizing a v with
  | nil =>
    rw [List.filter_nil, List.map_nil, List.sum_nil, add_zero]
    exact h
  | cons entry entries ih =>
    have hunites := unites_addPath hreturn wf entry.input entry.output entry.weight
    have hrest := ih (h.unites hunites) hunites.noReturn hunites.wellFormed
    by_cases hpair : entry.spelled .input = input ∧ entry.spelled .output = output
    · rw [List.filter_cons_of_pos (by simpa using hpair), List.map_cons, List.sum_cons, ← add_assoc]
      rwa [if_pos hpair] at hrest
    · rw [List.filter_cons_of_neg (by simpa using hpair)]
      rwa [if_neg hpair, add_zero] at hrest

/-- Adding a path of labels makes a union: it adds the one path, with its strings and its weight, and adds up what has
no labels at the start. What is made of no states in this way relates each pair of strings with what was added for it,
in any order of the additions. -/
theorem unites_addPath_and_pairSum_addAll :
    (∀ (a : Automaton W) (ilabels olabels : List Label) (weight : W), a.WellFormed → a.NoReturn →
      a.Unites ilabels olabels weight (a.addPath ilabels olabels weight).2) ∧
    ∀ (a : Automaton W) (entries order : List (Entry W)) (input output : List Label), a.states = #[] →
      a.start = none → order.Perm entries →
        (a.addAll order).PairSum input output ((entries.filter fun entry =>
          entry.spelled .input = input ∧ entry.spelled .output = output).map (·.weight)).sum := by
  refine ⟨fun a ilabels olabels weight wf hreturn => unites_addPath hreturn wf ilabels olabels weight, ?_⟩
  intro a entries order input output hstates hstart hperm
  have wf : a.WellFormed := meets_proper_iff.1 (.of_states_eq_empty hstates hstart)
  have hreturn : a.NoReturn := by
    intro s arc _
    rw [hstart]
    exact nofun
  have hnone : a.PairSum input output 0 := .none fun p => by cases hstart.symm.trans p.start_eq
  have hsum := hnone.addAll hreturn wf order
  rwa [zero_add, ((hperm.filter _).map _).sum_eq] at hsum

/-- An automaton whose start is final and has an arc. -/
def ferry : Automaton (Mass ℤ) where
  states := #[{ final := some ⟨2⟩, arcs := #[⟨1, 2, ⟨3⟩, 1⟩] }, { final := some ⟨1⟩ }]
  start := some 0

/-- Paths of which three have the same strings, one of these with the weight of no path, and the others have none. -/
def tolls : List (Entry (Mass ℤ)) :=
  [⟨[1, 0], [2], ⟨5⟩⟩, ⟨[], [], ⟨4⟩⟩, ⟨[0, 1], [0, 0, 2], ⟨-3⟩⟩, ⟨[1], [2], ⟨0⟩⟩, ⟨[], [], ⟨-4⟩⟩, ⟨[0], [], ⟨7⟩⟩]

/-- A path that is no path, a start that is not final any more, and the paths in another order. -/
theorem unites_addPath_and_pairSum_addAll_tolls :
    ferry.Unites [1, 0] [2] ⟨0⟩ (ferry.addPath [1, 0] [2] ⟨0⟩).2 ∧
      ferry.Unites [] [] ⟨-2⟩ (ferry.addPath [] [] ⟨-2⟩).2 ∧
        ((empty : Automaton (Mass ℤ)).addAll tolls.reverse).PairSum [1] [2] ⟨2⟩ ∧
          ((empty : Automaton (Mass ℤ)).addAll tolls.reverse).PairSum [] [] ⟨7⟩ := by
  obtain ⟨hunites, hsum⟩ := unites_addPath_and_pairSum_addAll (W := Mass ℤ)
  have wf : ferry.WellFormed := by decide
  have hreturn : ferry.NoReturn := by decide
  exact ⟨hunites ferry [1, 0] [2] ⟨0⟩ wf hreturn, hunites ferry [] [] ⟨-2⟩ wf hreturn,
    hsum empty tolls tolls.reverse [1] [2] rfl rfl tolls.reverse_perm,
    hsum empty tolls tolls.reverse [] [] rfl rfl tolls.reverse_perm⟩

end Automaton

end Transducer
