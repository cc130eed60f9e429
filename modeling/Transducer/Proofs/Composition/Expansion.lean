import Mathlib
import Transducer.Composition.Step
import Transducer.Proofs.Except
import Transducer.Proofs.Matching.Exact

/-!
# The steps of a composite state

`Allowed` says which steps two automata can make at a composite state: the left one alone by an arc that
writes nothing, the right one alone by an arc that reads nothing, or both by arcs with the same label
between them. It says so by the arcs alone, without matchers and without implicit arcs.

The main result is `expand_eq`: without layers, the expansion of a composite state lists each allowed step
exactly once, whichever operand is listed.
-/

namespace Transducer.Composition

variable {W : Type}

/-- The labels and the weight of a step. -/
def Step.content (step : Step W) : Label × Label × W := (step.ilabel, step.olabel, step.weight)

/-- How the operands move at a step: the positions of the arcs that they take. An operand without a
position stays where it is. -/
abbrev Move := Option Nat × Option Nat

/-- Some arc of the state writes nothing. -/
def CanWriteNothing (a : Automaton W) (s : Nat) : Prop := ∃ arc ∈ a.arcsAt s, arc.olabel = epsilon

/-- The state is final or has an arc that writes something: it need not move alone. -/
def CanMeet (a : Automaton W) (s : Nat) : Prop :=
  (a.final? s).isSome = true ∨ ∃ arc ∈ a.arcsAt s, arc.olabel ≠ epsilon

/-- Whether the left state must move alone. -/
def mustMove (a : Automaton W) (s : Nat) : Bool :=
  (a.final? s).isNone && (a.arcsAt s).all fun arc => arc.olabel == epsilon

/-- Whether the left state cannot move alone. -/
def mustMeet (a : Automaton W) (s : Nat) : Bool := (a.arcsAt s).all fun arc => arc.olabel != epsilon

theorem mustMove_eq_false_iff {a : Automaton W} {s : Nat} : mustMove a s = false ↔ CanMeet a s := by
  rw [mustMove, Bool.and_eq_false_iff, CanMeet]
  refine or_congr ?_ ?_
  · cases a.final? s <;> simp
  · rw [Array.all_eq_false']
    simp

theorem mustMeet_eq_false_iff {a : Automaton W} {s : Nat} :
    mustMeet a s = false ↔ CanWriteNothing a s := by
  rw [mustMeet, CanWriteNothing, Array.all_eq_false']
  simp

/-- The steps that two automata can make at a composite state. -/
inductive Allowed [Weight W] (a b : Automaton W) (place : Place) : Move → Step W → Prop where
  /-- The left one moves alone. -/
  | left {i : Nat} {l : Arc W} : (a.arcsAt place.left)[i]? = some l → l.olabel = epsilon →
      place.turn = .either →
      Allowed a b place (some i, none)
        ⟨l.ilabel, epsilon, l.weight * 1, ⟨l.target, place.right, .either⟩⟩
  /-- The right one moves alone. From then on the left one waits, if it could move alone at all. -/
  | right {j : Nat} {r : Arc W} {next : Turn} : (b.arcsAt place.right)[j]? = some r →
      r.ilabel = epsilon → CanMeet a place.left →
      (next = .right ↔ CanWriteNothing a place.left) →
      Allowed a b place (none, some j) ⟨epsilon, r.olabel, 1 * r.weight, ⟨place.left, r.target, next⟩⟩
  /-- Both move together. -/
  | both {i j : Nat} {l r : Arc W} : (a.arcsAt place.left)[i]? = some l →
      (b.arcsAt place.right)[j]? = some r → l.olabel = r.ilabel → l.olabel ≠ epsilon →
      Allowed a b place (some i, some j)
        ⟨l.ilabel, r.olabel, l.weight * r.weight, ⟨l.target, r.target, .either⟩⟩

/-! ### Matching pairs of arcs -/

/-- The matching pairs of arcs of two states, with their moves, in the order in which they are found when
the first state is listed. The implicit arcs are `idle` and `idle'`, and `side` is the side of the first
state that is compared. -/
def crossings (side : Side) (idle idle' : Arc W) (xs ys : List (Arc W)) : List (Move × Arc W × Arc W) :=
  (ys.zipIdx.filter fun y => y.1.label side.other == epsilon).map
      (fun y => ((none, some y.2), idle, y.1)) ++
    xs.zipIdx.flatMap fun x =>
      (if x.1.label side = epsilon then [((some x.2, none), x.1, idle')] else []) ++
        (ys.zipIdx.filter fun y => y.1.label side.other == x.1.label side).map
          fun y => ((some x.2, some y.2), x.1, y.1)

section Crossings

variable {side : Side} {idle idle' : Arc W} {xs ys : List (Arc W)}

theorem mem_crossings {move : Move} {pair : Arc W × Arc W} :
    (move, pair) ∈ crossings side idle idle' xs ys ↔
      (∃ j y, ys[j]? = some y ∧ y.label side.other = epsilon ∧ move = (none, some j) ∧ pair = (idle, y)) ∨
      (∃ i x, xs[i]? = some x ∧ x.label side = epsilon ∧ move = (some i, none) ∧ pair = (x, idle')) ∨
      ∃ i x j y, xs[i]? = some x ∧ ys[j]? = some y ∧ y.label side.other = x.label side ∧
        move = (some i, some j) ∧ pair = (x, y) := by
  simp only [crossings, List.mem_append, List.mem_map, List.mem_filter, List.mem_flatMap, Prod.exists,
    List.mem_zipIdx_iff_getElem?, beq_iff_eq, Prod.mk.injEq]
  constructor
  · rintro (⟨y, j, ⟨hy, hlabel⟩, rfl, rfl⟩ | ⟨x, i, hx, hsolo | ⟨y, j, ⟨hy, hlabel⟩, rfl, rfl⟩⟩)
    · exact .inl ⟨j, y, hy, hlabel, rfl, rfl⟩
    · split at hsolo
      · next hlabel =>
        obtain ⟨rfl, rfl⟩ := Prod.mk.inj (List.mem_singleton.1 hsolo)
        exact .inr (.inl ⟨i, x, hx, hlabel, rfl, rfl⟩)
      · cases hsolo
    · exact .inr (.inr ⟨i, x, j, y, hx, hy, hlabel, rfl, rfl⟩)
  · rintro (⟨j, y, hy, hlabel, rfl, rfl⟩ | ⟨i, x, hx, hlabel, rfl, rfl⟩ |
      ⟨i, x, j, y, hx, hy, hlabel, rfl, rfl⟩)
    · exact .inl ⟨y, j, ⟨hy, hlabel⟩, rfl, rfl⟩
    · exact .inr ⟨x, i, hx, .inl (by rw [if_pos hlabel]; exact List.mem_singleton.2 rfl)⟩
    · exact .inr ⟨x, i, hx, .inr ⟨y, j, ⟨hy, hlabel⟩, rfl, rfl⟩⟩

theorem nodup_zipIdx_snd {α : Type*} (l : List α) : (l.zipIdx.map Prod.snd).Nodup := by
  rw [List.zipIdx_map_snd]
  exact List.nodup_range'

/-- To filter the numbered items of a list and forget the numbers is to filter the list. -/
theorem map_filter_zipIdx {α β : Type*} (l : List α) (p : α → Bool) (f : α → β) :
    ((l.zipIdx.filter fun x => p x.1).map fun x => f x.1) = (l.filter p).map f := by
  conv_rhs => rw [← List.zipIdx_map_fst 0 l, List.filter_map, List.map_map]
  rfl

/-- No move is found twice. -/
theorem nodup_crossings : ((crossings side idle idle' xs ys).map Prod.fst).Nodup := by
  have hpositions : ∀ p : Arc W × Nat → Bool, ((ys.zipIdx.filter p).map Prod.snd).Nodup := fun p =>
    (nodup_zipIdx_snd ys).sublist (List.filter_sublist.map _)
  have hmoves : ∀ (o : Option Nat) (p : Arc W × Nat → Bool),
      ((ys.zipIdx.filter p).map fun y => (o, some y.2)).Nodup := by
    intro o p
    have h := (hpositions p).map (f := fun j => (o, some j)) fun i j hij => by simpa using hij
    rwa [List.map_map] at h
  rw [crossings, List.map_append, List.map_flatMap, List.map_map]
  refine List.nodup_append.2 ⟨hmoves none _, List.nodup_flatMap.2 ⟨fun x _ => ?_, ?_⟩, ?_⟩
  · rw [List.map_append, List.map_map]
    refine List.nodup_append.2 ⟨?_, hmoves _ _, ?_⟩
    · split <;> simp
    · rintro m hm m' hm' rfl
      obtain ⟨y, -, rfl⟩ := List.mem_map.1 hm'
      split at hm <;> simp at hm
  · -- different arcs of the first state have different positions
    refine (List.pairwise_map.1 (nodup_zipIdx_snd xs)).imp fun {x x'} hne => ?_
    rw [Function.onFun, List.disjoint_left]
    have hfst : ∀ (x : Arc W × Nat) (m : Move), m ∈ List.map Prod.fst
        ((if x.1.label side = epsilon then [(((some x.2, none) : Move), x.1, idle')] else []) ++
          (ys.zipIdx.filter fun y => y.1.label side.other == x.1.label side).map
            fun y => ((some x.2, some y.2), x.1, y.1)) → m.1 = some x.2 := by
      intro x m hm
      rw [List.map_append, List.map_map, List.mem_append] at hm
      rcases hm with hm | hm
      · split at hm <;> simp at hm
        rw [hm]
      · obtain ⟨y, -, rfl⟩ := List.mem_map.1 hm
        rfl
    intro m hm hm'
    exact hne (Option.some.inj ((hfst x m hm).symm.trans (hfst x' m hm')))
  · rintro m hm m' hm' rfl
    obtain ⟨y, -, rfl⟩ := List.mem_map.1 hm
    simp only [List.mem_flatMap, List.map_append, List.map_map, List.mem_append] at hm'
    obtain ⟨x, -, hm' | hm'⟩ := hm'
    · split at hm' <;> simp at hm'
    · obtain ⟨z, -, hz⟩ := List.mem_map.1 hm'
      simp at hz

end Crossings

variable [Weight W]

/-- To list the arcs of one state, the implicit arc first, and to look up what matches them in the other
finds the crossings of the two states. -/
theorem mapM_find_eq {m : Matcher W} (h : m.Reliable) (side : Side) (hside : m.side = some side.other)
    (hlayers : m.layers = []) {s : Nat} (hs : s < m.automaton.size) (idle : Arc W) {xs : List (Arc W)}
    (hidle : idle.label side = noLabel) (hxs : ∀ x ∈ xs, x.label side ≠ noLabel)
    (pair : Arc W → Arc W → Arc W × Arc W) :
    (do
      let found ← (idle :: xs).mapM fun arc =>
        return (← m.find s (arc.label side)).map fun match_ => pair arc match_
      return found.flatten : Except Error (List (Arc W × Arc W))) =
      .ok ((crossings side idle (m.loopArc s) xs (m.automaton.arcsAt s).toList).map
        fun x => pair x.2.1 x.2.2) := by
  have hfind := fun label => m.find_eq h (by simp [hside]) hlayers hs label
  have hmatched : m.matched = side.other := by simp [Matcher.matched, hside]
  have hmatching : ∀ (x : Arc W) (label : Label),
      ((m.automaton.arcsAt s).toList.zipIdx.filter fun y => y.1.label side.other == label).map
        (fun y => pair x y.1) = (m.matching s label).map (pair x) := by
    intro x label
    rw [Matcher.matching, hmatched]
    exact map_filter_zipIdx _ (fun arc => arc.label side.other == label) (pair x)
  let solo (x : Arc W) := if x.label side = epsilon then [pair x (m.loopArc s)] else []
  let meet (x : Arc W) := (m.matching s (x.label side)).map (pair x)
  have hmapM : (xs.mapM fun arc => do
      return (← m.find s (arc.label side)).map fun match_ => pair arc match_) =
      (.ok (xs.map fun x => solo x ++ meet x) : Except Error _) := by
    refine mapM_eq_ok fun x hx => ?_
    rw [hfind]
    by_cases hlabel : x.label side = epsilon
    · simp only [if_pos hlabel, solo, meet, hlabel]
      rfl
    · rw [Matcher.exactMatches_of_ne hlabel (hxs x hx)]
      simp only [if_neg hlabel, solo, meet]
      rfl
  have hpairs : (crossings side idle (m.loopArc s) xs (m.automaton.arcsAt s).toList).map
      (fun x => pair x.2.1 x.2.2) =
      (m.matching s epsilon).map (pair idle) ++ (xs.map fun x => solo x ++ meet x).flatten := by
    rw [crossings, List.map_append, List.map_map, List.map_flatMap, ← List.flatMap_def]
    refine congrArg₂ _ (hmatching idle epsilon) ?_
    have hfst : xs.zipIdx.map Prod.fst = xs := List.zipIdx_map_fst ..
    conv_rhs => rw [← hfst]
    rw [List.flatMap_map]
    refine List.flatMap_congr fun x _ => ?_
    rw [List.map_append, List.map_map]
    refine congrArg₂ _ ?_ (hmatching x.1 _)
    by_cases hlabel : x.1.label side = epsilon <;> simp [solo, hlabel]
  rw [List.mapM_cons, hfind, hidle, Matcher.exactMatches_noLabel, hmapM, hpairs]
  rfl

/-! ### The chart of a composite state -/

/-- The matching pairs of arcs at a composite state, with their moves. -/
def encounters (a b : Automaton W) (operand : Operand) (place : Place) : List (Move × Arc W × Arc W) :=
  let xs := (a.arcsAt place.left).toList
  let ys := (b.arcsAt place.right).toList
  let idle : Arc W := ⟨epsilon, noLabel, 1, place.left⟩
  let idle' : Arc W := ⟨noLabel, epsilon, 1, place.right⟩
  match operand with
  | .left => crossings .output idle idle' xs ys
  | .right => (crossings .input idle' idle ys xs).map fun x => (x.1.swap, x.2.swap)

section Encounters

variable {a b : Automaton W} {operand : Operand} {place : Place}

theorem mem_encounters {move : Move} {pair : Arc W × Arc W} :
    (move, pair) ∈ encounters a b operand place ↔
      (∃ j r, (b.arcsAt place.right)[j]? = some r ∧ r.ilabel = epsilon ∧ move = (none, some j) ∧
        pair = (⟨epsilon, noLabel, 1, place.left⟩, r)) ∨
      (∃ i l, (a.arcsAt place.left)[i]? = some l ∧ l.olabel = epsilon ∧ move = (some i, none) ∧
        pair = (l, ⟨noLabel, epsilon, 1, place.right⟩)) ∨
      ∃ i l j r, (a.arcsAt place.left)[i]? = some l ∧ (b.arcsAt place.right)[j]? = some r ∧
        l.olabel = r.ilabel ∧ move = (some i, some j) ∧ pair = (l, r) := by
  cases operand with
  | left =>
    simp only [encounters, mem_crossings, Array.getElem?_toList, Arc.label, Side.other]
    refine or_congr .rfl (or_congr .rfl ?_)
    constructor
    · rintro ⟨i, l, j, r, hl, hr, hlabel, h⟩
      exact ⟨i, l, j, r, hl, hr, hlabel.symm, h⟩
    · rintro ⟨i, l, j, r, hl, hr, hlabel, h⟩
      exact ⟨i, l, j, r, hl, hr, hlabel.symm, h⟩
  | right =>
    have hswap : (move, pair) ∈ encounters a b .right place ↔ (move.swap, pair.swap) ∈
        crossings .input ⟨noLabel, epsilon, 1, place.right⟩ ⟨epsilon, noLabel, 1, place.left⟩
          (b.arcsAt place.right).toList (a.arcsAt place.left).toList := by
      refine List.mem_map.trans ⟨?_, fun h => ⟨_, h, by simp⟩⟩
      rintro ⟨⟨m, p⟩, h, heq⟩
      obtain ⟨rfl, rfl⟩ := Prod.mk.inj heq
      simpa using h
    simp only [hswap, mem_crossings, Array.getElem?_toList, Arc.label, Side.other]
    simp only [Prod.swap_eq_iff_eq_swap, Prod.swap_prod_mk]
    constructor
    · rintro (h | h | ⟨j, r, i, l, hr, hl, h⟩)
      · exact .inr (.inl h)
      · exact .inl h
      · exact .inr (.inr ⟨i, l, j, r, hl, hr, h⟩)
    · rintro (h | h | ⟨i, l, j, r, hl, hr, h⟩)
      · exact .inr (.inl h)
      · exact .inl h
      · exact .inr (.inr ⟨j, r, i, l, hr, hl, h⟩)

theorem nodup_encounters : ((encounters a b operand place).map Prod.fst).Nodup := by
  cases operand with
  | left => exact nodup_crossings
  | right =>
    have h : ((crossings .input ⟨noLabel, epsilon, 1, place.right⟩ ⟨epsilon, noLabel, 1, place.left⟩
        (b.arcsAt place.right).toList (a.arcsAt place.left).toList).map Prod.fst).Nodup := nodup_crossings
    simpa [encounters, List.map_map, Function.comp_def] using h.map Prod.swap_injective

end Encounters

/-- The steps of a composite state, with the moves that make them. -/
def chart (a b : Automaton W) (operand : Operand) (place : Place) : List (Move × Step W) :=
  (encounters a b operand place).filterMap fun x =>
    (step? place.turn (mustMove a place.left) (mustMeet a place.left) x.2).map fun step => (x.1, step)

section Chart

variable {a b : Automaton W} {operand : Operand} {place : Place}

/-- The steps are those of the pairs of arcs that the turn allows. -/
theorem map_snd_chart : (chart a b operand place).map Prod.snd =
    ((encounters a b operand place).map Prod.snd).filterMap
      (step? place.turn (mustMove a place.left) (mustMeet a place.left)) := by
  rw [chart, List.filterMap_map, List.map_filterMap]
  refine List.filterMap_congr fun x _ => ?_
  rw [Option.map_map]
  exact Option.map_id'

/-- No move makes two steps. -/
theorem nodup_chart : ((chart a b operand place).map Prod.fst).Nodup := by
  refine List.pairwise_map.2 ((List.pairwise_map.1 nodup_encounters).filterMap _ ?_)
  rintro ⟨m, pair⟩ ⟨m', pair'⟩ hne x hx x' hx'
  obtain ⟨-, -, rfl⟩ := Option.map_eq_some_iff.1 hx
  obtain ⟨-, -, rfl⟩ := Option.map_eq_some_iff.1 hx'
  exact hne

theorem mem_chart_iff {move : Move} {step : Step W} :
    (move, step) ∈ chart a b operand place ↔ ∃ l r, (move, l, r) ∈ encounters a b operand place ∧
      step? place.turn (mustMove a place.left) (mustMeet a place.left) (l, r) = some step := by
  rw [chart, List.mem_filterMap]
  constructor
  · rintro ⟨⟨m, l, r⟩, h, hsome⟩
    obtain ⟨_, hstep, heq⟩ := Option.map_eq_some_iff.1 hsome
    obtain ⟨rfl, rfl⟩ := Prod.mk.inj heq
    exact ⟨l, r, h, hstep⟩
  · rintro ⟨l, r, h, hstep⟩
    exact ⟨_, h, by rw [hstep]; rfl⟩

section

variable {move : Move} {step : Step W}

/-- What passes the filter is allowed. -/
theorem allowed_of_encounter (ha : ∀ arc ∈ a.arcsAt place.left, arc.olabel ≠ noLabel)
    (hb : ∀ arc ∈ b.arcsAt place.right, arc.ilabel ≠ noLabel) {l r : Arc W}
    (h : (move, l, r) ∈ encounters a b operand place)
    (hstep : step? place.turn (mustMove a place.left) (mustMeet a place.left) (l, r) = some step) :
    Allowed a b place move step := by
  obtain ⟨next, hpass, rfl⟩ := Option.map_eq_some_iff.1 hstep
  rcases mem_encounters.1 h with ⟨j, r', hr, hlabel, rfl, heq⟩ | ⟨i, l', hl, hlabel, rfl, heq⟩ |
    ⟨i, l', j, r', hl, hr, hlabel, rfl, heq⟩
  · obtain ⟨rfl, rfl⟩ := Prod.mk.inj heq
    rw [Turn.pass, if_pos rfl] at hpass
    split at hpass
    · cases hpass
    · next hmust =>
      refine .right hr hlabel (mustMove_eq_false_iff.1 (by simpa using hmust)) ?_
      rw [← mustMeet_eq_false_iff]
      split at hpass
      · next hmeet =>
        obtain rfl := Option.some.inj hpass
        simp [hmeet]
      · next hmeet =>
        obtain rfl := Option.some.inj hpass
        simpa using hmeet
  · obtain ⟨rfl, rfl⟩ := Prod.mk.inj heq
    have hl' := ha l (Array.mem_of_getElem? hl)
    rw [Turn.pass, if_neg hl', if_pos rfl] at hpass
    split at hpass
    · next hturn =>
      obtain rfl := Option.some.inj hpass
      exact .left hl hlabel hturn
    · cases hpass
  · obtain ⟨rfl, rfl⟩ := Prod.mk.inj heq
    have hl' := ha l (Array.mem_of_getElem? hl)
    have hr' := hb r (Array.mem_of_getElem? hr)
    rw [Turn.pass, if_neg hl', if_neg hr'] at hpass
    split at hpass
    · cases hpass
    · next hne =>
      obtain rfl := Option.some.inj hpass
      exact .both hl hr hlabel hne

/-- What is allowed is encountered, and passes the filter. -/
theorem exists_encounter (ha : ∀ arc ∈ a.arcsAt place.left, arc.olabel ≠ noLabel)
    (hb : ∀ arc ∈ b.arcsAt place.right, arc.ilabel ≠ noLabel) (h : Allowed a b place move step) :
    ∃ l r, (move, l, r) ∈ encounters a b operand place ∧
      step? place.turn (mustMove a place.left) (mustMeet a place.left) (l, r) = some step := by
  cases h with
  | left hl hlabel hturn =>
    have hl' := ha _ (Array.mem_of_getElem? hl)
    refine ⟨_, _, mem_encounters.2 (.inr (.inl ⟨_, _, hl, hlabel, rfl, rfl⟩)), ?_⟩
    simp [step?, Turn.pass, hl', hturn]
  | @right j r next hr hlabel hmeet hnext =>
    refine ⟨_, _, mem_encounters.2 (.inl ⟨_, _, hr, hlabel, rfl, rfl⟩), ?_⟩
    rw [← mustMove_eq_false_iff] at hmeet
    rw [← mustMeet_eq_false_iff] at hnext
    cases next <;> cases hm : mustMeet a place.left <;> simp_all [step?, Turn.pass]
  | both hl hr hlabel hne =>
    have hl' := ha _ (Array.mem_of_getElem? hl)
    have hr' := hb _ (Array.mem_of_getElem? hr)
    refine ⟨_, _, mem_encounters.2 (.inr (.inr ⟨_, _, _, _, hl, hr, hlabel, rfl, rfl⟩)), ?_⟩
    simp [step?, Turn.pass, hl', hr', hne]

/-- The chart has the allowed steps and no others. -/
theorem mem_chart (ha : ∀ arc ∈ a.arcsAt place.left, arc.olabel ≠ noLabel)
    (hb : ∀ arc ∈ b.arcsAt place.right, arc.ilabel ≠ noLabel) :
    (move, step) ∈ chart a b operand place ↔ Allowed a b place move step := by
  rw [mem_chart_iff]
  constructor
  · rintro ⟨l, r, h, hstep⟩
    exact allowed_of_encounter ha hb h hstep
  · exact exists_encounter ha hb

end

end Chart

/-! ### Expansion -/

/-- The operand whose arcs are listed if there are no layers. -/
def Plan.operand : Plan → Operand
  | .fixed operand => operand
  | .perState => .left

/-- Nothing but labels decides what matches: there are no layers, and the operand that is not listed can
be asked. -/
structure Plain (c : Composition W) : Prop where
  left_layers : c.left.layers = []
  right_layers : c.right.layers = []
  left_reliable : c.left.Reliable
  right_reliable : c.right.Reliable
  left_side : c.plan.operand = .right → c.left.side = some .output
  right_side : c.plan.operand = .left → c.right.side = some .input
  left_ne : ∀ {s : Nat}, ∀ arc ∈ c.left.automaton.arcsAt s, arc.olabel ≠ noLabel
  right_ne : ∀ {s : Nat}, ∀ arc ∈ c.right.automaton.arcsAt s, arc.ilabel ≠ noLabel

omit [Weight W] in
/-- Without layers it does not depend on the composite state which operand is listed. -/
theorem listed_eq {c : Composition W} (hl : c.left.layers = []) (hr : c.right.layers = []) (id : Nat)
    (place : Place) : c.listed id place = .ok c.plan.operand := by
  unfold listed
  cases c.plan with
  | fixed operand => rfl
  | perState =>
    simp [Matcher.hasSpecialArcs, Matcher.hasLayers, hl, hr, bind, Except.bind, pure, Except.pure, Plan.operand]

/-- A composite state whose operand states exist is expanded to the steps of its chart. -/
theorem expand_eq {c : Composition W} (h : Plain c) (id : Nat) {place : Place}
    (hl : place.left < c.left.automaton.size) (hr : place.right < c.right.automaton.size) :
    c.expand id place = .ok
      { final := finalWeight (c.left.automaton.final? place.left) (c.right.automaton.final? place.right)
        steps := (chart c.left.automaton c.right.automaton c.plan.operand place).map Prod.snd } := by
  have hlisted := listed_eq h.left_layers h.right_layers id place
  have hpairs : c.pairs c.plan.operand place = .ok
      ((encounters c.left.automaton c.right.automaton c.plan.operand place).map Prod.snd) := by
    cases hop : c.plan.operand with
    | left =>
      have hloop : c.right.loopArc place.right = ⟨noLabel, epsilon, 1, place.right⟩ := by
        simp [Matcher.loopArc, Matcher.matched, h.right_side hop]
      rw [pairs, Automaton.findArcs_eq hl]
      refine (mapM_find_eq h.right_reliable .output (h.right_side hop) h.right_layers hr
        ⟨epsilon, noLabel, 1, place.left⟩ rfl
        (fun x hx => h.left_ne x (Array.mem_toList_iff.1 hx)) Prod.mk).trans ?_
      rw [hloop]
      rfl
    | right =>
      have hloop : c.left.loopArc place.left = ⟨epsilon, noLabel, 1, place.left⟩ := by
        simp [Matcher.loopArc, Matcher.matched, h.left_side hop]
      rw [pairs, Automaton.findArcs_eq hr]
      refine (mapM_find_eq h.left_reliable .input (h.left_side hop) h.left_layers hl
        ⟨noLabel, epsilon, 1, place.right⟩ rfl
        (fun x hx => h.right_ne x (Array.mem_toList_iff.1 hx)) fun x y => (y, x)).trans ?_
      rw [hloop, encounters, List.map_map]
      rfl
  rw [expand, Automaton.findFinal_eq hl, Automaton.findFinal_eq hr, Automaton.findArcs_eq hl, hlisted]
  simp only [bind, Except.bind, pure, Except.pure, hpairs]
  rw [map_snd_chart]
  rfl

end Transducer.Composition
