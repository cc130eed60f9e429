import Mathlib
import Transducer.Proofs.Path.Accepting
import Transducer.Proofs.Weight.Semiring

/-!
# Sums over accepting paths

`PathSum` says that finitely many accepting paths carry some label pairs, and what their weights add up to. It is
defined by a list that has each of these paths once, so that no path is counted twice and none is left out. `SumOver`
says this of the paths that have any property.

A path stays where it starts, or goes on along the arc at some position of its first state. The sum over the paths
from a state is therefore that of what the paths from the targets of its arcs add up to (`PathSum.step`). It exists for
all states if the states have ranks that become less along epsilon arcs (`exists_pathSum`): every other arc takes away
one of the label pairs.
-/

namespace Transducer

open scoped LawfulSemiring

variable {W : Type} {labels : List (Label × Label)}

/-! ### What is left to carry -/

/-- What is left to be carried after an arc, if the arc may come first. -/
def left? (arc : Arc W) (labels : List (Label × Label)) : Option (List (Label × Label)) :=
  if arc.isEpsilon then some labels
  else match labels with
    | [] => none
    | pair :: rest => if (arc.ilabel, arc.olabel) = pair then some rest else none

theorem left?_of_epsilon {arc : Arc W} (h : arc.isEpsilon = true) : left? arc labels = some labels := if_pos h

theorem carried_cons_eq_iff {arc : Arc W} {arcs : List (Arc W)} :
    carried (arc :: arcs) = labels ↔ left? arc labels = some (carried arcs) := by
  cases he : arc.isEpsilon with
  | true => rw [carried_cons_of_epsilon he, left?_of_epsilon he, Option.some.injEq, eq_comm]
  | false =>
    rw [carried_cons_of_not_epsilon he, left?.eq_def, he, if_neg Bool.false_ne_true]
    cases labels with
    | nil => exact ⟨nofun, nofun⟩
    | cons pair rest =>
      dsimp only
      split
      · next h => rw [List.cons.injEq, Option.some.injEq, h, eq_self_iff_true, true_and, eq_comm]
      · next h => exact iff_of_false (fun heq => h (List.cons.inj heq).1) nofun

/-- Epsilon arcs leave everything to be carried, and other arcs leave less. -/
theorem eq_or_length_lt_of_left? {arc : Arc W} {rest : List (Label × Label)} (h : left? arc labels = some rest) :
    arc.isEpsilon = true ∧ rest = labels ∨ rest.length < labels.length := by
  cases he : arc.isEpsilon with
  | true =>
    rw [left?_of_epsilon he] at h
    exact .inl ⟨rfl, (Option.some.inj h).symm⟩
  | false =>
    rw [left?.eq_def, he, if_neg Bool.false_ne_true] at h
    split at h
    · cases h
    · split at h
      · cases h
        exact .inr (Nat.lt_succ_self _)
      · cases h

namespace Automaton

variable {a b : Automaton W} {s t : Nat}

/-! ### Paths from a state -/

/-- The automaton with another start. -/
def startingAt (a : Automaton W) (s : Nat) : Automaton W := { a with start := some s }

theorem startingAt_eq (h : a.start = some s) : a.startingAt s = a := by
  rw [startingAt, ← h]

namespace AcceptingPath

/-- The path that stays where it starts. -/
def stay {final : W} (h : a.final? s = some final) : AcceptingPath (a.startingAt s) where
  first := s
  places := []
  arcs := []
  last := s
  final := final
  start_eq := rfl
  way := .nil s
  final_eq := h

/-- The path that takes an arc of the state before it goes on as another one. -/
def cons (i : Fin (a.arcsAt s).size) (p : AcceptingPath (a.startingAt (a.arcsAt s)[i].target)) :
    AcceptingPath (a.startingAt s) where
  first := s
  places := i :: p.places
  arcs := (a.arcsAt s)[i] :: p.arcs
  last := p.last
  final := p.final
  start_eq := rfl
  way := .cons (Array.getElem?_eq_getElem i.isLt)
    (p.first_eq (s := (a.arcsAt s)[i].target) rfl ▸ p.way.of_states_eq (b := a.startingAt s) rfl)
  final_eq := p.final_eq

theorem cons_injective (i : Fin (a.arcsAt s).size) : Function.Injective (cons i) :=
  fun _ _ h => ext_places (List.cons.inj (congrArg places h)).2

/-- A path stays, or takes an arc. -/
theorem stay_or_cons (p : AcceptingPath (a.startingAt s)) :
    (∃ final, ∃ h : a.final? s = some final, p = stay h) ∨ ∃ i q, p = cons i q := by
  obtain ⟨first, places, arcs, last, final, hfirst, hway, hfinal⟩ := p
  obtain rfl : s = first := Option.some.inj hfirst
  cases hway with
  | nil => exact .inl ⟨final, hfinal, rfl⟩
  | @cons _ i _ arc places arcs hi hway =>
    obtain ⟨hlt, rfl⟩ := Array.getElem?_eq_some_iff.1 hi
    exact .inr ⟨⟨i, hlt⟩, ⟨_, places, arcs, last, final, rfl, hway.of_states_eq rfl, hfinal⟩, rfl⟩

/-- The paths that take an arc, by what may come after each arc. -/
def viaArcs (after : (i : Fin (a.arcsAt s).size) → List (AcceptingPath (a.startingAt (a.arcsAt s)[i].target))) :
    List (AcceptingPath (a.startingAt s)) :=
  (List.finRange _).flatMap fun i => (after i).map (cons i)

variable {after : (i : Fin (a.arcsAt s).size) → List (AcceptingPath (a.startingAt (a.arcsAt s)[i].target))}

theorem mem_viaArcs {p : AcceptingPath (a.startingAt s)} :
    p ∈ viaArcs after ↔ ∃ i, ∃ q ∈ after i, cons i q = p := by
  simp [viaArcs]

theorem cons_mem_viaArcs {i : Fin (a.arcsAt s).size} {q : AcceptingPath (a.startingAt (a.arcsAt s)[i].target)} :
    cons i q ∈ viaArcs after ↔ q ∈ after i := by
  rw [mem_viaArcs]
  constructor
  · rintro ⟨j, q', hq', heq⟩
    obtain rfl : j = i := Fin.ext (List.cons.inj (congrArg places heq)).1
    rwa [← cons_injective j heq]
  · intro hq
    exact ⟨i, q, hq, rfl⟩

/-- Paths that take different arcs are different. -/
theorem nodup_viaArcs (h : ∀ i, (after i).Nodup) : (viaArcs after).Nodup := by
  refine List.nodup_flatMap.2 ⟨fun i _ => (h i).map (cons_injective i), ?_⟩
  refine (List.nodup_finRange _).imp ?_
  intro i j hne p hp hp'
  obtain ⟨q, -, rfl⟩ := List.mem_map.1 hp
  obtain ⟨q', -, heq⟩ := List.mem_map.1 hp'
  exact hne (Fin.ext (List.cons.inj (congrArg places heq)).1.symm)

end AcceptingPath

/-! ### Sums over some of the paths -/

variable [Weight W] {v w : W} {P Q : AcceptingPath a → Prop}

/-- Finitely many accepting paths have the property, and the sum of their weights is as given. -/
def SumOver (a : Automaton W) (P : AcceptingPath a → Prop) (sum : W) : Prop :=
  ∃ paths : List (AcceptingPath a), paths.Nodup ∧ (∀ p, p ∈ paths ↔ P p) ∧ (paths.map (·.weight)).sum = sum

namespace SumOver

theorem congr (h : a.SumOver P v) (hiff : ∀ p, P p ↔ Q p) : a.SumOver Q v := by
  rwa [← funext fun p => propext (hiff p)]

theorem none (h : ∀ p, ¬P p) : a.SumOver P 0 :=
  ⟨[], .nil, fun p => iff_of_false List.not_mem_nil (h p), rfl⟩

/-- Paths that correspond to each other, with the same weights, have the same sum. -/
theorem transport {R : AcceptingPath b → Prop} (h : a.SumOver P v) (f : ∀ p, P p → AcceptingPath b)
    (hmem : ∀ q, R q ↔ ∃ p hp, f p hp = q) (hinj : ∀ p hp p' hp', f p hp = f p' hp' → p = p')
    (hweight : ∀ p hp, (f p hp).weight = p.weight) : b.SumOver R v := by
  obtain ⟨paths, hnodup, hpaths, hsum⟩ := h
  have hall : ∀ p ∈ paths, P p := fun p => (hpaths p).1
  refine ⟨paths.pmap f hall, hnodup.pmap fun p hp p' hp' => hinj p hp p' hp', fun q => ?_, ?_⟩
  · rw [List.mem_pmap, hmem]
    constructor
    · rintro ⟨p, hp, rfl⟩
      exact ⟨p, hall p hp, rfl⟩
    · rintro ⟨p, hp, rfl⟩
      exact ⟨p, (hpaths p).2 hp, rfl⟩
  · rw [List.map_pmap, ← hsum, ← List.pmap_eq_map (H := hall)]
    exact congrArg List.sum (List.pmap_congr_left paths fun p _ hp _ => hweight p hp)

/-- Some of the paths are the images of others, with the same weights. -/
theorem image {R : AcceptingPath b → Prop} {f : AcceptingPath a → AcceptingPath b} (h : a.SumOver (fun p => R (f p)) v)
    (hinj : Function.Injective f) (hweight : ∀ p, (f p).weight = p.weight) :
    b.SumOver (fun q => R q ∧ ∃ p, f p = q) v := by
  refine h.transport (fun p _ => f p) (fun q => ?_) (fun _ _ _ _ heq => hinj heq) fun p _ => hweight p
  constructor
  · rintro ⟨hq, p, rfl⟩
    exact ⟨p, hq, rfl⟩
  · rintro ⟨p, hp, rfl⟩
    exact ⟨hp, p, rfl⟩

variable [LawfulSemiring W]

theorem single (p : AcceptingPath a) : a.SumOver (· = p) p.weight :=
  ⟨[p], List.nodup_singleton p, fun _ => List.mem_singleton, List.sum_singleton⟩

/-- The order in which the paths are added up does not matter. -/
theorem unique (hv : a.SumOver P v) (hw : a.SumOver P w) : v = w := by
  obtain ⟨paths, hnodup, hmem, rfl⟩ := hv
  obtain ⟨others, hnodup', hmem', rfl⟩ := hw
  have hperm : paths.Perm others := (List.perm_ext_iff_of_nodup hnodup hnodup').2 fun p => by rw [hmem, hmem']
  exact (hperm.map _).sum_eq

theorem add (hv : a.SumOver P v) (hw : a.SumOver Q w) (hapart : ∀ p, P p → ¬Q p) :
    a.SumOver (fun p => P p ∨ Q p) (v + w) := by
  obtain ⟨paths, hnodup, hmem, rfl⟩ := hv
  obtain ⟨others, hnodup', hmem', rfl⟩ := hw
  refine ⟨paths ++ others, ?_, fun p => by rw [List.mem_append, hmem, hmem'], ?_⟩
  · refine List.nodup_append.2 ⟨hnodup, hnodup', ?_⟩
    rintro p hp _ hp' rfl
    exact hapart p ((hmem p).1 hp) ((hmem' p).1 hp')
  · rw [List.map_append, List.sum_append]

/-- A sum is taken apart by another property. -/
theorem split (h : a.SumOver P v) (Q : AcceptingPath a → Prop) :
    ∃ v₁ v₂, a.SumOver (fun p => P p ∧ Q p) v₁ ∧ a.SumOver (fun p => P p ∧ ¬Q p) v₂ ∧ v = v₁ + v₂ := by
  classical
  obtain ⟨paths, hnodup, hmem, rfl⟩ := h
  refine ⟨_, _, ⟨paths.filter fun p => Q p, hnodup.filter _, fun p => ?_, rfl⟩,
    ⟨paths.filter fun p => !decide (Q p), hnodup.filter _, fun p => ?_, rfl⟩, ?_⟩
  · rw [List.mem_filter, hmem, decide_eq_true_iff]
  · rw [List.mem_filter, hmem, Bool.not_eq_true', decide_eq_false_iff_not]
  · rw [← List.sum_append, ← List.map_append]
    exact ((List.filter_append_perm _ paths).map _).sum_eq.symm

end SumOver

/-! ### Sums over the paths that carry some label pairs -/

/-- What comes after an arc, by the sums over the paths from the states. -/
def sumAfter (sums : List (Label × Label) → Nat → W) (labels : List (Label × Label)) (arc : Arc W) : W :=
  ((left? arc labels).map (sums · arc.target)).getD 0

theorem sumAfter_congr {sums sums' : List (Label × Label) → Nat → W} {arc : Arc W}
    (h : ∀ rest, left? arc labels = some rest → sums rest arc.target = sums' rest arc.target) :
    sumAfter sums labels arc = sumAfter sums' labels arc := by
  unfold sumAfter
  cases hleft : left? arc labels with
  | none => rfl
  | some rest => exact h rest hleft

/-- Finitely many accepting paths carry the label pairs, and the sum of their weights is as given. -/
def PathSum (a : Automaton W) (labels : List (Label × Label)) (sum : W) : Prop :=
  ∃ paths : List (AcceptingPath a), paths.Nodup ∧ (∀ p, p ∈ paths ↔ carried p.arcs = labels) ∧
    (paths.map (·.weight)).sum = sum

/-- Without a start there are no paths. -/
theorem pathSum_of_start_eq_none (h : a.start = none) (labels : List (Label × Label)) : a.PathSum labels 0 :=
  SumOver.none fun p => by cases h.symm.trans p.start_eq

/-- Automata whose paths correspond to each other have the same sums. -/
theorem PathSum.congr (e : AcceptingPath a ≃ AcceptingPath b) (he : ∀ p, (e p).content = p.content)
    (h : a.PathSum labels w) : b.PathSum labels w := by
  have hcarried : ∀ p, carried (e p).arcs = carried p.arcs := fun p => carried_congr (Prod.mk.inj (he p)).1
  have hsum : a.SumOver (fun p => carried (e p).arcs = labels) w :=
    SumOver.congr h fun p => by rw [hcarried]
  refine (hsum.image (R := fun q => carried q.arcs = labels) e.injective fun p =>
    AcceptingPath.weight_congr (he p)).congr fun q => ?_
  exact and_iff_left (e.surjective q)

variable [LawfulSemiring W]

theorem PathSum.unique (hv : a.PathSum labels v) (hw : a.PathSum labels w) : v = w := SumOver.unique hv hw

/-- What the path that stays contributes. -/
def ownWeight (a : Automaton W) (labels : List (Label × Label)) (s : Nat) : W :=
  if labels = [] then (a.final? s).getD 0 else 0

theorem exists_own_paths (a : Automaton W) (labels : List (Label × Label)) (s : Nat) :
    ∃ paths : List (AcceptingPath (a.startingAt s)), paths.Nodup ∧
      (∀ p, p ∈ paths ↔ p.arcs = [] ∧ carried p.arcs = labels) ∧
      (paths.map (·.weight)).sum = a.ownWeight labels s := by
  by_cases h : labels = [] ∧ (a.final? s).isSome
  · obtain ⟨rfl, hsome⟩ := h
    obtain ⟨final, hfinal⟩ := Option.isSome_iff_exists.1 hsome
    refine ⟨[.stay hfinal], List.nodup_singleton _, ?_, ?_⟩
    · intro p
      rw [List.mem_singleton]
      constructor
      · rintro rfl
        exact ⟨rfl, rfl⟩
      · rintro ⟨hnil, -⟩
        obtain ⟨final, hstay, rfl⟩ | ⟨i, q, rfl⟩ := p.stay_or_cons
        · exact AcceptingPath.ext_places rfl
        · cases hnil
    · rw [ownWeight, if_pos rfl, hfinal]
      exact List.sum_singleton
  · refine ⟨[], .nil, ?_, ?_⟩
    · intro p
      refine iff_of_false List.not_mem_nil ?_
      rintro ⟨hnil, hcarried⟩
      obtain ⟨final, hstay, rfl⟩ | ⟨i, q, rfl⟩ := p.stay_or_cons
      · exact h ⟨hcarried.symm, by rw [hstay]; rfl⟩
      · cases hnil
    · rw [not_and, Option.isSome_iff_ne_none, not_not] at h
      rw [ownWeight]
      split
      · next hlabels => rw [h hlabels]; rfl
      · rfl

theorem sum_viaArcs
    (after : (i : Fin (a.arcsAt s).size) → List (AcceptingPath (a.startingAt (a.arcsAt s)[i].target)))
    {sum : Arc W → W} (hsum : ∀ i, ((after i).map (·.weight)).sum = sum (a.arcsAt s)[i]) :
    ((AcceptingPath.viaArcs after).map (·.weight)).sum =
      ((a.arcsAt s).toList.map fun arc => arc.weight * sum arc).sum := by
  have hweight : ∀ i, (((after i).map (.cons i)).map (AcceptingPath.weight (a := a.startingAt s))).sum =
      (a.arcsAt s)[i].weight * sum (a.arcsAt s)[i] := by
    intro i
    rw [← hsum, ← List.sum_map_mul_left, List.map_map]
    rfl
  have hlist : (a.arcsAt s).toList.map (fun arc => arc.weight * sum arc) =
      (List.finRange _).map fun i : Fin (a.arcsAt s).size => (a.arcsAt s)[i].weight * sum (a.arcsAt s)[i] := by
    rw [← List.ofFn_eq_map]
    exact (List.ofFn_getElem_eq_map (a.arcsAt s).toList _).symm
  rw [AcceptingPath.viaArcs, List.map_flatMap, List.flatMap, List.sum_flatten, List.map_map, hlist]
  exact congrArg List.sum (List.map_congr_left fun i _ => hweight i)

/-- The sum over the paths from a state is that of what the path that stays contributes and of the sums over the paths
from the targets of its arcs, each times the weight of the arc. -/
theorem PathSum.step {sum : Arc W → W}
    (hnone : ∀ arc ∈ a.arcsAt s, left? arc labels = none → sum arc = 0)
    (hsome : ∀ arc ∈ a.arcsAt s, ∀ rest, left? arc labels = some rest →
      (a.startingAt arc.target).PathSum rest (sum arc)) :
    (a.startingAt s).PathSum labels
      (a.ownWeight labels s + ((a.arcsAt s).toList.map fun arc => arc.weight * sum arc).sum) := by
  have harc : ∀ i : Fin (a.arcsAt s).size,
      ∃ paths : List (AcceptingPath (a.startingAt (a.arcsAt s)[i].target)), paths.Nodup ∧
        (∀ q, q ∈ paths ↔ left? (a.arcsAt s)[i] labels = some (carried q.arcs)) ∧
        (paths.map (·.weight)).sum = sum (a.arcsAt s)[i] := by
    intro i
    have hmem : (a.arcsAt s)[i] ∈ a.arcsAt s := Array.getElem_mem i.isLt
    cases hleft : left? (a.arcsAt s)[i] labels with
    | none => exact ⟨[], .nil, fun q => iff_of_false List.not_mem_nil nofun, (hnone _ hmem hleft).symm⟩
    | some rest =>
      obtain ⟨paths, hnodup, hpaths, hsum⟩ := hsome _ hmem rest hleft
      exact ⟨paths, hnodup, fun q => by rw [hpaths, Option.some.injEq, eq_comm], hsum⟩
  choose after hnodup hafter hsum using harc
  have hown : (a.startingAt s).SumOver (fun p => p.arcs = [] ∧ carried p.arcs = labels) (a.ownWeight labels s) :=
    a.exists_own_paths labels s
  have hvia : (a.startingAt s).SumOver (· ∈ AcceptingPath.viaArcs after)
      ((a.arcsAt s).toList.map fun arc => arc.weight * sum arc).sum :=
    ⟨_, AcceptingPath.nodup_viaArcs hnodup, fun _ => .rfl, sum_viaArcs after hsum⟩
  refine (hown.add hvia ?_).congr fun p => ?_
  · rintro p ⟨hnil, -⟩ hmem
    obtain ⟨i, q, -, rfl⟩ := AcceptingPath.mem_viaArcs.1 hmem
    cases hnil
  · obtain ⟨final, hstay, rfl⟩ | ⟨i, q, rfl⟩ := p.stay_or_cons
    · refine ⟨?_, fun h => .inl ⟨rfl, h⟩⟩
      rintro (⟨-, h⟩ | hmem)
      · exact h
      · obtain ⟨i, q, -, heq⟩ := AcceptingPath.mem_viaArcs.1 hmem
        cases congrArg AcceptingPath.places heq
    · rw [AcceptingPath.cons_mem_viaArcs, hafter, ← carried_cons_eq_iff]
      refine ⟨?_, .inr⟩
      rintro (⟨hnil, -⟩ | h)
      · cases hnil
      · exact h

/-- The sums over the paths from the states exist if the states can be ranked such that epsilon arcs lead to states of
less rank. -/
theorem exists_pathSum (rank : Nat → Nat)
    (hrank : ∀ {s : Nat} {arc : Arc W}, arc ∈ a.arcsAt s → arc.isEpsilon = true → rank arc.target < rank s)
    (labels : List (Label × Label)) (s : Nat) : ∃ w, (a.startingAt s).PathSum labels w := by
  have hafter : ∀ arc ∈ a.arcsAt s, ∃ w, (left? arc labels = none → w = 0) ∧
      ∀ rest, left? arc labels = some rest → (a.startingAt arc.target).PathSum rest w := by
    intro arc harc
    cases hleft : left? arc labels with
    | none => exact ⟨0, fun _ => rfl, nofun⟩
    | some rest =>
      obtain ⟨w, hw⟩ := exists_pathSum rank hrank rest arc.target
      exact ⟨w, nofun, fun rest' heq => Option.some.inj heq ▸ hw⟩
  have : Nonempty W := ⟨0⟩
  choose! after hnone hsome using hafter
  exact ⟨_, .step hnone hsome⟩
termination_by (labels.length, rank s)
decreasing_by
  rcases eq_or_length_lt_of_left? hleft with ⟨he, rfl⟩ | hlt
  · exact .right _ (hrank harc he)
  · exact .left _ _ hlt

/-- The sums over the paths from the states are made up of each other. -/
theorem pathSum_eq {sums : List (Label × Label) → Nat → W}
    (hsums : ∀ labels s, (a.startingAt s).PathSum labels (sums labels s)) (labels : List (Label × Label)) (s : Nat) :
    sums labels s = a.ownWeight labels s +
      ((a.arcsAt s).toList.map fun arc => arc.weight * sumAfter sums labels arc).sum := by
  refine (hsums labels s).unique (.step ?_ ?_)
  · intro arc _ hleft
    rw [sumAfter, hleft]
    rfl
  · intro arc _ rest hleft
    rw [sumAfter, hleft]
    exact hsums rest arc.target

end Automaton

end Transducer
