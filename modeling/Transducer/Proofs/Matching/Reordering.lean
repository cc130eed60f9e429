import Mathlib
import Transducer.Proofs.Automaton.Sorting
import Transducer.Proofs.Matching.Build

/-!
# Matching reordered arcs

Where the arcs of the states stand in another order, a matcher finds the same arcs in another order, or it is refused
for the same reason (`Reorders.shuffles_find`), whatever its layers are. Whether it searches or lists the arcs is no
part of that: sorted arcs are searched, others are listed.

No layer asks for more than whether something was found, how much, and by which arc if by a single one; and none of
that depends on the order.
-/

namespace Transducer.Matcher

open Matching

variable {W : Type}

/-! ### Lookups that differ in the order -/

/-- Both lookups find the same in whatever order, or are refused for the same reason. -/
inductive Shuffles {α : Type} : Except Error (List α) → Except Error (List α) → Prop where
  | found {xs ys : List α} : ys.Perm xs → Shuffles (.ok xs) (.ok ys)
  | refused (e : Error) : Shuffles (.error e) (.error e)

theorem Shuffles.bind {α : Type} {x x' : Except Error (List α)} {next next' : List α → Except Error (List α)}
    (h : Shuffles x x') (hnext : ∀ {xs ys : List α}, ys.Perm xs → Shuffles (next xs) (next' ys)) :
    Shuffles (x >>= next) (x' >>= next') := by
  cases h with
  | found hperm => exact hnext hperm
  | refused e => exact .refused e

theorem Shuffles.exists_of_ok {α : Type} {x x' : Except Error (List α)} (h : Shuffles x x') {xs : List α}
    (hx : x = .ok xs) : ∃ ys, x' = .ok ys ∧ ys.Perm xs := by
  subst hx
  cases h with
  | found hperm => exact ⟨_, rfl, hperm⟩

/-- Both automata have the arcs of a state, or are refused for it in the same way. -/
theorem findArcs_cases {a a' : Automaton W} (h : a.Reorders a') (s : Nat) :
    (s < a.size ∧ a.findArcs s = .ok (a.arcsAt s) ∧ a'.findArcs s = .ok (a'.arcsAt s)) ∨
      ∃ e, a.findArcs s = .error e ∧ a'.findArcs s = .error e := by
  by_cases hs : s < a.size
  · exact .inl ⟨hs, Automaton.findArcs_eq hs, Automaton.findArcs_eq (h.size_eq ▸ hs)⟩
  · have hnone : a.states[s]? = none := Array.getElem?_eq_none (Nat.le_of_not_lt hs)
    have hnone' : a'.states[s]? = none := Array.getElem?_eq_none (h.size_eq.trans_le (Nat.le_of_not_lt hs))
    refine .inr ⟨.invalidState s a.size, ?_, ?_⟩
    · rw [Automaton.findArcs, Automaton.findState, hnone]
      rfl
    · rw [Automaton.findArcs, Automaton.findState, hnone', h.size_eq]
      rfl

/-- The matchers look up labels in the same way, in automata that are the same but for the order of arcs. -/
structure Reorders (m m' : Matcher W) : Prop where
  automaton : m.automaton.Reorders m'.automaton
  side_eq : m'.side = m.side
  layers_eq : m'.layers = m.layers
  phiLoop_eq : m'.phiLoop = m.phiLoop
  substituteBoth_eq : m'.substituteBoth = m.substituteBoth
  reliable : m.Reliable
  reliable' : m'.Reliable

section

variable {m m' : Matcher W}

theorem Reorders.symm (h : m.Reorders m') : m'.Reorders m :=
  ⟨h.automaton.symm, h.side_eq.symm, h.layers_eq.symm, h.phiLoop_eq.symm, h.substituteBoth_eq.symm, h.reliable',
    h.reliable⟩

theorem Reorders.matched_eq (h : m.Reorders m') : m'.matched = m.matched := by
  rw [matched, matched, h.side_eq]

theorem Reorders.substitute_eq (h : m.Reorders m') : m'.substitute = m.substitute := by
  funext special label arc
  simp only [substitute, h.matched_eq, h.substituteBoth_eq]

theorem Reorders.matching_perm (h : m.Reorders m') (s : Nat) (label : Label) :
    (m'.matching s label).Perm (m.matching s label) := by
  rw [matching, matching, h.matched_eq]
  exact (h.automaton.arcsAt_perm s).filter _

theorem Reorders.hasSpecialArcs_eq (h : m.Reorders m') (s : Nat) : m'.hasSpecialArcs s = m.hasSpecialArcs s := by
  have hspecial : m'.isSpecial = m.isSpecial := by
    funext arc
    rw [isSpecial, isSpecial, h.layers_eq, h.matched_eq]
  rw [hasSpecialArcs, hasSpecialArcs, hasLayers, hasLayers, h.layers_eq, hspecial]
  obtain ⟨-, hfound, hfound'⟩ | ⟨e, hrefused, hrefused'⟩ := findArcs_cases h.automaton s
  · rw [hfound, hfound', Except.map, Except.map, h.automaton.any_eq]
  · rw [hrefused, hrefused']

variable [Weight W]

theorem Reorders.exactMatches_perm (h : m.Reorders m') (s : Nat) (label : Label) :
    (m'.exactMatches s label).Perm (m.exactMatches s label) := by
  have hloop : m'.loopArc s = m.loopArc s := by rw [loopArc, loopArc, h.matched_eq]
  rw [exactMatches, exactMatches, hloop]
  split
  · exact (h.matching_perm s epsilon).cons _
  · exact h.matching_perm s _

theorem Reorders.shuffles_findExact (h : m.Reorders m') (s : Nat) (label : Label) :
    Shuffles (m.findExact s label) (m'.findExact s label) := by
  obtain ⟨hs, -, -⟩ | ⟨e, hrefused, hrefused'⟩ := findArcs_cases h.automaton s
  · rw [findExact_eq h.reliable hs, findExact_eq h.reliable' (h.automaton.size_eq ▸ hs)]
    exact .found (h.exactMatches_perm s label)
  · rw [findExact, findExact, hrefused, hrefused']
    exact .refused e

/-! ### Layers -/

theorem Reorders.shuffles_followPhi (h : m.Reorders m') {inner inner' : Nat → Label → Except Error (List (Arc W))}
    (hinner : ∀ s label, Shuffles (inner s label) (inner' s label)) (phi label : Label) (bound : Nat)
    (visited : List Nat) (s : Nat) (weight : W) :
    Shuffles (m.followPhi inner phi label bound visited s weight)
      (m'.followPhi inner' phi label bound visited s weight) := by
  induction bound generalizing visited s weight with
  | zero => exact .found (.refl _)
  | succ bound ih =>
    refine (hinner s label).bind fun {found found'} hfound => ?_
    rw [hfound.isEmpty_eq]
    split
    · refine (hinner s phi).bind fun {phis phis'} hphis => ?_
      match phis with
      | [] =>
        obtain rfl := hphis.eq_nil
        exact .found (.refl _)
      | [arc] =>
        obtain rfl := List.perm_singleton.1 hphis
        simp only [h.phiLoop_eq, h.substitute_eq]
        split
        · exact .found (.refl _)
        · split
          · exact .found (.refl _)
          · exact ih _ _ _
      | x :: y :: rest =>
        match phis', hphis.length_eq with
        | x' :: y' :: rest', hlength =>
          show Shuffles (.error (.config (.ambiguousFailure s _ phi))) (.error (.config (.ambiguousFailure s _ phi)))
          rw [hlength]
          exact .refused _
    · exact .found (hfound.map _)

theorem Reorders.shuffles_findLayers (h : m.Reorders m') (layers : List Layer) (s : Nat) (label : Label) :
    Shuffles (m.findLayers layers s label) (m'.findLayers layers s label) := by
  induction layers generalizing s label with
  | nil => exact h.shuffles_findExact s label
  | cons layer inner ih =>
    rw [findLayers, findLayers]
    split
    · exact ih s label
    split
    · exact .refused _
    have hwild : ∀ {wild wild' : List (Arc W)}, wild'.Perm wild →
        (wild'.map (m'.substitute layer.label label)).Perm (wild.map (m.substitute layer.label label)) :=
      fun hperm => h.substitute_eq ▸ hperm.map _
    cases layer.kind with
    | sigma =>
      refine (ih s label).bind fun hfound => (ih s layer.label).bind fun hperm => ?_
      exact .found (hfound.append (hwild hperm))
    | rho =>
      refine (ih s label).bind fun hfound => ?_
      rw [hfound.isEmpty_eq]
      split
      · exact (ih s layer.label).bind fun hperm => .found (hwild hperm)
      · exact .found hfound
    | phi =>
      rw [h.automaton.size_eq]
      exact h.shuffles_followPhi ih layer.label label _ _ _ _

/-- In reordered automata the same is found, but for the order, or the lookup is refused for the same reason. -/
theorem Reorders.shuffles_find (h : m.Reorders m') (s : Nat) (label : Label) :
    Shuffles (m.find s label) (m'.find s label) := by
  rw [find, find, h.side_eq, h.layers_eq]
  split
  · exact .refused _
  · exact h.shuffles_findLayers m.layers s label

theorem reorders_of (config : Config) {a a' : Automaton W} (h : a.Reorders a') :
    (of config a).Reorders (of config a') where
  automaton := h
  side_eq := rfl
  layers_eq := rfl
  phiLoop_eq := rfl
  substituteBoth_eq := by
    have hacceptor : a'.decides .acceptor = a.decides .acceptor := h.allArcs_eq _
    simp only [of, hacceptor]
  reliable := reliable_of config a
  reliable' := reliable_of config a'

end

end Transducer.Matcher
