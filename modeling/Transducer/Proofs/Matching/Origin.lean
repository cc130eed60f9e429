import Mathlib
import Transducer.Proofs.Matching.Usable

/-!
# Where what is found comes from

What a matcher finds for an ordinary label has that label, and stands for an arc of the automaton with the same
target. That arc has the label, too, or it has the label of a layer, which took its place (`StandsFor`). It may
leave another state than the one that was asked, since phi arcs are followed, but the implicit arc is never among
what is found. The implicit arc answers for epsilon only (`answers_of_find`).
-/

namespace Transducer.Matcher

open Matching

variable {W : Type} {m : Matcher W} {s : Nat} {label : Label} {arc : Arc W}

@[simp] theorem label_substitute (m : Matcher W) (special label : Label) (arc : Arc W) :
    (m.substitute special label arc).label m.matched = label := by
  unfold substitute
  dsimp only
  split
  · rw [Arc.label_withLabel_other, Arc.label_withLabel_self]
  · rw [Arc.label_withLabel_self]

/-- The arc has the label on the given side, and stands for an arc of the automaton that has the label, too, or that
of a layer. -/
structure StandsFor (a : Automaton W) (side : Side) (layers : List Layer) (label : Label) (arc : Arc W) : Prop where
  label_eq : arc.label side = label
  exists_origin : ∃ s, ∃ origin ∈ a.arcsAt s, origin.target = arc.target ∧
    (origin.label side = label ∨ origin.label side ∈ specials layers)

/-- The arc stands for an arc of the automaton of the matcher. -/
abbrev Stands (m : Matcher W) (label : Label) (arc : Arc W) : Prop :=
  StandsFor m.automaton m.matched m.layers label arc

theorem stands_of_mem (harc : arc ∈ m.automaton.arcsAt s) (hlabel : arc.label m.matched = label) :
    m.Stands label arc :=
  ⟨hlabel, s, arc, harc, rfl, .inl hlabel⟩

/-- What stands for an arc under the label of a layer stands for one under every label. -/
theorem Stands.substitute {special : Label} (hspecial : special ∈ specials m.layers) (h : m.Stands special arc)
    (label : Label) : m.Stands label (m.substitute special label arc) := by
  obtain ⟨-, s, origin, hmem, htarget, horigin⟩ := h
  refine ⟨label_substitute .., s, origin, hmem, htarget.trans (target_substitute ..).symm, .inr ?_⟩
  rcases horigin with rfl | horigin
  · exact hspecial
  · exact horigin

/-- A state with no special arcs has no arc with the label of a layer. -/
theorem not_mem_specials_of_hasSpecialArcs (h : m.hasSpecialArcs s = .ok false) (harc : arc ∈ m.automaton.arcsAt s) :
    arc.label m.matched ∉ specials m.layers := by
  intro hspecial
  obtain ⟨layer, hlayer, heq⟩ := List.mem_map.1 hspecial
  have hlayers : m.hasLayers = true := by
    rw [hasLayers, List.isEmpty_eq_false_iff.2 (List.ne_nil_of_mem hlayer)]
    rfl
  rw [hasSpecialArcs, if_pos hlayers, Automaton.findArcs_eq (Automaton.lt_size_of_mem harc)] at h
  have hnone := Except.ok.inj h
  rw [Array.any_eq_false'] at hnone
  exact hnone arc harc (List.any_eq_true.2 ⟨layer, hlayer, beq_iff_eq.2 heq⟩)

variable [Weight W]

theorem Stands.after (weight : W) (h : m.Stands label arc) : m.Stands label (after weight arc) := by
  refine ⟨Eq.trans ?_ h.label_eq, h.exists_origin⟩
  cases m.matched <;> rfl

/-! ### Lookups -/

/-- The ways in which an arc can answer for a label at a state. -/
inductive Answers (m : Matcher W) (s : Nat) (label : Label) : Arc W → Prop where
  /-- The implicit arc, for epsilon. -/
  | loop : label = epsilon → Answers m s label (m.loopArc s)
  /-- An epsilon arc of the state, for epsilon or for the label of the implicit arc. -/
  | silent {arc : Arc W} : ¬Proper label → arc ∈ m.automaton.arcsAt s → arc.label m.matched = epsilon →
      Answers m s label arc
  /-- What stands for an arc, for a label that no layer has. -/
  | arc {arc : Arc W} : Proper label → label ∉ specials m.layers → m.Stands label arc → Answers m s label arc

/-- The label of the implicit arc has the epsilon arcs of the state as answers. -/
theorem Answers.of_noLabel (h : m.Answers s noLabel arc) :
    arc ∈ m.automaton.arcsAt s ∧ arc.label m.matched = epsilon := by
  cases h with
  | loop heq => exact absurd heq (by decide)
  | silent _ hmem hsilent => exact ⟨hmem, hsilent⟩
  | arc hproper => exact absurd rfl hproper.2

/-- For every other label an answer is the implicit arc or an epsilon arc, if the label is epsilon, or it stands for
an arc, if no layer has the label. -/
theorem Answers.of_ne (h : m.Answers s label arc) (hne : label ≠ noLabel) :
    (label = epsilon ∧ (arc = m.loopArc s ∨ arc.label m.matched = epsilon)) ∨
      Proper label ∧ label ∉ specials m.layers ∧ m.Stands label arc := by
  cases h with
  | loop heq => exact .inl ⟨heq, .inl rfl⟩
  | silent hnot _ hsilent =>
    refine .inl ⟨?_, .inr hsilent⟩
    by_contra hepsilon
    exact hnot ⟨hepsilon, hne⟩
  | arc hproper hspecial hstands => exact .inr ⟨hproper, hspecial, hstands⟩

section

variable (h : m.Reliable)
include h

/-- Without layers an ordinary label has the arcs as matches that have it. -/
theorem stands_of_findExact (hlabel : Proper label) {found : List (Arc W)}
    (hfound : m.findExact s label = .ok found) (harc : arc ∈ found) : m.Stands label arc := by
  have hs : s < m.automaton.size := (mem_of_findExact hfound harc).1
  rw [findExact_eq h hs, exactMatches_of_ne hlabel.1 hlabel.2] at hfound
  obtain rfl := Except.ok.inj hfound
  obtain ⟨hmem, hlabel⟩ := List.mem_filter.1 harc
  exact stands_of_mem (Array.mem_toList_iff.1 hmem) (beq_iff_eq.1 hlabel)

variable (hproper : ∀ layer ∈ m.layers, Proper layer.label)
include hproper

/-- What is found for an ordinary label stands for an arc. -/
theorem stands_of_findLayers (hlabel : Proper label) {found : List (Arc W)}
    (hfound : m.findLayers m.layers s label = .ok found) (harc : arc ∈ found) : m.Stands label arc := by
  refine forall_of_findLayers (P := fun label arc => Proper label → m.Stands label arc)
    (fun weight hstands hlabel => (hstands hlabel).after weight) (fun hfound arc harc hlabel => ?_)
    (fun layer hlayer label arc hstands _ => ?_) hfound arc harc hlabel
  · exact stands_of_findExact h hlabel hfound harc
  · exact (hstands (hproper layer hlayer)).substitute (List.mem_map_of_mem hlayer) label

/-- All that a matcher finds answers for the label in one of these ways. -/
theorem answers_of_find {found : List (Arc W)} (hfound : m.find s label = .ok found) (harc : arc ∈ found) :
    m.Answers s label arc := by
  have hside : m.side ≠ none := by
    intro hside
    simp [find, hside] at hfound
  rw [find_eq_findLayers hside] at hfound
  by_cases hlabel : Proper label
  · refine .arc hlabel (fun hspecial => ?_) (stands_of_findLayers h hproper hlabel hfound harc)
    obtain ⟨layer, -, -, hrefused⟩ := findLayers_of_mem (m := m) (s := s) hproper hspecial
    cases hrefused.symm.trans hfound
  · rw [findLayers_of_not_proper hlabel] at hfound
    rw [findExact_eq h (mem_of_findExact hfound harc).1] at hfound
    obtain rfl := Except.ok.inj hfound
    have hepsilon : arc ∈ m.matching s epsilon → m.Answers s label arc := by
      intro hmem
      obtain ⟨hmem, heq⟩ := List.mem_filter.1 hmem
      exact .silent hlabel (Array.mem_toList_iff.1 hmem) (beq_iff_eq.1 heq)
    rw [Proper, not_and_or, not_not, not_not] at hlabel
    obtain rfl | rfl := hlabel
    · obtain rfl | harc := List.mem_cons.1 harc
      · exact .loop rfl
      · exact hepsilon harc
    · exact hepsilon harc

end

end Transducer.Matcher
