import Mathlib
import Transducer.Proofs.Except
import Transducer.Proofs.Matching.Exact
import Transducer.Proofs.Path.Accepting

/-!
# Targets of matching arcs

Where the arcs of an automaton stay within it, so do all arcs that a matcher finds, through whatever layers
(`target_lt_of_find`): the implicit arc stays where it is, and layers change labels and weights only, also
where they follow phi arcs to other states.

This is one case of a general rule. What holds of the exact matches, and is kept where a label takes the place of a
special one and where the weight of a way is added, holds of all that is found (`forall_of_findLayers`).
-/

namespace Transducer

variable {W : Type}

namespace Matcher

/-- To select arcs adds none. -/
theorem mem_of_mem_select {m : Matcher W} {arcs : Array (Arc W)} {label : Label} {arc : Arc W}
    (h : arc ∈ m.select arcs label) : arc ∈ arcs := by
  unfold select at h
  split at h
  · dsimp only at h
    rw [Array.toList_extract, List.extract_eq_take_drop] at h
    exact Array.mem_toList_iff.1 (List.mem_of_mem_drop (List.mem_of_mem_take h))
  · exact Array.mem_toList_iff.1 (List.mem_of_mem_filter h)

@[simp] theorem target_substitute (m : Matcher W) (special label : Label) (arc : Arc W) :
    (m.substitute special label arc).target = arc.target := by
  unfold substitute
  dsimp only
  split <;> simp

variable [Weight W]

@[simp] theorem target_loopArc (m : Matcher W) (s : Nat) : (m.loopArc s).target = s := by
  unfold loopArc
  split <;> rfl

/-- The exact lookup finds arcs of the state, and beside them at most the implicit arc. -/
theorem mem_of_findExact {m : Matcher W} {s : Nat} {label : Label} {found : List (Arc W)}
    (hfound : m.findExact s label = .ok found) {arc : Arc W} (harc : arc ∈ found) :
    s < m.automaton.size ∧ (arc = m.loopArc s ∨ arc ∈ m.automaton.arcsAt s) := by
  obtain ⟨arcs, harcs, hfound⟩ := bind_eq_ok.1 hfound
  obtain ⟨hs, rfl⟩ := Automaton.findArcs_eq_ok harcs
  obtain rfl := Except.ok.inj hfound
  refine ⟨hs, ?_⟩
  split at harc
  · rcases List.mem_cons.1 harc with harc | harc
    · exact .inl harc
    · exact .inr (mem_of_mem_select harc)
  · exact .inr (mem_of_mem_select harc)

/-- So does a matcher without layers. -/
theorem mem_of_find {m : Matcher W} (hlayers : m.layers = []) {s : Nat} {label : Label} {found : List (Arc W)}
    (hfound : m.find s label = .ok found) {arc : Arc W} (harc : arc ∈ found) :
    arc = m.loopArc s ∨ arc ∈ m.automaton.arcsAt s := by
  unfold find at hfound
  split at hfound
  · cases hfound
  · rw [hlayers] at hfound
    exact (mem_of_findExact hfound harc).2

/-! ### What holds of all that is found -/

section

variable {m : Matcher W} {P : Label → Arc W → Prop}
  (hafter : ∀ {label : Label} {arc : Arc W} (weight : W), P label arc → P label (after weight arc))
include hafter

/-- What holds of the arcs that are found for a label at each single state, and of a phi arc with the label in place of
its own, holds of the arcs that a search along phi arcs finds for the label. -/
theorem forall_of_followPhi (inner : Nat → Label → Except Error (List (Arc W)))
    (hinner : ∀ {s label found}, inner s label = .ok found → ∀ arc ∈ found, P label arc) {phi label : Label}
    (hsubstitute : ∀ {arc : Arc W}, P phi arc → P label (m.substitute phi label arc)) {bound : Nat}
    {visited : List Nat} {s : Nat} {weight : W} {found : List (Arc W)}
    (hfound : m.followPhi inner phi label bound visited s weight = .ok found) : ∀ arc ∈ found, P label arc := by
  induction bound generalizing visited s weight with
  | zero =>
    obtain rfl := Except.ok.inj hfound
    exact fun arc harc => nomatch harc
  | succ bound ih =>
    obtain ⟨exact, hexact, hfound⟩ := bind_eq_ok.1 hfound
    split at hfound
    · obtain ⟨phis, hphis, hfound⟩ := bind_eq_ok.1 hfound
      split at hfound
      · obtain rfl := Except.ok.inj hfound
        exact fun arc harc => nomatch harc
      · next phiArc =>
        split at hfound
        · obtain rfl := Except.ok.inj hfound
          intro arc harc
          split at harc
          · obtain rfl := List.mem_singleton.1 harc
            exact hsubstitute (hafter weight (hinner hphis phiArc List.mem_cons_self))
          · cases harc
        · split at hfound
          · obtain rfl := Except.ok.inj hfound
            exact fun arc harc => nomatch harc
          · exact ih hfound
      · cases hfound
    · obtain rfl := Except.ok.inj hfound
      intro arc harc
      obtain ⟨arc, hmem, rfl⟩ := List.mem_map.1 harc
      exact hafter weight (hinner hexact arc hmem)

/-- What holds of all exact matches, and of what the layers make of an arc that they found by their own labels, holds of
all that is found. -/
theorem forall_of_findLayers {layers : List Matching.Layer}
    (hexact : ∀ {s label found}, m.findExact s label = .ok found → ∀ arc ∈ found, P label arc)
    (hsubstitute : ∀ layer ∈ layers, ∀ {label : Label} {arc : Arc W}, P layer.label arc →
      P label (m.substitute layer.label label arc)) {s : Nat} {label : Label} {found : List (Arc W)}
    (hfound : m.findLayers layers s label = .ok found) : ∀ arc ∈ found, P label arc := by
  induction layers generalizing s label found with
  | nil => exact hexact hfound
  | cons layer inner ih =>
    obtain ⟨hlayer, hinner⟩ := List.forall_mem_cons.1 hsubstitute
    have hbelow : ∀ {s label found}, m.findLayers inner s label = .ok found → ∀ arc ∈ found, P label arc :=
      fun hfound => ih hinner hfound
    have hwild : ∀ {s found}, m.findLayers inner s layer.label = .ok found →
        ∀ arc ∈ found.map (m.substitute layer.label label), P label arc := by
      intro s found hfound arc harc
      obtain ⟨arc, hmem, rfl⟩ := List.mem_map.1 harc
      exact hlayer (hbelow hfound arc hmem)
    unfold findLayers at hfound
    split at hfound
    · exact hbelow hfound
    split at hfound
    · cases hfound
    split at hfound
    · -- sigma
      obtain ⟨exact, hexact, hfound⟩ := bind_eq_ok.1 hfound
      obtain ⟨wild, hwilds, hfound⟩ := bind_eq_ok.1 hfound
      obtain rfl := Except.ok.inj hfound
      exact List.forall_mem_append.2 ⟨hbelow hexact, hwild hwilds⟩
    · -- rho
      obtain ⟨exact, hexact, hfound⟩ := bind_eq_ok.1 hfound
      split at hfound
      · obtain ⟨wild, hwilds, hfound⟩ := bind_eq_ok.1 hfound
        obtain rfl := Except.ok.inj hfound
        exact hwild hwilds
      · obtain rfl := Except.ok.inj hfound
        exact hbelow hexact
    · -- phi
      exact forall_of_followPhi hafter (m.findLayers inner) hbelow hlayer hfound

end

/-! ### Targets -/

section

variable {m : Matcher W} (h : m.automaton.Confined)
include h

theorem target_lt_of_findExact {s : Nat} {label : Label} {found : List (Arc W)}
    (hfound : m.findExact s label = .ok found) {arc : Arc W} (harc : arc ∈ found) :
    arc.target < m.automaton.size := by
  obtain ⟨hs, rfl | harc⟩ := mem_of_findExact hfound harc
  · rwa [target_loopArc]
  · exact h.target_lt harc

theorem target_lt_of_findLayers {layers : List Matching.Layer} {s : Nat} {label : Label}
    {found : List (Arc W)} (hfound : m.findLayers layers s label = .ok found) {arc : Arc W}
    (harc : arc ∈ found) : arc.target < m.automaton.size :=
  forall_of_findLayers (P := fun _ arc => arc.target < m.automaton.size) (fun _ htarget => htarget)
    (fun hfound _ harc => target_lt_of_findExact h hfound harc)
    (fun _ _ {_ _} htarget => by rwa [target_substitute]) hfound arc harc

/-- What is found leads to a state of the automaton. -/
theorem target_lt_of_find {s : Nat} {label : Label} {found : List (Arc W)} (hfound : m.find s label = .ok found)
    {arc : Arc W} (harc : arc ∈ found) : arc.target < m.automaton.size := by
  unfold find at hfound
  split at hfound
  · cases hfound
  · exact target_lt_of_findLayers h hfound harc

end

/-- A matcher is built for the automaton as it is, beside what is cached. -/
theorem automaton_of_build {config : Matching.Config} {a a' : Automaton W} {m : Matcher W}
    (h : build config a = .ok m a') : ∃ cache, m.automaton = { a with cache } := by
  obtain ⟨side, layers, substitution, phiLoop⟩ := config
  unfold build at h
  split at h
  · cases h
  · -- to ask changes nothing but the cache
    rcases side with _ | _ | _ <;> cases substitution <;> cases h <;> exact ⟨_, rfl⟩

/-- A matcher has the side and the layers of its configuration. -/
theorem config_of_build {config : Matching.Config} {a a' : Automaton W} {m : Matcher W}
    (h : build config a = .ok m a') : m.side = config.side ∧ m.layers = config.layers := by
  obtain ⟨side, layers, substitution, phiLoop⟩ := config
  unfold build at h
  split at h
  · cases h
  · rcases side with _ | _ | _ <;> cases substitution <;> cases h <;> exact ⟨rfl, rfl⟩

end Matcher

end Transducer
