import Mathlib
import Transducer.Proofs.Matching.Layers
import Transducer.Proofs.Matching.Targets

/-!
# Which labels can be looked up

A matcher refuses its special labels: each layer hands a label down before it does anything else, and the layer
whose label it is refuses it (`findLayers_of_mem`).

Layers also ask the layers below them, each for its own label. That is no matter if no two layers have one label:
then every other label can be looked up at every state, as long as there are no phi layers, which refuse states
with several phi arcs (`exists_findLayers_of_nodup`). A configuration that gives two layers one label is not
refused, though. Where nothing matches, the upper one of them asks for the label of the lower one, which refuses it,
whatever label was asked for (`findLayers_of_not_nodup`).
-/

namespace Transducer.Matcher

open Matching

variable {W : Type} [Weight W] {m : Matcher W} {layers : List Layer} {s : Nat} {label : Label}

/-- The labels that some layers give a special meaning, the outermost first. -/
abbrev specials (layers : List Layer) : List Label := layers.map (·.label)

/-- The refusal by a layer of its own label. -/
def refusal (layer : Layer) : Error := .config (.ownLabel layer.kind.name layer.label)

/-- A search along phi arcs first looks up the label at the state where it begins. -/
theorem followPhi_of_error {inner : Nat → Label → Except Error (List (Arc W))} {phi : Label} {bound : Nat}
    {visited : List Nat} {weight : W} {e : Error} (h : inner s label = .error e) :
    m.followPhi inner phi label (bound + 1) visited s weight = .error e := by
  rw [followPhi, h]
  rfl

/-- What the layers below refuse a layer refuses, too. -/
theorem findLayers_cons_of_error {layer : Layer} {inner : List Layer} {e : Error} (hlabel : Proper label)
    (hne : label ≠ layer.label) (h : m.findLayers inner s label = .error e) :
    m.findLayers (layer :: inner) s label = .error e := by
  rw [findLayers, if_neg hlabel.not_passed, if_neg hne]
  cases layer.kind with
  | sigma => simp only [h, bind, Except.bind]
  | rho => simp only [h, bind, Except.bind]
  | phi => exact followPhi_of_error h

/-- Where nothing else matches, a layer asks the layers below it for its own label. -/
theorem findLayers_cons_of_own {layer : Layer} {inner : List Layer} {e : Error} (hlabel : Proper label)
    (hne : label ≠ layer.label) (hnone : m.findLayers inner s label = .ok [])
    (hown : m.findLayers inner s layer.label = .error e) : m.findLayers (layer :: inner) s label = .error e := by
  rw [findLayers, if_neg hlabel.not_passed, if_neg hne]
  cases layer.kind with
  | sigma => simp only [hnone, hown, bind, Except.bind]
  | rho => simp [hnone, hown, bind, Except.bind]
  | phi => simp [followPhi, hnone, hown, bind, Except.bind]

/-! ### Special labels -/

/-- The label of a layer is refused, however deep the layer is in the stack. -/
theorem findLayers_of_mem (hproper : ∀ layer ∈ layers, Proper layer.label) (hlabel : label ∈ specials layers) :
    ∃ layer ∈ layers, layer.label = label ∧ m.findLayers layers s label = .error (refusal layer) := by
  induction layers with
  | nil => cases hlabel
  | cons layer inner ih =>
    obtain ⟨hlayer, hinner⟩ := List.forall_mem_cons.1 hproper
    by_cases heq : label = layer.label
    · subst heq
      refine ⟨layer, List.mem_cons_self, rfl, ?_⟩
      rw [findLayers, if_neg hlayer.not_passed, if_pos rfl]
      rfl
    · have hbelow : label ∈ specials inner := (List.mem_cons.1 hlabel).resolve_left heq
      obtain ⟨lower, hlower, rfl, hrefused⟩ := ih hinner hbelow
      exact ⟨lower, List.mem_cons_of_mem _ hlower, rfl,
        findLayers_cons_of_error (hinner lower hlower) heq hrefused⟩

/-! ### Other labels -/

theorem exists_findExact (hs : s < m.automaton.size) (label : Label) : ∃ found, m.findExact s label = .ok found := by
  rw [findExact, Automaton.findArcs_eq hs]
  exact ⟨_, rfl⟩

/-- Where no two layers have one label and none is a phi layer, every label that is not special can be looked up. -/
theorem exists_findLayers_of_nodup (hkind : ∀ layer ∈ layers, layer.kind ≠ .phi) (hdistinct : (specials layers).Nodup)
    (hs : s < m.automaton.size) (hlabel : label ∉ specials layers) :
    ∃ found, m.findLayers layers s label = .ok found := by
  induction layers generalizing label with
  | nil => exact exists_findExact hs label
  | cons layer inner ih =>
    obtain ⟨hlayer, hkind⟩ := List.forall_mem_cons.1 hkind
    obtain ⟨hown, hdistinct⟩ := List.nodup_cons.1 hdistinct
    obtain ⟨hne, hbelow⟩ := not_or.1 (mt List.mem_cons.2 hlabel)
    obtain ⟨found, hfound⟩ := ih hkind hdistinct hbelow
    -- the layer asks for its own label, which no layer below it has
    obtain ⟨wild, hwild⟩ := ih hkind hdistinct hown
    by_cases hproper : Proper label
    · rw [findLayers, if_neg hproper.not_passed, if_neg hne]
      cases hk : layer.kind with
      | sigma =>
        simp only [hfound, hwild, bind, Except.bind]
        exact ⟨_, rfl⟩
      | rho =>
        simp only [hfound, hwild, bind, Except.bind]
        split <;> exact ⟨_, rfl⟩
      | phi => exact absurd hk hlayer
    · rw [findLayers_of_not_proper hproper]
      exact exists_findExact hs label

/-! ### Special labels that are repeated -/

/-- At a state without arcs only epsilon has a match. -/
theorem findExact_of_bare (hs : s < m.automaton.size) (hbare : m.automaton.arcsAt s = #[]) (hlabel : Proper label) :
    m.findExact s label = .ok [] := by
  have hnone : ∀ label, m.select #[] label = [] := fun label =>
    List.eq_nil_iff_forall_not_mem.2 fun arc harc => Array.not_mem_empty arc (mem_of_mem_select harc)
  rw [findExact, Automaton.findArcs_eq hs, hbare]
  simp only [bind, Except.bind, pure, Except.pure, hnone, if_neg hlabel.1]

/-- Where two layers have one label, every label but the two that pass through the layers is refused at a state
without arcs. -/
theorem findLayers_of_not_nodup (hproper : ∀ layer ∈ layers, Proper layer.label) (hrepeated : ¬(specials layers).Nodup)
    (hs : s < m.automaton.size) (hbare : m.automaton.arcsAt s = #[]) (hlabel : Proper label)
    (hspecial : label ∉ specials layers) : ∃ layer ∈ layers, m.findLayers layers s label = .error (refusal layer) := by
  induction layers with
  | nil => exact absurd List.nodup_nil hrepeated
  | cons layer inner ih =>
    obtain ⟨-, hbelow⟩ := List.forall_mem_cons.1 hproper
    obtain ⟨hne, hinner⟩ := not_or.1 (mt List.mem_cons.2 hspecial)
    by_cases hdistinct : (specials inner).Nodup
    · -- the layers below find nothing, so this one asks for its own label, which it shares with one of them
      have hshared : layer.label ∈ specials inner := by
        by_contra hother
        exact hrepeated (List.nodup_cons.2 ⟨hother, hdistinct⟩)
      obtain ⟨lower, hlower, -, hown⟩ := findLayers_of_mem (m := m) (s := s) hbelow hshared
      have hpropers : ∀ other ∈ label :: specials inner, Proper other :=
        List.forall_mem_cons.2 ⟨hlabel, List.forall_mem_map.2 hbelow⟩
      have hnone : m.findLayers inner s label = .ok [] :=
        findLayers_eq_nil (List.nodup_cons.2 ⟨hinner, hdistinct⟩) hpropers fun other hother =>
          findExact_of_bare hs hbare (hpropers other hother)
      exact ⟨lower, List.mem_cons_of_mem _ hlower, findLayers_cons_of_own hlabel hne hnone hown⟩
    · obtain ⟨lower, hlower, hrefused⟩ := ih hbelow hdistinct hinner
      exact ⟨lower, List.mem_cons_of_mem _ hlower, findLayers_cons_of_error hlabel hne hrefused⟩

/-! ### Configurations -/

section

variable {config : Config} {a a' : Automaton W}

theorem find_eq_findLayers (hside : m.side ≠ none) : m.find s label = m.findLayers m.layers s label := by
  rw [find, if_neg (by simpa using hside)]

/-- A configuration that is not refused has a side, and layers with proper labels only, or it has no layers. -/
theorem layers_of_build (hbuild : build config a = .ok m a') :
    m.side = config.side ∧ m.layers = config.layers ∧ (∀ layer ∈ config.layers, Proper layer.label) ∧
      (config.layers ≠ [] → config.side ≠ none) := by
  obtain ⟨hside, hlayers⟩ := config_of_build hbuild
  obtain ⟨hproper, hnone⟩ := Config.fault?_eq_none_iff.1 (fault?_of_build hbuild)
  exact ⟨hside, hlayers, hproper, mt hnone⟩

/-- With a side, without phi layers and with special labels all of which differ, a matcher looks up every label that is
not special, at every state. Special labels it refuses, whatever its layers. If two layers have one label, it refuses
all labels at a state without arcs, but for epsilon and the label of the implicit arc. -/
theorem exists_find_of_distinct (hbuild : build config a = .ok m a') :
    (config.side ≠ none → (∀ layer ∈ config.layers, layer.kind ≠ .phi) → ∀ {s : Nat}, s < a.size →
      ∀ label ∉ specials config.layers, (Proper label → (specials config.layers).Nodup) →
        ∃ found, m.find s label = .ok found) ∧
    (∀ (s : Nat), ∀ label ∈ specials config.layers,
      ∃ layer ∈ config.layers, layer.label = label ∧ m.find s label = .error (refusal layer)) ∧
    (¬(specials config.layers).Nodup → ∀ {s : Nat}, s < a.size → a.arcsAt s = #[] →
      ∀ label ∉ specials config.layers, Proper label →
        ∃ layer ∈ config.layers, m.find s label = .error (refusal layer)) := by
  obtain ⟨hside, hlayers, hproper, hsome⟩ := layers_of_build hbuild
  obtain ⟨cache, hautomaton⟩ := automaton_of_build hbuild
  have hfind : config.side ≠ none → ∀ s label, m.find s label = m.findLayers config.layers s label :=
    fun h s label => hlayers ▸ find_eq_findLayers (hside ▸ h)
  have hsize : ∀ {s}, s < a.size → s < m.automaton.size := fun hs => by rwa [hautomaton]
  refine ⟨fun h hkind s hs label hlabel hdistinct => ?_, fun s label hlabel => ?_,
    fun hrepeated s hs hbare label hlabel hlabel' => ?_⟩
  · rw [hfind h]
    by_cases hl : Proper label
    · exact exists_findLayers_of_nodup hkind (hdistinct hl) (hsize hs) hlabel
    · rw [findLayers_of_not_proper hl]
      exact exists_findExact (hsize hs) label
  · have hne : config.layers ≠ [] := by
      rintro heq
      simp [heq] at hlabel
    rw [hfind (hsome hne)]
    exact findLayers_of_mem hproper hlabel
  · have hne : config.layers ≠ [] := by
      rintro heq
      simp [heq] at hrepeated
    rw [hfind (hsome hne)]
    exact findLayers_of_not_nodup hproper hrepeated (hsize hs) (by rw [hautomaton]; exact hbare) hlabel' hlabel

end

/-- Two rho layers with one label. -/
def rhoTwice : Config := { layers := [⟨.rho, 7⟩, ⟨.rho, 7⟩] }

/-- With two special labels another label can be looked up. With one special label for two layers the same label is
refused where there are no arcs. -/
theorem exists_find_of_distinct_catchall : ∃ m a m' a', build rhoOverSigma catchall = .ok m a ∧
    build rhoTwice catchall = .ok m' a' ∧ (∃ found, m.find 0 5 = .ok found) ∧
    (∃ layer ∈ rhoOverSigma.layers, layer.label = 7 ∧ m.find 0 7 = .error (refusal layer)) ∧
    ∃ layer ∈ rhoTwice.layers, m'.find 1 5 = .error (refusal layer) := by
  have ha : catchall.CacheSound := PropertyCache.sound_empty _
  obtain ⟨_, hbuild⟩ := build_eq ha (rfl : rhoOverSigma.fault? = none)
  obtain ⟨_, hbuild'⟩ := build_eq ha (rfl : rhoTwice.fault? = none)
  obtain ⟨hfound, hrefused, -⟩ := exists_find_of_distinct hbuild
  obtain ⟨-, -, hrepeated⟩ := exists_find_of_distinct hbuild'
  exact ⟨_, _, _, _, hbuild, hbuild',
    hfound (by decide) (by decide) (by decide) 5 (by decide) fun _ => by decide, hrefused 0 7 (by decide),
    hrepeated (by decide) (by decide) rfl 5 (by decide) (by decide)⟩

/-- A sigma layer and a rho layer with one label. -/
def sigmaAndRho : Config := { layers := [⟨.sigma, 7⟩, ⟨.rho, 7⟩] }

/-- An automaton with one arc. -/
def footbridge : Automaton (ExactCost ℤ) where
  states := #[{ arcs := #[⟨5, 5, 1, 1⟩] }, { final := some 1 }]
  start := some 0

/-- A configuration that is not refused, and a label that is not special and has an exact match, but cannot be looked
up: the rho layer refuses the label that the sigma layer asks it for. -/
theorem find_error_footbridge : ∃ m a', build sigmaAndRho footbridge = .ok m a' ∧ sigmaAndRho.side ≠ none ∧
    (∀ layer ∈ sigmaAndRho.layers, layer.kind ≠ .phi) ∧ 0 < footbridge.size ∧ 5 ∉ specials sigmaAndRho.layers ∧
    m.matching 0 5 = [⟨5, 5, 1, 1⟩] ∧ m.find 0 5 = .error (.config (.ownLabel "rho" 7)) := by
  have ha : footbridge.CacheSound := PropertyCache.sound_empty _
  obtain ⟨_, hbuild⟩ := build_eq ha (rfl : sigmaAndRho.fault? = none)
  refine ⟨_, _, hbuild, by decide, by decide, by decide, by decide, rfl, ?_⟩
  rw [find_withCache]
  cbv

end Transducer.Matcher
