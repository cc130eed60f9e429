import Mathlib
import Transducer.Proofs.Matching.Build
import Transducer.Proofs.Weight.Exact

/-!
# Layers whose labels stand on no arc

A layer whose label stands on no arc should not matter. A rho layer and a phi layer indeed find nothing by such
a label, wherever they are in the stack, and so they can be left out (`find_eq_of_avoids`). The reason is that
whatever the layers below could find for a label that stands on no arc, they would have found before for the
label that was asked for (`findLayers_eq_nil_of_eq_nil`).

A sigma layer asks for its label also where there are matches already. What the layers below find for it is what
they find for any label without an exact match, such as rho arcs. So a sigma layer matters even if its label stands
on no arc, unless the labels of the layers below it stand on no arcs either.
-/

namespace Transducer

variable {W : Type}

/-- No arc has the label on the given side. -/
def Automaton.Avoids (a : Automaton W) (side : Side) (label : Label) : Prop :=
  ∀ {s : Nat}, ∀ arc ∈ a.arcsAt s, arc.label side ≠ label

namespace Matching

/-- The label is neither epsilon nor that of the implicit arc. -/
def Proper (label : Label) : Prop := label ≠ epsilon ∧ label ≠ noLabel

instance (label : Label) : Decidable (Proper label) := inferInstanceAs (Decidable (_ ∧ _))

theorem Proper.not_passed {label : Label} (h : Proper label) : ¬(label = epsilon ∨ label = noLabel) :=
  not_or.2 h

theorem Config.fault?_eq_none_iff {config : Config} :
    config.fault? = none ↔
      (∀ layer ∈ config.layers, Proper layer.label) ∧ (config.side = none → config.layers = []) := by
  unfold fault?
  dsimp only
  split
  · next layer hlayer =>
    have hreserved := List.find?_some hlayer
    refine iff_of_false nofun fun hproper => ?_
    have := hproper.1 layer (List.mem_of_find?_eq_some hlayer)
    simp_all [Proper]
  · next hnone =>
    rw [List.find?_eq_none] at hnone
    cases config.side <;> simp_all [Proper, isPlain]

end Matching

namespace Matcher

open Matching

variable [Weight W] {m : Matcher W} {s : Nat} {label x : Label}

theorem findLayers_of_not_proper (h : ¬Proper label) (layers : List Layer) :
    m.findLayers layers s label = m.findExact s label := by
  induction layers with
  | nil => rfl
  | cons layer inner ih =>
    rw [findLayers, if_pos (by rwa [Proper, not_and_or, not_not, not_not] at h), ih]

/-- Nothing is found at a state that does not exist. -/
theorem lt_size_of_findLayers {layers : List Layer} {found : List (Arc W)}
    (h : m.findLayers layers s label = .ok found) : s < m.automaton.size := by
  induction layers generalizing label found with
  | nil =>
    obtain ⟨arcs, harcs, -⟩ := bind_eq_ok.1 h
    exact (Automaton.findArcs_eq_ok harcs).1
  | cons layer inner ih =>
    unfold findLayers at h
    split at h
    · exact ih h
    split at h
    · cases h
    split at h
    all_goals
      obtain ⟨found, hfound, -⟩ := bind_eq_ok.1 h
      exact ih hfound

/-! ### Labels that stand on no arc -/

section

variable (h : m.Reliable) (hx : Proper x)
include h hx

theorem findExact_eq_nil (hs : s < m.automaton.size) (havoids : m.automaton.Avoids m.matched x) :
    m.findExact s x = .ok [] := by
  rw [findExact_eq h hs, exactMatches_of_ne hx.1 hx.2, matching]
  refine congrArg _ (List.filter_eq_nil_iff.2 fun arc harc => ?_)
  simpa using havoids arc (Array.mem_toList_iff.1 harc)

omit h hx in
theorem followPhi_eq_nil_of_eq_nil {inner : Nat → Label → Except Error (List (Arc W))} {phi : Label}
    (hinner : ∀ {s}, inner s label = .ok [] → inner s x = .ok []) {bound : Nat} {visited : List Nat}
    {weight : W} (hnone : m.followPhi inner phi label bound visited s weight = .ok []) :
    m.followPhi inner phi x bound visited s weight = .ok [] := by
  induction bound generalizing visited s weight with
  | zero => rfl
  | succ bound ih =>
    obtain ⟨found, hfound, hnone⟩ := bind_eq_ok.1 hnone
    cases found with
    | cons arc found => cases hnone
    | nil =>
      refine bind_eq_ok.2 ⟨[], hinner hfound, ?_⟩
      obtain ⟨phis, hphis, hnone⟩ := bind_eq_ok.1 hnone
      refine bind_eq_ok.2 ⟨phis, hphis, ?_⟩
      match phis with
      | [] => rfl
      | [arc] =>
        dsimp only at hnone ⊢
        split at hnone
        · next hself =>
          rw [if_pos hself]
          cases hloop : m.phiLoop with
          | false => rfl
          | true =>
            rw [hloop] at hnone
            cases hnone
        · next hself =>
          rw [if_neg hself]
          split at hnone
          · next hvisited =>
            rw [if_pos hvisited]
            rfl
          · next hvisited =>
            rw [if_neg hvisited]
            exact ih hnone
      | _ :: _ :: _ => cases hnone

/-- What is found for a label that stands on no arc is found for every other label. -/
theorem findLayers_eq_nil_of_eq_nil (havoids : m.automaton.Avoids m.matched x) {layers : List Layer}
    (hne : ∀ layer ∈ layers, layer.label ≠ x) (hlabel : Proper label)
    (hnone : m.findLayers layers s label = .ok []) : m.findLayers layers s x = .ok [] := by
  induction layers generalizing s label with
  | nil =>
    have hs : s < m.automaton.size := @lt_size_of_findLayers _ _ m s label [] _ hnone
    exact findExact_eq_nil h hx hs havoids
  | cons layer inner ih =>
    obtain ⟨hlayer, hinner⟩ := List.forall_mem_cons.1 hne
    unfold findLayers at hnone ⊢
    rw [if_neg hlabel.not_passed] at hnone
    rw [if_neg hx.not_passed, if_neg hlayer.symm]
    split at hnone
    · cases hnone
    cases hkind : layer.kind with
    | sigma =>
      rw [hkind] at hnone
      obtain ⟨found, hfound, hnone⟩ := bind_eq_ok.1 hnone
      obtain ⟨wild, hwild, hnone⟩ := bind_eq_ok.1 hnone
      obtain ⟨rfl, hmap⟩ := List.append_eq_nil_iff.1 (Except.ok.inj hnone)
      obtain rfl := List.map_eq_nil_iff.1 hmap
      exact bind_eq_ok.2 ⟨[], ih hinner hlabel hfound, bind_eq_ok.2 ⟨[], hwild, rfl⟩⟩
    | rho =>
      rw [hkind] at hnone
      obtain ⟨found, hfound, hnone⟩ := bind_eq_ok.1 hnone
      cases found with
      | cons arc found => cases hnone
      | nil =>
        obtain ⟨wild, hwild, hnone⟩ := bind_eq_ok.1 hnone
        obtain rfl := List.map_eq_nil_iff.1 (Except.ok.inj hnone)
        exact bind_eq_ok.2 ⟨[], ih hinner hlabel hfound, bind_eq_ok.2 ⟨[], hwild, rfl⟩⟩
    | phi =>
      rw [hkind] at hnone
      exact followPhi_eq_nil_of_eq_nil (fun hfound => ih hinner hlabel hfound) hnone

end

/-- Where a label and those of all layers have no exact match, nothing is found for the label. -/
theorem findLayers_eq_nil {layers : List Layer} (hdistinct : (x :: layers.map (·.label)).Nodup)
    (hproper : ∀ label ∈ x :: layers.map (·.label), Proper label)
    (hexact : ∀ label ∈ x :: layers.map (·.label), m.findExact s label = .ok []) :
    m.findLayers layers s x = .ok [] := by
  induction layers generalizing x with
  | nil => exact hexact x List.mem_cons_self
  | cons layer inner ih =>
    have hsub : ∀ {label}, label ∈ x :: inner.map (·.label) → label ∈ x :: (layer :: inner).map (·.label) :=
      fun hmem => (List.cons_subset_cons x (List.subset_cons_self _ _)) hmem
    have hnone : m.findLayers inner s x = .ok [] :=
      ih (hdistinct.sublist ((List.sublist_cons_self _ _).cons_cons x)) (fun _ hmem => hproper _ (hsub hmem))
        fun _ hmem => hexact _ (hsub hmem)
    have hwild : m.findLayers inner s layer.label = .ok [] :=
      ih hdistinct.of_cons (fun _ hmem => hproper _ (List.mem_cons_of_mem _ hmem))
        fun _ hmem => hexact _ (List.mem_cons_of_mem _ hmem)
    have hne : x ≠ layer.label := fun heq => (List.nodup_cons.1 hdistinct).1 (heq ▸ List.mem_cons_self)
    rw [findLayers, if_neg (hproper x List.mem_cons_self).not_passed, if_neg hne]
    cases layer.kind with
    | sigma => simp [hnone, hwild, bind, Except.bind, pure, Except.pure]
    | rho => simp [hnone, hwild, bind, Except.bind, pure, Except.pure]
    | phi => simp [followPhi, hnone, hwild, bind, Except.bind, pure, Except.pure]

/-! ### Layers that can be left out -/

/-- After no way at all an arc is as it was. -/
theorem map_after_one (hone : ∀ w : W, 1 * w = w) (found : List (Arc W)) : found.map (after 1) = found :=
  (List.map_congr_left fun arc _ => by rw [after, hone, id]).trans (List.map_id found)

/-- A layer at the top whose label stands on no arc can be left out. -/
theorem findLayers_cons_of_avoids (h : m.Reliable) {layer : Layer} {inner : List Layer}
    (hproper : ∀ other ∈ layer :: inner, Proper other.label)
    (havoids : m.automaton.Avoids m.matched layer.label) (hother : ∀ other ∈ inner, other.label ≠ layer.label)
    (hsigma : layer.kind = .sigma → (inner.map (·.label)).Nodup ∧
      ∀ other ∈ inner, m.automaton.Avoids m.matched other.label)
    (hphi : layer.kind = .phi → ∀ w : W, 1 * w = w) (hne : label ≠ layer.label) :
    m.findLayers (layer :: inner) s label = m.findLayers inner s label := by
  by_cases hlabel : Proper label
  · rw [findLayers, if_neg hlabel.not_passed, if_neg hne]
    have hx : Proper layer.label := hproper _ List.mem_cons_self
    cases hinner : m.findLayers inner s label with
    | error e => cases layer.kind <;> simp [followPhi, hinner, bind, Except.bind]
    | ok found =>
      have hnone : found = [] → m.findLayers inner s layer.label = .ok [] := fun hempty =>
        findLayers_eq_nil_of_eq_nil h hx havoids hother hlabel (hempty ▸ hinner)
      cases hkind : layer.kind with
      | sigma =>
        obtain ⟨hdistinct, hunused⟩ := hsigma hkind
        have hwild : m.findLayers inner s layer.label = .ok [] := by
          have hs := lt_size_of_findLayers hinner
          obtain ⟨-, hbelow⟩ := List.forall_mem_cons.1 hproper
          refine findLayers_eq_nil (List.nodup_cons.2 ⟨?_, hdistinct⟩)
            (List.forall_mem_cons.2 ⟨hx, List.forall_mem_map.2 hbelow⟩) (List.forall_mem_cons.2
              ⟨findExact_eq_nil h hx hs havoids, List.forall_mem_map.2 fun other hmem =>
                findExact_eq_nil h (hbelow other hmem) hs (hunused other hmem)⟩)
          rintro hmem
          obtain ⟨other, hmem, heq⟩ := List.mem_map.1 hmem
          exact hother other hmem heq
        simp [hwild, bind, Except.bind, pure, Except.pure]
      | rho =>
        cases found with
        | nil => simp [hnone rfl, bind, Except.bind, pure, Except.pure]
        | cons arc found => simp [bind, Except.bind, pure, Except.pure]
      | phi =>
        cases found with
        | nil => simp [followPhi, hinner, hnone rfl, bind, Except.bind, pure, Except.pure]
        | cons arc found =>
          have hsame := map_after_one (hphi hkind) (arc :: found)
          simp only [followPhi, hinner, bind, Except.bind, pure, Except.pure, List.isEmpty_cons, hsame]
          rfl
  · rw [findLayers_of_not_proper hlabel, findLayers_of_not_proper hlabel]

theorem followPhi_congr_inner {inner inner' : Nat → Label → Except Error (List (Arc W))} {phi : Label}
    (hlabel : ∀ s, inner' s label = inner s label) (hphi : ∀ s, inner' s phi = inner s phi) (bound : Nat) :
    m.followPhi inner' phi label bound = m.followPhi inner phi label bound := by
  induction bound with
  | zero => rfl
  | succ bound ih =>
    funext visited s weight
    simp only [followPhi, ih, hlabel, hphi]

/-- What makes no difference below some layers makes none above them, as long as the layers do not ask for the
one label for which it does. -/
theorem findLayers_append_congr {layers layers' : List Layer}
    (hsame : ∀ {s label}, label ≠ x → m.findLayers layers s label = m.findLayers layers' s label)
    {outer : List Layer} (houter : ∀ layer ∈ outer, layer.label ≠ x) (hne : label ≠ x) :
    m.findLayers (outer ++ layers) s label = m.findLayers (outer ++ layers') s label := by
  induction outer generalizing s label with
  | nil => exact hsame hne
  | cons layer outer ih =>
    obtain ⟨hlayer, houter⟩ := List.forall_mem_cons.1 houter
    rw [List.cons_append, List.cons_append, findLayers, findLayers]
    simp only [ih houter hne, ih houter hlayer,
      followPhi_congr_inner (fun s => ih (s := s) houter hne) (fun s => ih (s := s) houter hlayer)]

/-- A layer anywhere in the stack whose label stands on no arc can be left out. -/
theorem findLayers_append_of_avoids (h : m.Reliable) {outer inner : List Layer} {layer : Layer}
    (hproper : ∀ other ∈ outer ++ layer :: inner, Proper other.label)
    (havoids : m.automaton.Avoids m.matched layer.label)
    (hother : ∀ other ∈ outer ++ inner, other.label ≠ layer.label)
    (hsigma : layer.kind = .sigma → (inner.map (·.label)).Nodup ∧
      ∀ other ∈ inner, m.automaton.Avoids m.matched other.label)
    (hphi : layer.kind = .phi → ∀ w : W, 1 * w = w) (hne : label ≠ layer.label) :
    m.findLayers (outer ++ layer :: inner) s label = m.findLayers (outer ++ inner) s label := by
  obtain ⟨houter, hinner⟩ := List.forall_mem_append.1 hother
  refine findLayers_append_congr (fun hne => ?_) houter hne
  exact findLayers_cons_of_avoids h (List.forall_mem_append.1 hproper).2 havoids hinner hsigma hphi hne

section

variable {a a' : Automaton W} {config : Config}

theorem find_of (layers : List Layer) :
    (of { config with layers } a).find s label =
      if config.side.isNone then .error (.config .notQueryable) else (of config a).findLayers layers s label := by
  have hsame : ∀ stack, (of { config with layers } a).findLayers stack = (of config a).findLayers stack :=
    findLayers_congr rfl rfl rfl rfl
  rw [← hsame]
  rfl

/-- A layer whose label stands on no arc can be left out, if no other layer has its label. For a sigma layer the
layers below it must have distinct labels that stand on no arcs either, since it asks them for its own label. -/
theorem find_eq_of_avoids (ha : a.CacheSound) {outer inner : List Layer} {layer : Layer}
    (hlayers : config.layers = outer ++ layer :: inner)
    (havoids : a.Avoids (config.side.getD .input) layer.label)
    (hother : ∀ other ∈ outer ++ inner, other.label ≠ layer.label)
    (hsigma : layer.kind = .sigma → (inner.map (·.label)).Nodup ∧
      ∀ other ∈ inner, a.Avoids (config.side.getD .input) other.label)
    (hphi : layer.kind = .phi → ∀ w : W, 1 * w = w) (hbuild : build config a = .ok m a') :
    ∃ m' a'', build { config with layers := outer ++ inner } a = .ok m' a'' ∧
      ∀ (s : Nat) {label : Label}, label ≠ layer.label → m'.find s label = m.find s label := by
  have hfault := fault?_of_build hbuild
  obtain ⟨hproper, hside⟩ := Config.fault?_eq_none_iff.1 hfault
  rw [hlayers] at hproper hside
  -- to leave a layer out is no fault
  have hfault' : Config.fault? { config with layers := outer ++ inner } = none := by
    refine Config.fault?_eq_none_iff.2 ⟨fun other hother => hproper other ?_, fun hnone => ?_⟩
    · exact ((List.sublist_cons_self layer inner).append_left outer).subset hother
    · exact absurd (hside hnone) (by simp)
  obtain ⟨cache, heq⟩ := build_eq ha hfault
  obtain ⟨rfl, rfl⟩ := EStateM.Result.ok.inj (hbuild.symm.trans heq)
  obtain ⟨cache', heq'⟩ := build_eq ha hfault'
  refine ⟨_, _, heq', fun s label hne => ?_⟩
  have hfind : (of config a).find s label = _ := find_of config.layers
  rw [find_withCache, find_withCache, find_of, hfind, hlayers,
    findLayers_append_of_avoids (reliable_of config a) hproper havoids hother hsigma hphi hne]

end

/-- An automaton with an arc for one label and an arc for all others. -/
def catchall : Automaton (ExactCost ℤ) where
  states := #[{ arcs := #[⟨5, 5, 1, 1⟩, ⟨7, 7, ⟨1⟩, 1⟩] }, { final := some 1 }]
  start := some 0

theorem catchall_avoids : catchall.Avoids .input 8 := Automaton.forall_mem_arcsAt_iff.2 (by decide)

/-- A rho layer above a sigma layer. -/
def rhoOverSigma : Config := { layers := [⟨.rho, 8⟩, ⟨.sigma, 7⟩] }

/-- A sigma layer above a rho layer. -/
def sigmaOverRho : Config := { layers := [⟨.sigma, 8⟩, ⟨.rho, 7⟩] }

/-- A rho layer whose label stands on no arc finds nothing, also above a layer whose label does. -/
theorem find_eq_of_avoids_catchall : ∃ m a m' a', build rhoOverSigma catchall = .ok m a ∧
    build { layers := [⟨.sigma, 7⟩] } catchall = .ok m' a' ∧
    ∀ (s : Nat) {label : Label}, label ≠ 8 → m'.find s label = m.find s label := by
  have ha : catchall.CacheSound := PropertyCache.sound_empty _
  have hfault : rhoOverSigma.fault? = none := rfl
  have hlayers : rhoOverSigma.layers = [] ++ ⟨.rho, 8⟩ :: [⟨.sigma, 7⟩] := rfl
  obtain ⟨_, hbuild⟩ := build_eq ha hfault
  obtain ⟨m', a', hbuild', hsame⟩ :=
    find_eq_of_avoids ha hlayers catchall_avoids (by decide) nofun nofun hbuild
  exact ⟨_, _, m', a', hbuild, hbuild', hsame⟩

/-- A sigma layer whose label stands on no arc makes a rho arc match beside an exact match. -/
theorem find_ne_catchall : ∃ m a m' a', build sigmaOverRho catchall = .ok m a ∧
    build { layers := [⟨.rho, 7⟩] } catchall = .ok m' a' ∧ catchall.Avoids .input 8 ∧
    m.find 0 5 = .ok [⟨5, 5, 1, 1⟩, ⟨5, 5, ⟨1⟩, 1⟩] ∧ m'.find 0 5 = .ok [⟨5, 5, 1, 1⟩] := by
  have ha : catchall.CacheSound := PropertyCache.sound_empty _
  have hfault : sigmaOverRho.fault? = none := rfl
  have hfault' : Config.fault? { layers := [⟨.rho, 7⟩] } = none := rfl
  obtain ⟨_, hbuild⟩ := build_eq ha hfault
  obtain ⟨_, hbuild'⟩ := build_eq ha hfault'
  refine ⟨_, _, _, _, hbuild, hbuild', catchall_avoids, ?_, ?_⟩
  · rw [find_withCache]
    cbv
  · rw [find_withCache]
    cbv

end Matcher

end Transducer
