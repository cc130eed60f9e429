import Mathlib
import Transducer.Proofs.Matching.Layers

/-!
# Failure transitions

What a phi layer over exact matching finds. Where a state has no match, the search goes on at the target of its phi
arc, and `FallsBack` is the way of the phi arcs passed. It comes to an end at a state with matches, at one without a
phi arc or with several, or at one whose phi arc leads back to a state on the way; `Settles` says what is found there.

No state comes twice on the way, so the search comes to an end, and what it finds is what the state at the end of the
way says: `find_failure_iff`.
-/

namespace Transducer.Matcher

open Matching

variable {W : Type}

/-! ### The way of the phi arcs -/

/-- From one state to another by phi arcs. The states that are left have no match for the label and one phi arc only. -/
inductive FallsBack (m : Matcher W) (phi label : Label) (s : Nat) : List (Arc W) → Nat → Prop where
  /-- Where the search begins. -/
  | start : FallsBack m phi label s [] s
  /-- One phi arc more. -/
  | step {passed : List (Arc W)} {t : Nat} {arc : Arc W} : FallsBack m phi label s passed t →
      m.matching t label = [] → m.matching t phi = [arc] → FallsBack m phi label s (passed ++ [arc]) arc.target

variable [Weight W]

/-- What the arcs passed weigh. -/
def passage (passed : List (Arc W)) : W := (passed.map (·.weight)).foldl (· * ·) 1

theorem passage_concat (passed : List (Arc W)) (arc : Arc W) : passage (passed ++ [arc]) = passage passed * arc.weight := by
  simp [passage]

/-- What is found at the state `t` where a search from `s` has come, if it does not go on from there. -/
inductive Settles (m : Matcher W) (phi label : Label) (s : Nat) (passed : List (Arc W)) (t : Nat) :
    Except Error (List (Arc W)) → Prop where
  /-- The matches, after the way. -/
  | found : m.matching t label ≠ [] →
      Settles m phi label s passed t (.ok ((m.matching t label).map (after (passage passed))))
  /-- Nothing, as there is no phi arc. -/
  | ended : m.matching t label = [] → m.matching t phi = [] → Settles m phi label s passed t (.ok [])
  /-- A phi arc from the state to itself matches every label, or none. -/
  | loop {arc : Arc W} : m.matching t label = [] → m.matching t phi = [arc] → arc.target = t →
      Settles m phi label s passed t
        (.ok (if m.phiLoop then [m.substitute phi label (after (passage passed) arc)] else []))
  /-- Nothing, as the phi arc leads back to a state before. -/
  | cycle {arc : Arc W} : m.matching t label = [] → m.matching t phi = [arc] → arc.target ≠ t →
      arc.target ∈ s :: passed.map (·.target) → Settles m phi label s passed t (.ok [])
  /-- Several phi arcs are a fault. -/
  | ambiguous : m.matching t label = [] → 2 ≤ (m.matching t phi).length →
      Settles m phi label s passed t (.error (.config (.ambiguousFailure t (m.matching t phi).length phi)))

section

variable {m : Matcher W} {phi label : Label} {s t : Nat} {passed : List (Arc W)}

/-- A state settles the search, or its only phi arc leads to a state that is new. -/
theorem settles_or_step (m : Matcher W) (phi label : Label) (s : Nat) (passed : List (Arc W)) (t : Nat) :
    (∃ result, m.Settles phi label s passed t result) ∨ ∃ arc, m.matching t label = [] ∧ m.matching t phi = [arc] ∧
      arc.target ∉ s :: passed.map (·.target) := by
  by_cases hlabel : m.matching t label = []
  · match hphi : m.matching t phi with
    | [] => exact .inl ⟨_, .ended hlabel hphi⟩
    | [arc] =>
      by_cases hself : arc.target = t
      · exact .inl ⟨_, .loop hlabel hphi hself⟩
      by_cases hbefore : arc.target ∈ s :: passed.map (·.target)
      · exact .inl ⟨_, .cycle hlabel hphi hself hbefore⟩
      · exact .inr ⟨arc, hlabel, rfl, hbefore⟩
    | _ :: _ :: _ => exact .inl ⟨_, .ambiguous hlabel (by simp [hphi])⟩
  · exact .inl ⟨_, .found hlabel⟩

omit [Weight W] in
theorem mem_arcsAt_of_matching {arc : Arc W} (h : m.matching t label = [arc]) : arc ∈ m.automaton.arcsAt t := by
  have hmem : arc ∈ m.matching t label := h ▸ List.mem_singleton_self arc
  exact Array.mem_toList_iff.1 (List.mem_of_mem_filter hmem)

omit [Weight W] in
/-- A state that is new comes only once. -/
theorem nodup_concat {arc : Arc W} (hnodup : (s :: passed.map (·.target)).Nodup)
    (hnew : arc.target ∉ s :: passed.map (·.target)) : (s :: (passed ++ [arc]).map (·.target)).Nodup := by
  rw [List.map_append, ← List.cons_append]
  refine List.nodup_append.2 ⟨hnodup, List.nodup_singleton _, ?_⟩
  intro u hu v hv heq
  obtain rfl : v = arc.target := List.mem_singleton.1 hv
  exact hnew (heq ▸ hu)

variable (htarget : ∀ {s : Nat}, ∀ arc ∈ m.automaton.arcsAt s, arc.target < m.automaton.size)
include htarget

omit [Weight W] in
theorem FallsBack.lt_size (h : m.FallsBack phi label s passed t) (hs : s < m.automaton.size) :
    ∀ u ∈ s :: passed.map (·.target), u < m.automaton.size := by
  induction h with
  | start => simpa using hs
  | @step passed t arc _ _ hphi ih =>
    intro u hu
    rw [List.map_append, ← List.cons_append, List.mem_append] at hu
    rcases hu with hu | hu
    · exact ih u hu
    · obtain rfl : u = arc.target := by simpa using hu
      exact htarget arc (mem_arcsAt_of_matching hphi)

omit [Weight W] in
/-- As no state comes twice, fewer arcs are passed than there are states. -/
theorem FallsBack.length_lt (h : m.FallsBack phi label s passed t) (hs : s < m.automaton.size)
    (hnodup : (s :: passed.map (·.target)).Nodup) : passed.length < m.automaton.size := by
  have hlen := Automaton.length_le_size hnodup (h.lt_size htarget hs)
  rwa [List.length_cons, List.length_map] at hlen

/-- Some state settles the search, and no state comes twice on the way there. -/
theorem FallsBack.exists_settles (hs : s < m.automaton.size) {passed : List (Arc W)} {t : Nat}
    (h : m.FallsBack phi label s passed t) (hnodup : (s :: passed.map (·.target)).Nodup) :
    ∃ passed t, m.FallsBack phi label s passed t ∧ (s :: passed.map (·.target)).Nodup ∧
      ∃ result, m.Settles phi label s passed t result := by
  rcases m.settles_or_step phi label s passed t with hsettles | ⟨arc, hlabel, hphi, hnew⟩
  · exact ⟨passed, t, h, hnodup, hsettles⟩
  · -- one more state is on the way then, and there are only so many
    have hnodup' := nodup_concat hnodup hnew
    have hlt := (h.step hlabel hphi).length_lt htarget hs hnodup'
    exact FallsBack.exists_settles hs (h.step hlabel hphi) hnodup'
termination_by m.automaton.size - passed.length
decreasing_by
  rw [List.length_append, List.length_singleton] at hlt ⊢
  omega

end

/-! ### The search -/

section

variable {m : Matcher W} {inner : Nat → Label → Except Error (List (Arc W))} {phi label : Label} {s t bound : Nat}
  {visited : List Nat} {weight : W} {arc : Arc W} {passed : List (Arc W)}

omit [Weight W] in
theorem FallsBack.last_mem (h : m.FallsBack phi label s passed t) : t ∈ s :: passed.map (·.target) := by
  cases h <;> simp

/-- From a state without a match the search goes on to a new state by the only phi arc. -/
theorem followPhi_step (hlabel : inner t label = .ok []) (hphi : inner t phi = .ok [arc]) (hself : arc.target ≠ t)
    (hnew : arc.target ∉ visited) :
    m.followPhi inner phi label (bound + 1) visited t weight =
      m.followPhi inner phi label bound (arc.target :: visited) arc.target (weight * arc.weight) := by
  have hcontains : visited.contains arc.target = false := by simpa using hnew
  rw [followPhi]
  simp [hlabel, hphi, hself, hnew, bind, Except.bind]

variable (hexact : ∀ t < m.automaton.size, inner t label = .ok (m.matching t label))
  (hphi : ∀ t < m.automaton.size, inner t phi = .ok (m.matching t phi))
include hexact hphi

/-- A state that settles the search ends it. -/
theorem Settles.followPhi_eq (ht : t < m.automaton.size) {result : Except Error (List (Arc W))}
    (h : m.Settles phi label s passed t result) (hvisited : ∀ u, u ∈ visited ↔ u ∈ s :: passed.map (·.target)) :
    m.followPhi inner phi label (bound + 1) visited t (passage passed) = result := by
  rw [followPhi, hexact t ht, hphi t ht]
  cases h with
  | found hlabel =>
    have hsome : (m.matching t label).isEmpty = false := by simpa using hlabel
    simp [hsome, bind, Except.bind, pure, Except.pure]
  | ended hlabel hnone => simp [hlabel, hnone, bind, Except.bind, pure, Except.pure]
  | loop hlabel hone hself =>
    simp [hlabel, hone, hself, bind, Except.bind, pure, Except.pure]
  | cycle hlabel hone hself hbefore =>
    simp [hlabel, hone, hself, hvisited, hbefore, bind, Except.bind, pure, Except.pure]
  | ambiguous hlabel hmany =>
    rcases hseveral : m.matching t phi with _ | ⟨x, _ | ⟨y, rest⟩⟩
    · simp [hseveral] at hmany
    · simp [hseveral] at hmany
    · simp [hlabel, bind, Except.bind]
      rfl

variable (htarget : ∀ {s : Nat}, ∀ arc ∈ m.automaton.arcsAt s, arc.target < m.automaton.size)
include htarget

/-- The search follows the way of the phi arcs. -/
theorem FallsBack.followPhi_eq (hs : s < m.automaton.size) (h : m.FallsBack phi label s passed t)
    (hnodup : (s :: passed.map (·.target)).Nodup) (bound : Nat) :
    m.followPhi inner phi label (bound + passed.length) [s] s 1 =
      m.followPhi inner phi label bound (s :: passed.map (·.target)).reverse t (passage passed) := by
  induction h generalizing bound with
  | start => rfl
  | @step passed t arc hway hlabel hone ih =>
    rw [List.map_append, ← List.cons_append] at hnodup
    obtain ⟨hbefore, -, hdisjoint⟩ := List.nodup_append.1 hnodup
    have hnew : arc.target ∉ s :: passed.map (·.target) := fun hmem => hdisjoint _ hmem _ List.mem_cons_self rfl
    have hself : arc.target ≠ t := fun heq => hnew (heq ▸ hway.last_mem)
    have ht : t < m.automaton.size := hway.lt_size htarget hs t hway.last_mem
    rw [List.length_append, List.length_singleton, ← Nat.add_assoc, Nat.add_right_comm, ih hbefore]
    rw [followPhi_step ((hexact t ht).trans (congrArg _ hlabel)) ((hphi t ht).trans (congrArg _ hone)) hself
      (by rwa [List.mem_reverse]), passage_concat]
    simp

/-- What the search finds is what the state says that settles it. -/
theorem followPhi_eq_iff (hs : s < m.automaton.size) (result : Except Error (List (Arc W))) :
    m.followPhi inner phi label (m.automaton.size + 1) [s] s 1 = result ↔
      ∃ passed t, m.FallsBack phi label s passed t ∧ (s :: passed.map (·.target)).Nodup ∧
        m.Settles phi label s passed t result := by
  have hsettled : ∀ {passed t result}, m.FallsBack phi label s passed t → (s :: passed.map (·.target)).Nodup →
      m.Settles phi label s passed t result →
      m.followPhi inner phi label (m.automaton.size + 1) [s] s 1 = result := by
    intro passed t result h hnodup hsettles
    obtain ⟨bound, hbound⟩ := Nat.exists_eq_add_of_lt (h.length_lt htarget hs hnodup)
    have hsize : m.automaton.size + 1 = bound + 1 + 1 + passed.length := by omega
    rw [hsize, h.followPhi_eq hexact hphi htarget hs hnodup]
    exact hsettles.followPhi_eq hexact hphi (h.lt_size htarget hs t h.last_mem) fun u => List.mem_reverse
  constructor
  · rintro rfl
    have hstart : m.FallsBack phi label s [] s := .start
    obtain ⟨passed, t, h, hnodup, result, hsettles⟩ := hstart.exists_settles htarget hs (List.nodup_singleton s)
    exact ⟨passed, t, h, hnodup, (hsettled h hnodup hsettles).symm ▸ hsettles⟩
  · rintro ⟨passed, t, h, hnodup, hsettles⟩
    exact hsettled h hnodup hsettles

end

section

variable {m : Matcher W} {a a' : Automaton W} {config : Config} {phi label : Label} {s : Nat}

/-- Under a phi layer alone the arcs of each state are looked up exactly. -/
theorem find_eq_followPhi (hside : m.side.isSome = true) (hlayers : m.layers = [⟨.phi, phi⟩]) (hlabel : Proper label)
    (hne : label ≠ phi) :
    m.find s label = m.followPhi m.findExact phi label (m.automaton.size + 1) [s] s 1 := by
  have hinner : m.findLayers [] = m.findExact := rfl
  rw [find, if_neg (by simpa using Option.isSome_iff_ne_none.1 hside), hlayers, findLayers, if_neg hlabel.not_passed,
    if_neg hne, hinner]

theorem findExact_eq_matching (h : m.Reliable) (hlabel : Proper label) (hs : s < m.automaton.size) :
    m.findExact s label = .ok (m.matching s label) := by
  rw [findExact_eq h hs, exactMatches_of_ne hlabel.1 hlabel.2]

/-- What a matcher with a phi layer alone finds for a label is what the state says that settles the search, at the end
of a way of phi arcs on which no state comes twice. -/
theorem find_failure_iff (ha : a.CacheSound) (htarget : ∀ {s : Nat}, ∀ arc ∈ a.arcsAt s, arc.target < a.size)
    (hlayers : config.layers = [⟨.phi, phi⟩]) (hbuild : build config a = .ok m a') (hs : s < a.size)
    (hlabel : Proper label) (hne : label ≠ phi) (result : Except Error (List (Arc W))) :
    m.find s label = result ↔ ∃ passed t, m.FallsBack phi label s passed t ∧ (s :: passed.map (·.target)).Nodup ∧
      (∀ u ∈ s :: passed.map (·.target), u < a.size) ∧ m.Settles phi label s passed t result := by
  have hfault := fault?_of_build hbuild
  obtain ⟨hproper, hnone⟩ := Config.fault?_eq_none_iff.1 hfault
  have hphi : Proper phi := hproper ⟨.phi, phi⟩ (hlayers ▸ List.mem_singleton_self _)
  have hside : config.side.isSome = true := by
    refine Option.isSome_iff_ne_none.2 fun hside => ?_
    simp [hnone hside] at hlayers
  obtain ⟨cache, heq⟩ := build_eq ha hfault
  obtain ⟨rfl, -⟩ := EStateM.Result.ok.inj (hbuild.symm.trans heq)
  have hreliable : ((of config a).withCache cache).Reliable := reliable_of config a
  rw [find_eq_followPhi hside hlayers hlabel hne]
  refine (followPhi_eq_iff (fun t ht => findExact_eq_matching hreliable hlabel ht)
    (fun t ht => findExact_eq_matching hreliable hphi ht) htarget hs result).trans ?_
  refine exists_congr fun passed => exists_congr fun t => and_congr_right fun hway => and_congr_right fun _ => ?_
  exact (and_iff_right (hway.lt_size htarget hs)).symm

end

/-- Two phi arcs lead to a state with a match, which has a phi arc to itself. -/
def staircase : Automaton (ExactCost ℤ) where
  states := #[{ arcs := #[⟨9, 9, ⟨((2 : ℤ) : WithTop ℤ)⟩, 1⟩, ⟨4, 4, 1, 3⟩] },
    { arcs := #[⟨9, 9, ⟨((3 : ℤ) : WithTop ℤ)⟩, 2⟩] },
    { arcs := #[⟨5, 6, ⟨((1 : ℤ) : WithTop ℤ)⟩, 3⟩, ⟨9, 9, ⟨((7 : ℤ) : WithTop ℤ)⟩, 2⟩] }, { final := some 1 }]
  start := some 0

theorem find_failure_iff_staircase : ∃ m a', build { layers := [⟨.phi, 9⟩] } staircase = .ok m a' ∧
    ∀ result, m.find 0 5 = result ↔ ∃ passed t, m.FallsBack 9 5 0 passed t ∧ (0 :: passed.map (·.target)).Nodup ∧
      (∀ u ∈ 0 :: passed.map (·.target), u < staircase.size) ∧ m.Settles 9 5 0 passed t result := by
  have ha : staircase.CacheSound := PropertyCache.sound_empty _
  obtain ⟨_, hbuild⟩ := build_eq ha (rfl : Config.fault? { layers := [⟨.phi, 9⟩] } = none)
  exact ⟨_, _, hbuild, find_failure_iff ha (Automaton.forall_mem_arcsAt_iff.2 (by decide)) rfl hbuild (by decide)
    (by decide) (by decide)⟩

example : (of { layers := [⟨.phi, 9⟩] } staircase).find 0 5 = .ok [⟨5, 6, ⟨((6 : ℤ) : WithTop ℤ)⟩, 3⟩] := by cbv

end Transducer.Matcher
