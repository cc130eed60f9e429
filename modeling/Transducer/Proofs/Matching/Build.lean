import Mathlib
import Transducer.Proofs.Matching.Exact
import Transducer.Proofs.Property.Cache

/-!
# Building matchers

To build a matcher is to decide what it relies on: whether arcs are in order, and whether every arc reads what
it writes. `Matcher.of` is the matcher with these decisions made. What an automaton with a sound cache gets
built is this matcher, beside what is cached (`build_eq`), and what is cached has no part in what a matcher
finds (`find_withCache`). So matchers that are built from one automaton at different times find the same.
-/

namespace Transducer

theorem Matching.Config.fault?_of_no_layers {config : Config} (h : config.layers = []) :
    config.fault? = none := by
  simp [fault?, isPlain, h]

namespace Matcher

open Matching

variable {W : Type} [Weight W]

/-- The matcher with something else in the cache of its automaton. -/
def withCache (m : Matcher W) (cache : PropertyCache) : Matcher W :=
  { m with automaton := { m.automaton with cache } }

section

variable {m m' : Matcher W}

theorem followPhi_congr (hloop : m'.phiLoop = m.phiLoop) (hsubstitute : m'.substitute = m.substitute)
    (inner : Nat → Label → Except Error (List (Arc W))) (phi label : Label) (bound : Nat) :
    m'.followPhi inner phi label bound = m.followPhi inner phi label bound := by
  induction bound with
  | zero => rfl
  | succ bound ih =>
    funext visited s weight
    simp only [followPhi, ih, hloop, hsubstitute]

/-- What is found below some layers depends on the exact lookup, and on how labels are replaced. -/
theorem findLayers_congr (hsize : m'.automaton.size = m.automaton.size) (hexact : m'.findExact = m.findExact)
    (hloop : m'.phiLoop = m.phiLoop) (hsubstitute : m'.substitute = m.substitute) (layers : List Layer) :
    m'.findLayers layers = m.findLayers layers := by
  induction layers with
  | nil =>
    funext s label
    simp only [findLayers, hexact]
  | cons layer inner ih =>
    funext s label
    simp only [findLayers, ih, followPhi_congr hloop hsubstitute, hsize, hsubstitute]

@[simp] theorem find_withCache (m : Matcher W) (cache : PropertyCache) : (m.withCache cache).find = m.find := by
  funext s label
  have hsame : ∀ layers, (m.withCache cache).findLayers layers = m.findLayers layers :=
    findLayers_congr rfl rfl rfl rfl
  simp only [find, hsame]
  rfl

end

/-- The matcher of an automaton, with what it relies on decided as it is. -/
def of (config : Config) (a : Automaton W) : Matcher W where
  automaton := a
  side := config.side
  layers := config.layers
  phiLoop := config.phiLoop
  substituteBoth := match config.substitution with
    | .auto => a.decides .acceptor
    | .always => true
    | .never => false
  sorted := match config.side with
    | some .input => a.decides .inputSorted
    | some .output => a.decides .outputSorted
    | none => false

theorem matched_of {config : Config} {side : Side} (h : config.side = some side) (a : Automaton W) :
    (of config a).matched = side := by
  simp [matched, of, h]

theorem reliable_of (config : Config) (a : Automaton W) : (of config a).Reliable := by
  intro hsorted
  rcases hside : config.side with _ | _ | _
  · simp [of, hside] at hsorted
  · simpa [of, matched, hside, Automaton.decides] using hsorted
  · simpa [of, matched, hside, Automaton.decides] using hsorted

/-- A configuration that can be used builds its matcher. -/
theorem build_eq {a : Automaton W} (h : a.CacheSound) {config : Config} (hfault : config.fault? = none) :
    ∃ cache, build config a = .ok ((of config a).withCache cache) { a with cache } := by
  obtain ⟨side, layers, substitution, phiLoop⟩ := config
  unfold build
  rw [hfault]
  -- what the first question leaves in the cache is there for the second one
  rcases side with _ | _ | _
  · obtain ⟨cache, hask, -⟩ := Automaton.ask_eq h .acceptor
    cases substitution <;> simp only [hask]
    · exact ⟨cache, rfl⟩
    · exact ⟨a.cache, rfl⟩
    · exact ⟨a.cache, rfl⟩
  · obtain ⟨cache, hask, hsound⟩ := Automaton.ask_eq h .inputSorted
    obtain ⟨cache', hask', -⟩ := Automaton.ask_eq hsound .acceptor
    cases substitution <;> simp only [hask, hask']
    · exact ⟨cache', rfl⟩
    · exact ⟨cache, rfl⟩
    · exact ⟨cache, rfl⟩
  · obtain ⟨cache, hask, hsound⟩ := Automaton.ask_eq h .outputSorted
    obtain ⟨cache', hask', -⟩ := Automaton.ask_eq hsound .acceptor
    cases substitution <;> simp only [hask, hask']
    · exact ⟨cache', rfl⟩
    · exact ⟨cache, rfl⟩
    · exact ⟨cache, rfl⟩

/-- A matcher is built only if its configuration can be used. -/
theorem fault?_of_build {config : Config} {a a' : Automaton W} {m : Matcher W} (h : build config a = .ok m a') :
    config.fault? = none := by
  unfold build at h
  split at h
  · cases h
  · assumption

end Matcher

end Transducer
