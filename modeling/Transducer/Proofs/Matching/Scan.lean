import Mathlib
import Transducer.Proofs.Matching.Meaning
import Transducer.Proofs.Property.Session

/-!
# Searching and listing

A matcher that searches the arcs of a state by their order finds what the same stack of layers finds when it lists
all arcs (`find_scanning`), and what the rules of the layers say over a plain lookup (`find_eq_iff_finds`). All that is
needed is that the arcs are in order where the matcher takes them to be, and since what an automaton knows of itself is
never out of date, a matcher is right about that whenever it is built (`find_eq_scanning`).
-/

namespace Transducer

open Matching

variable {W : Type}

namespace Matcher

/-- The matcher that lists the arcs of a state and never searches them. -/
def scanning (m : Matcher W) : Matcher W := { m with sorted := false }

variable [Weight W]

/-- The arcs among those of a state that match a label, in their order. The implicit arc comes before those that
match epsilon, and is left out for its own label. -/
def listed (m : Matcher W) (s : Nat) (label : Label) (arcs : Array (Arc W)) : List (Arc W) :=
  if label = epsilon then m.loopArc s :: arcs.toList.filter fun arc => arc.label m.matched == epsilon
  else if label = noLabel then arcs.toList.filter fun arc => arc.label m.matched == epsilon
  else arcs.toList.filter fun arc => arc.label m.matched == label

/-- The exact lookup of a matcher that is right about the order of arcs is to list them. -/
theorem findExact_eq_listed {m : Matcher W} (h : m.Reliable) (s : Nat) (label : Label) :
    m.findExact s label = (m.automaton.findArcs s).map (m.listed s label) := by
  unfold findExact
  cases harcs : m.automaton.findArcs s with
  | error e => rfl
  | ok arcs =>
    obtain ⟨-, rfl⟩ := Automaton.findArcs_eq_ok harcs
    have hselect := fun label => m.select_eq_filter (h.nondecreasing s) label
    simp only [bind, Except.bind, pure, Except.pure, Except.map, hselect, listed]
    by_cases hepsilon : label = epsilon
    · subst hepsilon
      rfl
    · by_cases hlabel : label = noLabel
      · subst hlabel
        rfl
      · simp only [if_neg hepsilon, if_neg hlabel]

omit [Weight W] in
theorem reliable_scanning (m : Matcher W) : m.scanning.Reliable := nofun

/-- A matcher that is right about the order of arcs finds the same as one that lists them. -/
theorem find_scanning {m : Matcher W} (h : m.Reliable) : m.scanning.find = m.find := by
  have hexact : m.scanning.findExact = m.findExact := by
    funext s label
    rw [findExact_eq_listed h, findExact_eq_listed m.reliable_scanning]
    rfl
  have hlayers : ∀ layers, m.scanning.findLayers layers = m.findLayers layers :=
    findLayers_congr rfl hexact rfl rfl
  funext s label
  simp only [find, hlayers]
  rfl

theorem reliable_of_build {config : Config} {a a' : Automaton W} {m : Matcher W} (ha : a.CacheSound)
    (hbuild : build config a = .ok m a') : m.Reliable := by
  obtain ⟨cache, heq⟩ := build_eq ha (fault?_of_build hbuild)
  obtain ⟨rfl, -⟩ := EStateM.Result.ok.inj (hbuild.symm.trans heq)
  exact reliable_of config a

/-! ### The rules -/

omit [Weight W] in
theorem substitute_eq_renamed (m : Matcher W) : m.substitute = renamed m.matched m.substituteBoth := by
  funext special label arc
  unfold substitute renamed
  cases m.matched <;> dsimp only <;> split <;> simp_all [Side.other, Arc.label, Arc.withLabel]

/-- To list the arcs of a state is to look at each of them. -/
theorem listed_eq_scan (m : Matcher W) (s : Nat) (label : Label) :
    (m.automaton.findArcs s).map (m.listed s label) = m.automaton.scan m.matched s label := by
  unfold Automaton.scan
  refine congrArg (Except.map · _) (funext fun arcs => ?_)
  unfold listed
  by_cases hepsilon : label = epsilon
  · subst hepsilon
    have hloop : m.loopArc s = (Arc.mk epsilon epsilon 1 s).withLabel m.matched noLabel := by
      unfold loopArc
      cases m.matched <;> rfl
    rw [if_pos rfl, hloop]
    rfl
  · simp only [if_neg hepsilon]
    split <;> rfl

/-- The matcher of an automaton reads it as its configuration says. -/
theorem reading_of {config : Config} {side : Side} (hside : config.side = some side) (a : Automaton W) :
    (of config a).reading = config.reading a side := by
  have hmatched := matched_of hside a
  have hexact : (of config a).findExact = a.scan side := by
    funext s label
    rw [findExact_eq_listed (reliable_of config a), listed_eq_scan, hmatched]
    rfl
  have hrename : (of config a).substitute = renamed side (config.onBothSides a) := by
    rw [substitute_eq_renamed, hmatched]
    simp only [of, Config.onBothSides]
    cases config.substitution <;> rfl
  rw [reading, hexact, hrename]
  rfl

/-- What a matcher finds is what its configuration says. -/
theorem find_eq_iff_finds {config : Config} {a a' : Automaton W} {m : Matcher W} (ha : a.CacheSound)
    (hbuild : build config a = .ok m a') (s : Nat) (label : Label) (answer : Answer W) :
    m.find s label = answer ↔ config.Finds a s label answer := by
  obtain ⟨cache, heq⟩ := build_eq ha (fault?_of_build hbuild)
  obtain ⟨rfl, -⟩ := EStateM.Result.ok.inj (hbuild.symm.trans heq)
  rw [find_withCache, find, Config.Finds]
  show (if config.side.isNone then _ else (of config a).findLayers config.layers s label) = answer ↔ _
  cases hside : config.side with
  | none => exact eq_comm
  | some side =>
    show (of config a).findLayers config.layers s label = answer ↔
      (config.reading a side).Means config.layers s label answer
    rw [← reading_of hside, means_iff_findLayers]

end Matcher

namespace Session

variable {D : Type} [Weight W] [Costed W] [Tolerance W D]

/-- Whatever has been done with an automaton and whatever it knows of itself, a matcher of it finds at each state and
for each label the arcs, or the error, that the same layers give when the arcs of each state are listed. Their rules
over a plain lookup give it, too, and no other answer. -/
theorem find_eq_scanning {actions : List (Action W D)} {a a' : Automaton W} (ha : a ∈ after actions)
    {config : Config} {m : Matcher W} (hbuild : Matcher.build config a = .ok m a') (s : Nat) (label : Label) :
    m.find s label = m.scanning.find s label ∧
      m.scanning.findExact s label = (a.findArcs s).map (m.listed s label) ∧
      ∀ answer, m.find s label = answer ↔ config.Finds a s label answer := by
  obtain ⟨i, hi⟩ := Array.getElem?_of_mem ha
  have hsound := (current_after actions i a hi).sound
  have hreliable := Matcher.reliable_of_build hsound hbuild
  obtain ⟨cache, hautomaton⟩ := Matcher.automaton_of_build hbuild
  refine ⟨by rw [Matcher.find_scanning hreliable], ?_, Matcher.find_eq_iff_finds hsound hbuild s label⟩
  rw [Matcher.findExact_eq_listed m.reliable_scanning]
  have harcs : m.scanning.automaton.findArcs s = a.findArcs s := by
    show m.automaton.findArcs s = _
    rw [hautomaton]
    rfl
  rw [harcs]
  rfl

/-- An automaton is asked for its properties while its arcs are out of order. Then a copy is put in order. -/
def tidying : List (Action Tropical Single) :=
  [.create, .change 0 (.addStates 2), .change 0 (.setStart 0), .change 0 (.addArc 0 ⟨7, 7, 1, 1⟩),
    .change 0 (.addArc 0 ⟨5, 6, 1, 1⟩), .change 0 (.addArc 0 ⟨epsilon, 5, 1, 0⟩), .change 0 (.addArc 0 ⟨5, 5, 1, 0⟩),
    .ask 0 .all true, .copy 0, .change 1 (.sortArcs .input)]

/-- The matcher of the copy searches, and finds what it would find by listing. -/
theorem find_eq_scanning_tidying : ∃ a ∈ after tidying, ∃ m a',
    Matcher.build { layers := [⟨.rho, 7⟩] } a = .ok m a' ∧ m.sorted = true ∧
      ∀ s label, m.find s label = m.scanning.find s label ∧
        m.scanning.findExact s label = (a.findArcs s).map (m.listed s label) ∧
        ∀ answer, m.find s label = answer ↔ Config.Finds { layers := [⟨.rho, 7⟩] } a s label answer := by
  have hmem := Array.getElem_mem (show 1 < (after tidying).size by decide)
  have hsound := (current_after tidying 1 _ (Array.getElem?_eq_getElem (by decide))).sound
  obtain ⟨_, hbuild⟩ := Matcher.build_eq hsound (rfl : Config.fault? { layers := [⟨.rho, 7⟩] } = none)
  refine ⟨_, hmem, _, _, hbuild, ?_, find_eq_scanning hmem hbuild⟩
  show (after tidying)[1].decides .inputSorted = true
  cbv

end Session

end Transducer
