import Mathlib
import Transducer.Proofs.Matching.Failure

/-!
# What a stack of layers means

What is found for a label is said here by rules, without a matcher. Exact lookup goes through all arcs of a state
(`Automaton.scan`). Each kind of layer has its rules over what the layers below it answer: those of sigma are
`Beside`, those of rho `Otherwise`, and those of phi `Follows`, where phi arcs are followed for as long as they lead to
new states. `Reading.Means` puts the layers on top of each other, and `Config.Finds` says what a configuration finds
in an automaton.

A matcher goes by these rules (`means_iff_findLayers`), and so they give every question exactly one answer. The rules
of phi know of no bound on the way. That of the search is never reached, since each state on the way is new, and exists
as the layers below refuse those that do not (`Ample`).
-/

namespace Transducer

variable {W : Type}

namespace Matching

/-! ### The rules -/

/-- The arcs that match, or why none can be given. -/
abbrev Answer (W : Type) := Except Error (List (Arc W))

/-- Which answer there is at a state for a label. -/
abbrev Lookup (W : Type) := Nat → Label → Answer W → Prop

section

variable (inner : Lookup W) (rename : Arc W → Arc W) (special label : Label)

/-- The rules of a sigma layer: what its label finds comes after what is found without it. -/
inductive Beside (s : Nat) : Answer W → Prop where
  | refused {e : Error} : inner s label (.error e) → Beside s (.error e)
  | specialRefused {found : List (Arc W)} {e : Error} :
      inner s label (.ok found) → inner s special (.error e) → Beside s (.error e)
  | found {found wild : List (Arc W)} :
      inner s label (.ok found) → inner s special (.ok wild) → Beside s (.ok (found ++ wild.map rename))

/-- The rules of a rho layer: its label is asked for where nothing is found without it. -/
inductive Otherwise (s : Nat) : Answer W → Prop where
  | refused {e : Error} : inner s label (.error e) → Otherwise s (.error e)
  | found {found : List (Arc W)} : inner s label (.ok found) → found ≠ [] → Otherwise s (.ok found)
  | specialRefused {e : Error} : inner s label (.ok []) → inner s special (.error e) → Otherwise s (.error e)
  | special {wild : List (Arc W)} :
      inner s label (.ok []) → inner s special (.ok wild) → Otherwise s (.ok (wild.map rename))

/-- The rules of a phi layer at a state to which a way of the given weight has led, by way of the states `before`. -/
inductive Follows [Weight W] (phiLoop : Bool) : List Nat → Nat → W → Answer W → Prop where
  | refused {before : List Nat} {s : Nat} {weight : W} {e : Error} :
      inner s label (.error e) → Follows phiLoop before s weight (.error e)
  /-- The matches, after the way. -/
  | found {before : List Nat} {s : Nat} {weight : W} {found : List (Arc W)} :
      inner s label (.ok found) → found ≠ [] →
        Follows phiLoop before s weight (.ok (found.map fun arc => { arc with weight := weight * arc.weight }))
  | specialRefused {before : List Nat} {s : Nat} {weight : W} {e : Error} :
      inner s label (.ok []) → inner s special (.error e) → Follows phiLoop before s weight (.error e)
  /-- The way ends without a phi arc. -/
  | ends {before : List Nat} {s : Nat} {weight : W} :
      inner s label (.ok []) → inner s special (.ok []) → Follows phiLoop before s weight (.ok [])
  /-- A phi arc from the state to itself stands for every label, or for none. -/
  | loops {before : List Nat} {s : Nat} {weight : W} {arc : Arc W} :
      inner s label (.ok []) → inner s special (.ok [arc]) → arc.target = s →
        Follows phiLoop before s weight
          (.ok (if phiLoop then [rename { arc with weight := weight * arc.weight }] else []))
  /-- The phi arc leads back to a state before. -/
  | returns {before : List Nat} {s : Nat} {weight : W} {arc : Arc W} :
      inner s label (.ok []) → inner s special (.ok [arc]) → arc.target ≠ s → arc.target ∈ before →
        Follows phiLoop before s weight (.ok [])
  /-- The phi arc leads on, and the answer is that of the state it leads to. -/
  | goesOn {before : List Nat} {s : Nat} {weight : W} {arc : Arc W} {answer : Answer W} :
      inner s label (.ok []) → inner s special (.ok [arc]) → arc.target ∉ s :: before →
        Follows phiLoop (s :: before) arc.target (weight * arc.weight) answer →
          Follows phiLoop before s weight answer
  /-- Which of several phi arcs to follow is not clear. -/
  | ambiguous {before : List Nat} {s : Nat} {weight : W} {arcs : List (Arc W)} :
      inner s label (.ok []) → inner s special (.ok arcs) → 2 ≤ arcs.length →
        Follows phiLoop before s weight (.error (.config (.ambiguousFailure s arcs.length special)))

end

/-- What the rules of the layers build on. -/
structure Reading (W : Type) where
  /-- The exact matches. -/
  exact : Nat → Label → Answer W
  /-- An arc that the first label found, as an arc for the second one. -/
  rename : Label → Label → Arc W → Arc W
  /-- Whether a phi arc from a state to itself stands for every label. -/
  phiLoop : Bool

/-- What is found under some layers, the outermost first. -/
def Reading.Means [Weight W] (reading : Reading W) : List Layer → Lookup W
  | [], s, label, answer => answer = reading.exact s label
  | layer :: inner, s, label, answer =>
    if label = epsilon ∨ label = noLabel then reading.Means inner s label answer
    else if label = layer.label then answer = .error (.config (.ownLabel layer.kind.name label))
    else
      match layer.kind with
      | .sigma => Beside (reading.Means inner) (reading.rename layer.label label) layer.label label s answer
      | .rho => Otherwise (reading.Means inner) (reading.rename layer.label label) layer.label label s answer
      | .phi =>
        Follows (reading.Means inner) (reading.rename layer.label label) layer.label label reading.phiLoop [] s 1 answer

/-- An arc that a special label found, with another label on the side that is matched; and on both sides, if that is
wanted, where it has the special label on the other one, too. -/
def renamed (side : Side) (both : Bool) (special label : Label) (arc : Arc W) : Arc W :=
  match side with
  | .input => { arc with ilabel := label, olabel := if both && arc.olabel == special then label else arc.olabel }
  | .output => { arc with olabel := label, ilabel := if both && arc.ilabel == special then label else arc.ilabel }

end Matching

open Matching

/-- The arcs of a state that match a label, found by looking at each of its arcs. Epsilon also stands for the implicit
arc, and the label of the implicit arc for the epsilon arcs only. -/
def Automaton.scan [Weight W] (a : Automaton W) (side : Side) (s : Nat) (label : Label) : Answer W :=
  (a.findArcs s).map fun arcs =>
    let real := arcs.toList.filter fun arc => arc.label side == (if label = noLabel then epsilon else label)
    if label = epsilon then (Arc.mk epsilon epsilon 1 s).withLabel side noLabel :: real else real

namespace Matching.Config

/-- Whether arcs that were found by a special label get the label that was asked for on both sides. -/
def onBothSides (config : Config) (a : Automaton W) : Bool :=
  match config.substitution with
  | .auto => a.allArcs fun arc => arc.ilabel == arc.olabel
  | .always => true
  | .never => false

variable [Weight W]

/-- How a configuration reads an automaton on one side. -/
def reading (config : Config) (a : Automaton W) (side : Side) : Reading W where
  exact := a.scan side
  rename := renamed side (config.onBothSides a)
  phiLoop := config.phiLoop

/-- What a configuration finds at a state for a label. -/
def Finds (config : Config) (a : Automaton W) (s : Nat) (label : Label) (answer : Answer W) : Prop :=
  match config.side with
  | none => answer = .error (.config .notQueryable)
  | some side => (config.reading a side).Means config.layers s label answer

end Matching.Config

/-! ### Matchers go by the rules -/

namespace Matcher

variable [Weight W]

section

variable {inner : Lookup W} {find : Nat → Label → Except Error (List (Arc W))} {rename : Arc W → Arc W}
  {special label : Label} {s : Nat} {answer : Except Error (List (Arc W))}
  (hinner : ∀ s label answer, inner s label answer ↔ find s label = answer)
include hinner

omit [Weight W] in
theorem beside_iff :
    Beside inner rename special label s answer ↔
      (do
        let found ← find s label
        let wild ← find s special
        return found ++ wild.map rename) = answer := by
  constructor
  · intro h
    rcases h with h | ⟨h, hspecial⟩ | ⟨h, hspecial⟩
    · rw [(hinner ..).1 h]; rfl
    · rw [(hinner ..).1 h, (hinner ..).1 hspecial]; rfl
    · rw [(hinner ..).1 h, (hinner ..).1 hspecial]; rfl
  · rintro rfl
    rcases hfound : find s label with e | found
    · exact .refused ((hinner ..).2 hfound)
    rcases hwild : find s special with e | wild
    · exact .specialRefused ((hinner ..).2 hfound) ((hinner ..).2 hwild)
    · exact .found ((hinner ..).2 hfound) ((hinner ..).2 hwild)

omit [Weight W] in
theorem otherwise_iff :
    Otherwise inner rename special label s answer ↔
      (do
        let found ← find s label
        if found.isEmpty then return (← find s special).map rename else return found) = answer := by
  constructor
  · intro h
    rcases h with h | ⟨h, hne⟩ | ⟨h, hspecial⟩ | ⟨h, hspecial⟩
    · rw [(hinner ..).1 h]; rfl
    · rw [(hinner ..).1 h]
      exact if_neg (by simpa using hne)
    · rw [(hinner ..).1 h, (hinner ..).1 hspecial]; rfl
    · rw [(hinner ..).1 h, (hinner ..).1 hspecial]; rfl
  · rintro rfl
    rcases hfound : find s label with e | _ | ⟨arc, found⟩
    · exact .refused ((hinner ..).2 hfound)
    · rcases hwild : find s special with e | wild
      · exact .specialRefused ((hinner ..).2 hfound) ((hinner ..).2 hwild)
      · exact .special ((hinner ..).2 hfound) ((hinner ..).2 hwild)
    · exact .found ((hinner ..).2 hfound) (List.cons_ne_nil arc found)

end

/-- The bound is enough for a way of phi arcs that has led to a state by way of some others: no state is visited twice,
and those that have been left exist. -/
structure Ample (a : Automaton W) (bound : Nat) (before : List Nat) (s : Nat) : Prop where
  nodup : (s :: before).Nodup
  lt_size : ∀ t ∈ before, t < a.size
  size_lt : a.size < bound + before.length

section

variable {a : Automaton W} {bound : Nat} {before : List Nat} {s t : Nat}

omit [Weight W]

theorem ample_start (a : Automaton W) (s : Nat) : Ample a (a.size + 1) [] s :=
  ⟨List.nodup_singleton s, List.forall_mem_nil _, Nat.lt_succ_self a.size⟩

theorem Ample.exists_eq_succ (h : Ample a bound before s) : ∃ left, bound = left + 1 := by
  have hle := Automaton.length_le_size (List.nodup_cons.1 h.nodup).2 h.lt_size
  have hlt := h.size_lt
  exact Nat.exists_eq_add_one.2 (by omega)

/-- The way goes on to a new state. -/
theorem Ample.next (h : Ample a (bound + 1) before s) (hs : s < a.size) (hnew : t ∉ s :: before) :
    Ample a bound (s :: before) t where
  nodup := List.nodup_cons.2 ⟨hnew, h.nodup⟩
  lt_size := List.forall_mem_cons.2 ⟨hs, h.lt_size⟩
  size_lt := by
    have hlt := h.size_lt
    rw [List.length_cons]
    omega

end

section

variable {m : Matcher W} {inner : Lookup W} {find : Nat → Label → Except Error (List (Arc W))} {phi label : Label}
  {s bound : Nat} {before : List Nat} {weight : W} {answer : Except Error (List (Arc W))}
  (hinner : ∀ s label answer, inner s label answer ↔ find s label = answer)
  (hexists : ∀ {s label found}, find s label = .ok found → s < m.automaton.size)
include hinner hexists

/-- The search finds what the rules say. -/
theorem followPhi_eq_of_follows (hample : Ample m.automaton bound before s)
    (h : Follows inner (m.substitute phi label) phi label m.phiLoop before s weight answer) :
    m.followPhi find phi label bound (s :: before) s weight = answer := by
  induction bound generalizing before s weight with
  | zero =>
    obtain ⟨_, hzero⟩ := hample.exists_eq_succ
    cases hzero
  | succ bound ih =>
    cases h with
    | refused h =>
      rw [followPhi, (hinner ..).1 h]
      rfl
    | found h hne =>
      rw [followPhi, (hinner ..).1 h]
      exact if_neg (by simpa using hne)
    | specialRefused h hphi =>
      rw [followPhi, (hinner ..).1 h, (hinner ..).1 hphi]
      rfl
    | ends h hphi =>
      rw [followPhi, (hinner ..).1 h, (hinner ..).1 hphi]
      rfl
    | loops h hphi hself =>
      rw [followPhi, (hinner ..).1 h, (hinner ..).1 hphi]
      exact if_pos hself
    | returns h hphi hself hmem =>
      rw [followPhi, (hinner ..).1 h, (hinner ..).1 hphi]
      exact (if_neg hself).trans (if_pos (List.contains_iff_mem.2 (List.mem_cons_of_mem s hmem)))
    | goesOn h hphi hnew hrest =>
      rw [followPhi_step ((hinner ..).1 h) ((hinner ..).1 hphi) (List.ne_of_not_mem_cons hnew) hnew]
      exact ih (hample.next (hexists ((hinner ..).1 h)) hnew) hrest
    | @ambiguous _ _ _ arcs h hphi hmany =>
      rw [followPhi, (hinner ..).1 h, (hinner ..).1 hphi]
      rcases arcs with _ | ⟨x, _ | ⟨y, rest⟩⟩
      · simp at hmany
      · simp at hmany
      · rfl

/-- The rules cover what the search finds. -/
theorem follows_followPhi (hample : Ample m.automaton bound before s) :
    Follows inner (m.substitute phi label) phi label m.phiLoop before s weight
      (m.followPhi find phi label bound (s :: before) s weight) := by
  induction bound generalizing before s weight with
  | zero =>
    obtain ⟨_, hzero⟩ := hample.exists_eq_succ
    cases hzero
  | succ bound ih =>
    rcases hfound : find s label with e | _ | ⟨x, found⟩
    · rw [followPhi, hfound]
      exact .refused ((hinner ..).2 hfound)
    · have h := (hinner ..).2 hfound
      rcases hphi : find s phi with e | _ | ⟨arc, _ | ⟨y, rest⟩⟩
      · rw [followPhi, hfound, hphi]
        exact .specialRefused h ((hinner ..).2 hphi)
      · rw [followPhi, hfound, hphi]
        exact .ends h ((hinner ..).2 hphi)
      · by_cases hself : arc.target = s
        · have heq : m.followPhi find phi label (bound + 1) (s :: before) s weight =
              .ok (if m.phiLoop then [m.substitute phi label (after weight arc)] else []) := by
            rw [followPhi, hfound, hphi]
            exact if_pos hself
          exact heq ▸ .loops h ((hinner ..).2 hphi) hself
        by_cases hmem : arc.target ∈ before
        · have heq : m.followPhi find phi label (bound + 1) (s :: before) s weight = .ok [] := by
            rw [followPhi, hfound, hphi]
            exact (if_neg hself).trans (if_pos (List.contains_iff_mem.2 (List.mem_cons_of_mem _ hmem)))
          exact heq ▸ .returns h ((hinner ..).2 hphi) hself hmem
        · have hnew : arc.target ∉ s :: before := List.not_mem_cons_of_ne_of_not_mem hself hmem
          rw [followPhi_step hfound hphi hself hnew]
          exact .goesOn h ((hinner ..).2 hphi) hnew (ih (hample.next (hexists hfound) hnew))
      · rw [followPhi, hfound, hphi]
        exact .ambiguous h ((hinner ..).2 hphi) (by simp)
    · rw [followPhi, hfound]
      exact .found ((hinner ..).2 hfound) (List.cons_ne_nil x found)

end

/-- How a matcher reads its automaton. -/
def reading (m : Matcher W) : Reading W where
  exact := m.findExact
  rename := m.substitute
  phiLoop := m.phiLoop

/-- A matcher finds an answer below some layers if and only if the rules give it. -/
theorem means_iff_findLayers (m : Matcher W) (layers : List Layer) (s : Nat) (label : Label)
    (answer : Except Error (List (Arc W))) :
    m.reading.Means layers s label answer ↔ m.findLayers layers s label = answer := by
  induction layers generalizing s label answer with
  | nil => exact eq_comm
  | cons layer inner ih =>
    rw [Reading.Means, findLayers]
    by_cases hpassed : label = epsilon ∨ label = noLabel
    · rw [if_pos hpassed, if_pos hpassed, ih]
    rw [if_neg hpassed, if_neg hpassed]
    by_cases hown : label = layer.label
    · rw [if_pos hown, if_pos hown, eq_comm]
    rw [if_neg hown, if_neg hown]
    cases layer.kind with
    | sigma => exact beside_iff ih
    | rho => exact otherwise_iff ih
    | phi =>
      have hample := ample_start m.automaton s
      have hexists : ∀ {s label found}, m.findLayers inner s label = .ok found → s < m.automaton.size :=
        lt_size_of_findLayers
      refine ⟨fun h => followPhi_eq_of_follows ih hexists hample h, ?_⟩
      rintro rfl
      exact follows_followPhi ih hexists hample

end Matcher

end Transducer
