import Mathlib
import Transducer.Proofs.Composition.Numbering

/-!
# The shortest ways to composite states

A course leads from the start of a composition along steps to a composite state. The composite states are in levels,
by the number of steps of the shortest courses that lead to them (`Level`). What is on a level is led to from the
level before (`Shortest.exists_before`), and a step leads to the next level or back to one that has come already
(`Shortest.step`). So behind an empty level there is nothing (`not_level_of_le`).
-/

namespace Transducer.Composition

variable {W : Type} [Weight W] {c : Composition W} {steps : List (Step W)} {place : Place} {n k : Nat}

/-- The steps lead from the start of the composition to the composite state. -/
inductive Course (c : Composition W) : List (Step W) → Place → Prop where
  | origin {place : Place} : c.origin = some place → Course c [] place
  | step {steps : List (Step W)} {place : Place} {expansion : Expansion W} {step : Step W} :
      Course c steps place → c.Expands place expansion → step ∈ expansion.steps →
      Course c (steps ++ [step]) step.target

/-- The composite states that can be met are those to which courses lead. -/
theorem met_iff_exists_course : c.Met place ↔ ∃ steps, c.Course steps place := by
  constructor
  · intro hmet
    induction hmet with
    | origin hplace => exact ⟨[], .origin hplace⟩
    | step _ hexpands hstep ih =>
      obtain ⟨steps, hcourse⟩ := ih
      exact ⟨_, hcourse.step hexpands hstep⟩
  · rintro ⟨steps, hcourse⟩
    induction hcourse with
    | origin hplace => exact .origin hplace
    | step _ hexpands hstep ih => exact .step ih hexpands hstep

/-- The steps lead to the composite state, and no fewer do. -/
def Shortest (c : Composition W) (steps : List (Step W)) (place : Place) : Prop :=
  c.Course steps place ∧ ∀ others, c.Course others place → steps.length ≤ others.length

/-- The shortest courses to the composite state have so many steps. -/
def Level (c : Composition W) (n : Nat) (place : Place) : Prop :=
  ∃ steps, c.Shortest steps place ∧ steps.length = n

theorem Shortest.level (h : c.Shortest steps place) : c.Level steps.length place := ⟨steps, h, rfl⟩

theorem Level.unique (h : c.Level n place) (h' : c.Level k place) : n = k := by
  obtain ⟨steps, ⟨hcourse, hle⟩, rfl⟩ := h
  obtain ⟨others, ⟨hcourse', hle'⟩, rfl⟩ := h'
  exact Nat.le_antisymm (hle others hcourse') (hle' steps hcourse)

theorem Level.met (h : c.Level n place) : c.Met place := by
  obtain ⟨steps, ⟨hcourse, -⟩, -⟩ := h
  exact met_iff_exists_course.2 ⟨steps, hcourse⟩

/-- Of all courses to a composite state, some are shortest. -/
theorem Course.exists_level (h : c.Course steps place) : ∃ n ≤ steps.length, c.Level n place := by
  have hexists : ∃ n, ∃ others, c.Course others place ∧ others.length = n := ⟨_, steps, h, rfl⟩
  classical
  obtain ⟨others, hcourse, hlength⟩ := Nat.find_spec hexists
  refine ⟨_, Nat.find_min' hexists ⟨steps, h, rfl⟩, others, ⟨hcourse, fun more hmore => ?_⟩, hlength⟩
  exact hlength.trans_le (Nat.find_min' hexists ⟨more, hmore, rfl⟩)

theorem Met.exists_level (h : c.Met place) : ∃ n, c.Level n place := by
  obtain ⟨steps, hcourse⟩ := met_iff_exists_course.1 h
  obtain ⟨n, -, hlevel⟩ := hcourse.exists_level
  exact ⟨n, hlevel⟩

theorem level_zero_iff : c.Level 0 place ↔ c.origin = some place := by
  constructor
  · rintro ⟨steps, ⟨hcourse, -⟩, hlength⟩
    cases hcourse with
    | origin hplace => exact hplace
    | step => simp at hlength
  · exact fun hplace => ⟨[], ⟨.origin hplace, fun _ _ => Nat.zero_le _⟩, rfl⟩

/-- Without its last step, a shortest course is a shortest one. -/
theorem Shortest.of_step {before : List (Step W)} {expansion : Expansion W} {step : Step W}
    (h : c.Shortest (before ++ [step]) step.target) (hcourse : c.Course before place)
    (hexpands : c.Expands place expansion) (hstep : step ∈ expansion.steps) : c.Shortest before place := by
  refine ⟨hcourse, fun others hothers => ?_⟩
  have hle := h.2 _ (hothers.step hexpands hstep)
  simpa using hle

/-- A shortest course of more than no steps has a last one, from the level before. -/
theorem Shortest.exists_before (h : c.Shortest steps place) (hlength : steps.length = n + 1) :
    ∃ before source expansion step, steps = before ++ [step] ∧ c.Shortest before source ∧ before.length = n ∧
      c.Expands source expansion ∧ step ∈ expansion.steps ∧ step.target = place := by
  have hcourse := h.1
  cases hcourse with
  | origin => simp at hlength
  | @step before source expansion step hbefore hexpands hstep =>
    exact ⟨before, source, expansion, step, rfl, h.of_step hbefore hexpands hstep, by simpa using hlength, hexpands,
      hstep, rfl⟩

/-- A step leads to the next level, or to one that has come already. -/
theorem Shortest.step {expansion : Expansion W} {step : Step W} (h : c.Shortest steps place)
    (hexpands : c.Expands place expansion) (hstep : step ∈ expansion.steps)
    (hfresh : ∀ n ≤ steps.length, ¬c.Level n step.target) : c.Shortest (steps ++ [step]) step.target := by
  refine ⟨h.1.step hexpands hstep, fun others hothers => ?_⟩
  obtain ⟨n, hle, hlevel⟩ := hothers.exists_level
  have hlt : ¬n ≤ steps.length := fun hn => hfresh n hn hlevel
  rw [List.length_append, List.length_singleton]
  omega

/-- Behind a level that is empty there is nothing. -/
theorem not_level_of_le (hempty : ∀ place, ¬c.Level n place) (hle : n ≤ k) : ¬c.Level k place := by
  induction k, hle using Nat.le_induction generalizing place with
  | base => exact hempty place
  | succ k _ ih =>
    rintro ⟨steps, hshortest, hlength⟩
    obtain ⟨before, source, expansion, step, -, hbefore, rfl, -⟩ := hshortest.exists_before hlength
    exact ih hbefore.level

end Transducer.Composition
