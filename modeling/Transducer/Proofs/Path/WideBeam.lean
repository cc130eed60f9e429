import Mathlib
import Transducer.Proofs.Composition.Shortest
import Transducer.Proofs.Path.BeamSearch
import Transducer.Proofs.Weight.Exact

/-!
# A beam that is wide enough

A beam that has room for all composite states goes through them level by level, as the numbers of steps of the
shortest courses have it (`Frontier`), and leaves none out. Of the courses to a composite state it knows the cheapest
one, but only among those with the fewest steps: a composite state is admitted once, and a longer course that costs
less comes too late. So what it finds is exact (`beamSearch_of_wide`), though not always the best path.

The weights are costs without rounding, so that the order in which ways are compared has no part in what they come
to. A beam without any room is refused, even where there is nothing to be met (`refused_of_no_width`).
-/

namespace Transducer

/-! ### What is kept is not worse -/

namespace Trail

variable {K : Type} [LinearOrder K] {trail other : Trail (ExactCost K)} {trails next : List (Trail (ExactCost K))}

theorem exists_le_of_mem_offer (h : other ∈ trail :: next) :
    ∃ kept ∈ trail.offer next, kept.state = other.state ∧ kept.cost.cost ≤ other.cost.cost := by
  induction next with
  | nil => exact ⟨other, h, rfl, le_rfl⟩
  | cons first rest ih =>
    rw [offer]
    by_cases hstate : first.state = trail.state
    · rw [if_pos hstate]
      by_cases hbetter : better trail.cost first.cost
      · rw [if_pos hbetter]
        rcases List.mem_cons.1 h with rfl | h
        · exact ⟨other, List.mem_cons_self, rfl, le_rfl⟩
        · rcases List.mem_cons.1 h with rfl | h
          · exact ⟨trail, List.mem_cons_self, hstate.symm, ((ExactCost.better_iff _ _).1 hbetter).le⟩
          · exact ⟨other, List.mem_cons_of_mem _ h, rfl, le_rfl⟩
      · rw [if_neg hbetter]
        rcases List.mem_cons.1 h with rfl | h
        · exact ⟨first, List.mem_cons_self, hstate, not_lt.1 fun hlt => hbetter ((ExactCost.better_iff _ _).2 hlt)⟩
        · exact ⟨other, h, rfl, le_rfl⟩
    · rw [if_neg hstate]
      rcases List.mem_cons.1 ((List.Perm.swap first trail rest).mem_iff.1 h) with rfl | h
      · exact ⟨other, List.mem_cons_self, rfl, le_rfl⟩
      · obtain ⟨kept, hkept, hkeeps⟩ := ih h
        exact ⟨kept, List.mem_cons_of_mem _ hkept, hkeeps⟩

/-- For each way that is offered, one to the same composite state is kept that costs no more. -/
theorem exists_le_of_mem_offerAll (h : trail ∈ trails ++ next) :
    ∃ kept ∈ offerAll trails next, kept.state = trail.state ∧ kept.cost.cost ≤ trail.cost.cost := by
  induction trails generalizing next trail with
  | nil => exact ⟨trail, h, rfl, le_rfl⟩
  | cons first trails ih =>
    rcases List.mem_append.1 (List.perm_middle.mem_iff.2 h) with h | h
    · exact ih (List.mem_append_left _ h)
    · obtain ⟨kept, hkept, hstate, hle⟩ := exists_le_of_mem_offer h
      obtain ⟨last, hlast, hstate', hle'⟩ := ih (List.mem_append_right _ hkept)
      exact ⟨last, hlast, hstate'.trans hstate, hle'.trans hle⟩

/-- What the best way costs is the least of these costs. -/
def Attains (best : Option (ExactCost K × Trail (ExactCost K))) (costs : Set (WithTop K)) : Prop :=
  match best with
  | none => costs = ∅
  | some found => IsLeast costs found.1.cost

variable {best : Option (ExactCost K × Trail (ExactCost K))} {costs : Set (WithTop K)}

theorem Attains.eq_none_iff (h : Attains best costs) : best = none ↔ costs = ∅ := by
  cases best with
  | none => exact ⟨fun _ => h, fun _ => rfl⟩
  | some found =>
    have hleast : IsLeast costs found.1.cost := h
    exact ⟨nofun, fun hempty => absurd hempty hleast.nonempty.ne_empty⟩

theorem Attains.keepBest (h : Attains best costs) (found : ExactCost K × Trail (ExactCost K)) :
    Attains (Transducer.keepBest best found) (insert found.1.cost costs) := by
  cases best with
  | none =>
    rw [show costs = ∅ from h]
    simp [Attains, Transducer.keepBest]
  | some best =>
    have hleast : IsLeast costs best.1.cost := h
    rw [Transducer.keepBest]
    split
    · next hbetter =>
      have hlt := (ExactCost.better_iff _ _).1 hbetter
      have hinsert := hleast.insert found.1.cost
      rwa [min_eq_left hlt.le] at hinsert
    · next hbetter =>
      have hle := not_lt.1 fun hlt => hbetter ((ExactCost.better_iff _ _).2 hlt)
      have hinsert := hleast.insert found.1.cost
      rwa [min_eq_right hle] at hinsert

/-- What is kept of several accepting ways costs the least of what they and the best way before them cost. -/
theorem Attains.foldl_keepBest (h : Attains best costs) (all : List (ExactCost K × Trail (ExactCost K))) :
    Attains (all.foldl Transducer.keepBest best) (costs ∪ {v | ∃ found ∈ all, v = found.1.cost}) := by
  induction all generalizing best costs with
  | nil => simpa using h
  | cons found all ih =>
    have hcosts : costs ∪ {v | ∃ other ∈ found :: all, v = other.1.cost} =
        insert found.1.cost costs ∪ {v | ∃ other ∈ all, v = other.1.cost} := by
      ext v
      simp only [Set.mem_union, Set.mem_insert_iff, Set.mem_ofPred_eq, List.mem_cons, exists_eq_or_imp]
      rw [or_left_comm, or_assoc]
    rw [hcosts]
    exact ih (h.keepBest found)

end Trail

namespace Composition

open Trail

/-! ### Costs -/

/-- The composite state is final, with this weight. -/
def FinalAt {W : Type} [Weight W] (c : Composition W) (place : Place) (weight : W) : Prop :=
  ∃ expansion, c.Expands place expansion ∧ expansion.final = some weight

variable {K : Type} [AddCommGroup K] [LinearOrder K]

/-- What steps cost together. -/
def outlay (steps : List (Step (ExactCost K))) : WithTop K := (steps.map fun step => step.weight.cost).sum

omit [LinearOrder K] in
theorem outlay_append_singleton (steps : List (Step (ExactCost K))) (step : Step (ExactCost K)) :
    outlay (steps ++ [step]) = outlay steps + step.weight.cost := by
  simp [outlay]

/-- What the shortest courses to a composite state cost. -/
def costs (c : Composition (ExactCost K)) (place : Place) : Set (WithTop K) :=
  {v | ∃ steps, c.Shortest steps place ∧ v = outlay steps}

/-- What the ways come to that lead to final composite states before a level, along the cheapest of the shortest
courses. -/
def totals (c : Composition (ExactCost K)) (n : Nat) : Set (WithTop K) :=
  {v | ∃ place weight u, (∃ k < n, c.Level k place) ∧ c.FinalAt place weight ∧ IsLeast (c.costs place) u ∧
    v = u + weight.cost}

variable {c : Composition (ExactCost K)} {memo memo' : Memo (ExactCost K)} {n width : Nat} {admitted : List Nat}
  {beam : List (Trail (ExactCost K))} {best : Option (ExactCost K × Trail (ExactCost K))}

/-- The way leads to the composite state, which is on the level, and costs what the cheapest of the shortest courses
to it does. -/
structure Cheapest (c : Composition (ExactCost K)) (memo : Memo (ExactCost K)) (n : Nat) (trail : Trail (ExactCost K))
    (place : Place) : Prop where
  place_eq : memo.places[trail.state]? = some place
  level : c.Level n place
  least : IsLeast (c.costs place) trail.cost.cost

/-- What is known of the composite state to which a way leads, once it has been expanded. -/
theorem Cheapest.exists_describes {trail : Trail (ExactCost K)} {place : Place}
    (hcheapest : Cheapest c memo n trail place) (h' : Explored c memo') (hgrows : memo.Grows memo')
    (hknown : (memo'.known? trail.state).isSome = true) :
    ∃ expansion, c.Expands place expansion ∧ Describes memo'.places (memo'.stateAt trail.state) expansion := by
  obtain ⟨known, hknown⟩ := Option.isSome_iff_exists.1 hknown
  obtain ⟨other, expansion, hother, hexpand, hd⟩ := h'.expanded hknown
  obtain rfl := Option.some.inj (hother.symm.trans (hgrows.places _ _ hcheapest.place_eq))
  exact ⟨expansion, expands_of_expand hexpand, (Memo.stateAt_eq hknown).symm ▸ hd⟩

/-- What holds of a wide search when it begins a level: all composite states up to this level are admitted, the ways
of the beam are the cheapest courses to those on it, and the best way is the best one to a level before. -/
structure Frontier (c : Composition (ExactCost K)) (memo : Memo (ExactCost K)) (n : Nat) (admitted : List Nat)
    (beam : List (Trail (ExactCost K))) (best : Option (ExactCost K × Trail (ExactCost K))) : Prop where
  exists_level : ∀ id ∈ admitted, ∃ place, memo.places[id]? = some place ∧ ∃ k ≤ n, c.Level k place
  exists_admitted : ∀ k ≤ n, ∀ place, c.Level k place → ∃ id ∈ admitted, memo.places[id]? = some place
  exists_place : ∀ trail ∈ beam, ∃ place, Cheapest c memo n trail place
  exists_trail : ∀ place, c.Level n place → ∃ trail ∈ beam, Cheapest c memo n trail place
  exists_least : ∀ k < n, ∀ place, c.Level k place → ∃ u, IsLeast (c.costs place) u
  best : Attains best (c.totals n)

theorem frontier_start {start : Nat} {place : Place} (horigin : c.origin = some place)
    (hid : memo.places[start]? = some place) : Frontier c memo 0 [start] [⟨1, start, [], []⟩] none := by
  have hlevel : c.Level 0 place := level_zero_iff.2 horigin
  have hunique : ∀ {other : Place}, c.Level 0 other → other = place := fun hother =>
    Option.some.inj ((level_zero_iff.1 hother).symm.trans horigin)
  have hcheapest : Cheapest c memo 0 ⟨1, start, [], []⟩ place := by
    refine ⟨hid, hlevel, ⟨[], ⟨.origin horigin, fun _ _ => Nat.zero_le _⟩, rfl⟩, ?_⟩
    rintro v ⟨steps, hshortest, rfl⟩
    rw [List.eq_nil_of_length_eq_zero (hshortest.level.unique hlevel)]
    exact le_rfl
  refine ⟨?_, ?_, ?_, ?_, ?_, ?_⟩
  · intro id hmem
    obtain rfl := List.mem_singleton.1 hmem
    exact ⟨place, hid, 0, le_rfl, hlevel⟩
  · intro k hk other hother
    obtain rfl := Nat.le_zero.1 hk
    exact ⟨start, List.mem_singleton_self _, hunique hother ▸ hid⟩
  · intro trail hmem
    obtain rfl := List.mem_singleton.1 hmem
    exact ⟨place, hcheapest⟩
  · exact fun other hother => ⟨_, List.mem_singleton_self _, hunique hother ▸ hcheapest⟩
  · exact fun k hk => absurd hk (Nat.not_lt_zero k)
  · refine Set.eq_empty_of_forall_notMem ?_
    rintro v ⟨_, _, _, ⟨k, hk, -⟩, -⟩
    exact absurd hk (Nat.not_lt_zero k)

namespace Frontier

section

variable (h : Frontier c memo n admitted beam best) (h' : Explored c memo') (hgrows : memo.Grows memo')
  (hknown : ∀ trail ∈ beam, (memo'.known? trail.state).isSome = true)
include h h' hgrows hknown

/-- What leads on from a level is a shortest course to a composite state of the next one. -/
theorem exists_course {trail : Trail (ExactCost K)} (htrail : trail ∈ (beamLevel admitted memo' beam { best }).next) :
    ∃ place steps, memo'.places[trail.state]? = some place ∧ c.Shortest steps place ∧ steps.length = n + 1 ∧
      trail.cost.cost = outlay steps := by
  obtain ⟨before, hbefore, arc, harc, hfresh, rfl⟩ := exists_of_mem_next htrail
  obtain ⟨place, hcheapest⟩ := h.exists_place before hbefore
  obtain ⟨expansion, hexpands, -, hsteps⟩ := hcheapest.exists_describes h' hgrows (hknown before hbefore)
  obtain ⟨step, hstep, hn⟩ := exists_of_mem_right hsteps (Array.mem_toList_iff.2 harc)
  obtain ⟨steps, hshortest, hcost⟩ := hcheapest.least.1
  obtain rfl := hshortest.level.unique hcheapest.level
  refine ⟨step.target, steps ++ [step], hn.2, hshortest.step hexpands hstep fun k hk hearly => ?_, by simp, ?_⟩
  · -- what is on an earlier level has been admitted
    obtain ⟨id, hid, htarget⟩ := h.exists_admitted k hk _ hearly
    have hsame := (h'.ids_iff.2 (hgrows.places _ _ htarget)).symm.trans (h'.ids_iff.2 hn.2)
    exact hfresh (Option.some.inj hsame ▸ hid)
  · rw [outlay_append_singleton, ← hcost, hn.eq]
    rfl

variable [IsOrderedAddMonoid K]

/-- A shortest course to the next level is matched by a way that leads on and costs no more. -/
theorem exists_next {place : Place} {steps : List (Step (ExactCost K))} (hshortest : c.Shortest steps place)
    (hlength : steps.length = n + 1) :
    ∃ trail ∈ (beamLevel admitted memo' beam { best }).next, memo'.places[trail.state]? = some place ∧
      trail.cost.cost ≤ outlay steps := by
  obtain ⟨before, source, expansion, step, rfl, hbefore, rfl, hexpands, hstep, rfl⟩ :=
    hshortest.exists_before hlength
  obtain ⟨trail, htrail, hcheapest⟩ := h.exists_trail source hbefore.level
  obtain ⟨expansion', hexpands', -, hsteps⟩ := hcheapest.exists_describes h' hgrows (hknown trail htrail)
  obtain rfl := hexpands.unique hexpands'
  obtain ⟨arc, harc, hn⟩ := exists_of_mem_left hsteps hstep
  have hfresh : arc.target ∉ admitted := by
    intro hmem
    obtain ⟨early, htarget, k, hk, hlevel⟩ := h.exists_level _ hmem
    obtain rfl := Option.some.inj (hn.2.symm.trans (hgrows.places _ _ htarget))
    have hsame := hlevel.unique ⟨_, hshortest, hlength⟩
    omega
  have honward : trail.extend arc ∈ beam.flatMap fun trail => trail.onward admitted (memo'.stateAt trail.state) :=
    List.mem_flatMap.2 ⟨trail, htrail, mem_onward.2 ⟨arc, Array.mem_toList_iff.1 harc, hfresh, rfl⟩⟩
  obtain ⟨kept, hkept, hstate, hle⟩ := exists_le_of_mem_offerAll (List.mem_append_left [] honward)
  refine ⟨kept, hkept, hstate ▸ hn.2, hle.trans ?_⟩
  calc
    (trail.extend arc).cost.cost = trail.cost.cost + step.weight.cost := by rw [hn.eq]; rfl
    _ ≤ outlay before + step.weight.cost := add_le_add_left (hcheapest.least.2 ⟨before, hbefore, rfl⟩) _
    _ = outlay (before ++ [step]) := (outlay_append_singleton before step).symm

/-- What leads on from a level are the cheapest of the shortest courses to the next one. -/
theorem exists_cheapest {trail : Trail (ExactCost K)}
    (htrail : trail ∈ (beamLevel admitted memo' beam { best }).next) :
    ∃ place, Cheapest c memo' (n + 1) trail place := by
  obtain ⟨place, steps, hplace, hshortest, hlength, hcost⟩ := h.exists_course h' hgrows hknown htrail
  refine ⟨place, hplace, ⟨steps, hshortest, hlength⟩, ⟨steps, hshortest, hcost⟩, ?_⟩
  rintro v ⟨others, hothers, rfl⟩
  have hsame : others.length = n + 1 := hothers.level.unique ⟨steps, hshortest, hlength⟩
  obtain ⟨kept, hkept, hkeeps, hle⟩ := h.exists_next h' hgrows hknown hothers hsame
  -- the next level has one way to the composite state
  have hstate : kept.state = trail.state := Option.some.inj ((h'.ids_iff.2 hkeeps).symm.trans (h'.ids_iff.2 hplace))
  rwa [List.inj_on_of_nodup_map (nodup_next admitted memo' beam best) hkept htrail hstate] at hle

/-- There is a cheapest way to each composite state of the next level. -/
theorem exists_cheapest_of_level {place : Place} (hlevel : c.Level (n + 1) place) :
    ∃ trail ∈ (beamLevel admitted memo' beam { best }).next, Cheapest c memo' (n + 1) trail place := by
  obtain ⟨steps, hshortest, hlength⟩ := hlevel
  obtain ⟨trail, htrail, hplace, -⟩ := h.exists_next h' hgrows hknown hshortest hlength
  obtain ⟨other, hcheapest⟩ := h.exists_cheapest h' hgrows hknown htrail
  obtain rfl := Option.some.inj (hplace.symm.trans hcheapest.place_eq)
  exact ⟨trail, htrail, hcheapest⟩

omit [IsOrderedAddMonoid K] in
/-- What a level adds to the totals is what the ways come to that end there. -/
theorem totals_succ : c.totals (n + 1) = c.totals n ∪
    {v | ∃ found ∈ beam.flatMap fun trail => trail.ended (memo'.stateAt trail.state), v = found.1.cost} := by
  ext v
  constructor
  · rintro ⟨place, weight, u, ⟨k, hk, hlevel⟩, ⟨expansion, hexpands, hfinal⟩, hleast, rfl⟩
    rcases Nat.lt_succ_iff_lt_or_eq.1 hk with hk | rfl
    · exact .inl ⟨place, weight, u, ⟨k, hk, hlevel⟩, ⟨expansion, hexpands, hfinal⟩, hleast, rfl⟩
    · obtain ⟨trail, htrail, hcheapest⟩ := h.exists_trail place hlevel
      obtain ⟨expansion', hexpands', hd, -⟩ := hcheapest.exists_describes h' hgrows (hknown trail htrail)
      obtain rfl := hexpands.unique hexpands'
      refine .inr ⟨(trail.cost * weight, trail), List.mem_flatMap.2 ⟨trail, htrail, ?_⟩, ?_⟩
      · exact mem_ended.2 ⟨weight, hd.trans hfinal, rfl⟩
      · rw [hleast.unique hcheapest.least]
        rfl
  · rintro (⟨place, weight, u, ⟨k, hk, hlevel⟩, hrest⟩ | ⟨found, hfound, rfl⟩)
    · exact ⟨place, weight, u, ⟨k, hk.trans (Nat.lt_succ_self n), hlevel⟩, hrest⟩
    · obtain ⟨trail, htrail, hended⟩ := List.mem_flatMap.1 hfound
      obtain ⟨weight, hfinal, rfl⟩ := mem_ended.1 hended
      obtain ⟨place, hcheapest⟩ := h.exists_place trail htrail
      obtain ⟨expansion, hexpands, hd, -⟩ := hcheapest.exists_describes h' hgrows (hknown trail htrail)
      exact ⟨place, weight, trail.cost.cost, ⟨n, Nat.lt_succ_self n, hcheapest.level⟩,
        ⟨expansion, hexpands, hd.symm.trans hfinal⟩, hcheapest.least, rfl⟩

/-- A level that is not cut off leads to the frontier at the next one. -/
theorem next (hchosen : ((beamLevel admitted memo' beam { best }).chosen width).Perm
      (beamLevel admitted memo' beam { best }).next) :
    Frontier c memo' (n + 1) (admitted ++ ((beamLevel admitted memo' beam { best }).chosen width).map (·.state))
      ((beamLevel admitted memo' beam { best }).chosen width) (beamLevel admitted memo' beam { best }).best where
  exists_level := by
    intro id hid
    rcases List.mem_append.1 hid with hid | hid
    · obtain ⟨place, hplace, k, hk, hlevel⟩ := h.exists_level id hid
      exact ⟨place, hgrows.places _ _ hplace, k, hk.trans (Nat.le_succ n), hlevel⟩
    · obtain ⟨trail, htrail, rfl⟩ := List.mem_map.1 hid
      obtain ⟨place, hcheapest⟩ := h.exists_cheapest h' hgrows hknown (hchosen.mem_iff.1 htrail)
      exact ⟨place, hcheapest.place_eq, n + 1, le_rfl, hcheapest.level⟩
  exists_admitted := by
    intro k hk place hlevel
    rcases Nat.le_succ_iff.1 hk with hk | rfl
    · obtain ⟨id, hid, hplace⟩ := h.exists_admitted k hk place hlevel
      exact ⟨id, List.mem_append_left _ hid, hgrows.places _ _ hplace⟩
    · obtain ⟨trail, htrail, hcheapest⟩ := h.exists_cheapest_of_level h' hgrows hknown hlevel
      have hmem := List.mem_map_of_mem (f := (·.state)) (hchosen.mem_iff.2 htrail)
      exact ⟨_, List.mem_append_right _ hmem, hcheapest.place_eq⟩
  exists_place := fun trail htrail => h.exists_cheapest h' hgrows hknown (hchosen.mem_iff.1 htrail)
  exists_trail := by
    intro place hlevel
    obtain ⟨trail, htrail, hcheapest⟩ := h.exists_cheapest_of_level h' hgrows hknown hlevel
    exact ⟨trail, hchosen.mem_iff.2 htrail, hcheapest⟩
  exists_least := by
    intro k hk place hlevel
    rcases Nat.lt_succ_iff_lt_or_eq.1 hk with hk | rfl
    · exact h.exists_least k hk place hlevel
    · obtain ⟨trail, -, hcheapest⟩ := h.exists_trail place hlevel
      exact ⟨_, hcheapest.least⟩
  best := by
    rw [h.totals_succ h' hgrows hknown]
    exact h.best.foldl_keepBest _

/-- If the beam has room for all composite states that can be met, no level is cut off. -/
theorem length_next_le (hfinite : {place | c.Met place}.Finite) (hwidth : {place | c.Met place}.ncard ≤ width) :
    (beamLevel admitted memo' beam { best }).next.length ≤ width := by
  have hle := h'.length_le_ncard (nodup_next admitted memo' beam best) hfinite fun id hid => by
    obtain ⟨trail, htrail, rfl⟩ := List.mem_map.1 hid
    obtain ⟨place, hcheapest⟩ := h.exists_cheapest h' hgrows hknown htrail
    exact ⟨place, hcheapest.place_eq, hcheapest.level.met⟩
  rw [List.length_map] at hle
  exact hle.trans hwidth

end

end Frontier

/-! ### The search -/

variable [IsOrderedAddMonoid K]

/-- A wide search goes on until there are no more levels. -/
theorem Searches.exists_frontier {result : EStateM.Result Error (Memo (ExactCost K))
      (Option (ExactCost K × Trail (ExactCost K)))} (hsearches : Searches c width admitted beam best memo result)
    (h : Explored c memo) (hfrontier : Frontier c memo n admitted beam best) (hstuck : ¬c.Stuck)
    (hwidth : {place | c.Met place}.ncard ≤ width) :
    ∃ last memo' n admitted, result = .ok last memo' ∧ Frontier c memo' n admitted [] last := by
  induction hsearches generalizing n with
  | @done admitted best memo => exact ⟨best, memo, n, admitted, rfl, hfrontier⟩
  | @refused admitted beam best trail e memo memo' hgrows htrail hnot =>
    obtain ⟨place, hcheapest⟩ := hfrontier.exists_place trail htrail
    have hplace := hgrows.places _ _ hcheapest.place_eq
    exact absurd ⟨place, hcheapest.level.met, fun expansion => hnot place expansion hplace⟩ hstuck
  | next h' hgrows hknown _ ih =>
    have hle := hfrontier.length_next_le h' hgrows hknown (finite_met hstuck) hwidth
    exact ih h' (hfrontier.next h' hgrows hknown (TrailLevel.perm_chosen hle))

omit [IsOrderedAddMonoid K] in
/-- When there are no more levels, all that can be met is on a level before. -/
theorem Frontier.exists_level_lt (h : Frontier c memo n admitted [] best) {place : Place} (hmet : c.Met place) :
    ∃ k < n, c.Level k place := by
  have hempty : ∀ place, ¬c.Level n place := by
    intro place hlevel
    obtain ⟨trail, htrail, -⟩ := h.exists_trail place hlevel
    cases htrail
  obtain ⟨k, hlevel⟩ := hmet.exists_level
  exact ⟨k, Nat.lt_of_not_le fun hle => not_level_of_le hempty hle hlevel, hlevel⟩

omit [IsOrderedAddMonoid K] in
/-- When there are no more levels, the best way is the best one to any final composite state. -/
theorem Frontier.outcome (h : Frontier c memo n admitted [] best) :
    (best = none ↔ ∀ place weight, c.Met place → ¬c.FinalAt place weight) ∧
    ∃ least : Place → WithTop K, (∀ place, c.Met place → IsLeast (c.costs place) (least place)) ∧
      ∀ found, best = some found →
        IsLeast {v | ∃ place weight, c.Met place ∧ c.FinalAt place weight ∧ v = least place + weight.cost}
          found.1.cost := by
  have hleast : ∀ place, c.Met place → ∃ u, IsLeast (c.costs place) u := by
    intro place hmet
    obtain ⟨k, hk, hlevel⟩ := h.exists_level_lt hmet
    exact h.exists_least k hk place hlevel
  choose! least hleast using hleast
  have htotals : c.totals n =
      {v | ∃ place weight, c.Met place ∧ c.FinalAt place weight ∧ v = least place + weight.cost} := by
    ext v
    constructor
    · rintro ⟨place, weight, u, ⟨k, -, hlevel⟩, hfinal, hu, rfl⟩
      exact ⟨place, weight, hlevel.met, hfinal, by rw [hu.unique (hleast place hlevel.met)]⟩
    · rintro ⟨place, weight, hmet, hfinal, rfl⟩
      exact ⟨place, weight, least place, h.exists_level_lt hmet, hfinal, hleast place hmet, rfl⟩
  have hbest := h.best
  rw [htotals] at hbest
  refine ⟨hbest.eq_none_iff.trans ⟨fun hempty place weight hmet hfinal => ?_, fun hnone => ?_⟩, least, hleast,
    fun found hfound => ?_⟩
  · exact Set.eq_empty_iff_forall_notMem.1 hempty _ ⟨place, weight, hmet, hfinal, rfl⟩
  · refine Set.eq_empty_of_forall_notMem ?_
    rintro v ⟨place, weight, hmet, hfinal, -⟩
    exact hnone place weight hmet hfinal
  · rw [hfound] at hbest
    exact hbest

/-- A wide search that nothing refuses finds what is to be found. -/
theorem BeamSearches.outcome {result : EStateM.Result Error (Memo (ExactCost K)) (Option (BeamPath (ExactCost K)))}
    (hends : BeamSearches c width memo result) (h : Explored c memo) (hstuck : ¬c.Stuck)
    (hwidth : {place | c.Met place}.ncard ≤ width) :
    ∃ found memo', result = .ok found memo' ∧
      (found = none ↔ ∀ place weight, c.Met place → ¬c.FinalAt place weight) ∧
      ∃ least : Place → WithTop K, (∀ place, c.Met place → IsLeast (c.costs place) (least place)) ∧
        ∀ path, found = some path →
          IsLeast {v | ∃ place weight, c.Met place ∧ c.FinalAt place weight ∧ v = least place + weight.cost}
            path.weight.cost := by
  cases hends with
  | @unstarted memo' hnone =>
    obtain ⟨horigin, -⟩ | ⟨_, _, _, -, heq, -⟩ := start_spec h
    · have hmet := not_met_of_origin_eq_none horigin
      refine ⟨none, memo', rfl, ?_, fun _ => 0, fun place h => absurd h (hmet place), nofun⟩
      exact ⟨fun _ place _ h => absurd h (hmet place), fun _ => rfl⟩
    · cases hnone.symm.trans heq
  | found hstart hsearches =>
    obtain ⟨place, horigin, h', -, hid⟩ := h.of_start hstart
    obtain ⟨_, _, n, admitted, hlast, hfrontier⟩ :=
      hsearches.exists_frontier h' (frontier_start horigin hid) hstuck hwidth
    obtain ⟨rfl, rfl⟩ := EStateM.Result.ok.inj hlast
    obtain ⟨hnone, least, hleast, hbest⟩ := hfrontier.outcome
    refine ⟨_, _, rfl, Option.map_eq_none_iff.trans hnone, least, hleast, fun path hpath => ?_⟩
    obtain ⟨found, hfound, rfl⟩ := Option.map_eq_some_iff.1 hpath
    exact hbest found hfound
  | refused hstart hsearches =>
    -- a search is refused only where something cannot be expanded
    obtain ⟨place, horigin, h', -, hid⟩ := h.of_start hstart
    obtain ⟨_, _, _, _, hlast, -⟩ := hsearches.exists_frontier h' (frontier_start horigin hid) hstuck hwidth
    cases hlast

/-- All that can be met behind the fork has room in a beam of ten composite states, and some of it is final. -/
theorem exists_build_fork : ∃ c operands, build {} (fork, turnstile) = .ok c operands ∧ ¬c.Stuck ∧
    {place | c.Met place}.ncard ≤ 10 ∧ ∃ place weight, c.Met place ∧ c.FinalAt place weight := by
  have hplan : Options.plan {} = .ok .perState := rfl
  have hleft : fork.WellFormed := by decide
  have hright : turnstile.WellFormed := by decide
  have hfork : fork.CacheSound := PropertyCache.sound_empty _
  have hturnstile : turnstile.CacheSound := PropertyCache.sound_empty _
  obtain ⟨left, right, hbuild⟩ := exists_build hfork hturnstile hplan rfl rfl rfl
  have hplain := plain_of (a := fork) (b := turnstile) hplan rfl rfl
    (Automaton.forall_mem_arcsAt_iff.2 (by decide)) (Automaton.forall_mem_arcsAt_iff.2 (by decide)) left right
  obtain ⟨r, memo, -, hcompletes⟩ := hplain.exists_completes ⟨hleft.start_lt, hleft.target_lt, hleft.isZero_final⟩
    ⟨hright.start_lt, hright.target_lt, hright.isZero_final⟩
  have hwidth : {place | ((of {} .perState fork turnstile).withCaches left right).Met place}.ncard ≤ 10 := by
    have hrange := finite_inRange ((of {} .perState fork turnstile).withCaches left right)
    exact (Set.ncard_le_ncard (fun place hmet => hmet.inRange ⟨hleft.start_lt, hleft.target_lt⟩
      ⟨hright.start_lt, hright.target_lt⟩) hrange.1).trans hrange.2
  have hexpands (place : Place) (expansion : Expansion (ExactCost ℤ))
      (h : (of {} .perState fork turnstile).expand 0 place = .ok expansion) :
      ((of {} .perState fork turnstile).withCaches left right).Expands place expansion := by
    rw [← expand_withCaches _ left right] at h
    exact expands_of_expand h
  have hstart : ((of {} .perState fork turnstile).withCaches left right).Met ⟨0, 0, .either⟩ := .origin rfl
  have hfirst := hstart.step
    (hexpands _ ⟨none, [⟨1, 5, ⟨1⟩, ⟨1, 0, .either⟩⟩, ⟨2, 6, ⟨1⟩, ⟨2, 0, .either⟩⟩]⟩ (by cbv)) List.mem_cons_self
  have hsecond := hfirst.step (hexpands _ ⟨none, [⟨3, 7, ⟨1⟩, ⟨3, 0, .either⟩⟩]⟩ (by cbv)) List.mem_cons_self
  exact ⟨_, _, hbuild, hcompletes.not_stuck, hwidth, _, 1, hsecond, ⟨some 1, []⟩, hexpands _ _ (by cbv), rfl⟩

/-- If a beam has room for all composite states that can be met and all of them can be expanded, a search gives
nothing just where no final composite state can be met. Else it gives a path whose weight is the least of all sums
of two costs: that of a final composite state, and that of the cheapest course to it among those with the fewest
steps, which may cost more than a longer one. -/
theorem beamSearch_of_wide (hstuck : ¬c.Stuck) (calls : List Call) (hpos : 0 < width)
    (hwidth : {place | c.Met place}.ncard ≤ width) :
    ∃ found memo, c.beamSearch width (c.after calls) = .ok found memo ∧
      (found = none ↔ ∀ place weight, c.Met place → ¬c.FinalAt place weight) ∧
      ∃ least : Place → WithTop K, (∀ place, c.Met place → IsLeast (c.costs place) (least place)) ∧
        ∀ path, found = some path →
          IsLeast {v | ∃ place weight, c.Met place ∧ c.FinalAt place weight ∧ v = least place + weight.cost}
            path.weight.cost := by
  have h := explored_after (c := c) calls
  exact (finds_and_beamSearches h hpos).2.outcome h hstuck hwidth

theorem beamSearch_of_wide_fork : ∃ c operands, build {} (fork, turnstile) = .ok c operands ∧ ¬c.Stuck ∧ 0 < 10 ∧
    {place | c.Met place}.ncard ≤ 10 ∧
    ∃ found memo, c.beamSearch 10 (c.after [.arcs 0]) = .ok found memo ∧
      (found = none ↔ ∀ place weight, c.Met place → ¬c.FinalAt place weight) ∧
      ∃ least : Place → WithTop ℤ, (∀ place, c.Met place → IsLeast (c.costs place) (least place)) ∧
        ∀ path, found = some path →
          IsLeast {v | ∃ place weight, c.Met place ∧ c.FinalAt place weight ∧ v = least place + weight.cost}
            path.weight.cost := by
  obtain ⟨c, operands, hbuild, hstuck, hwidth, -⟩ := exists_build_fork
  exact ⟨c, operands, hbuild, hstuck, by decide, hwidth, beamSearch_of_wide hstuck [.arcs 0] (by decide) hwidth⟩

/-- A beam without room is refused even if there is nothing to be met. -/
theorem refused_of_no_width : ∃ (c : Composition (ExactCost ℤ)) (operands : _), build {} ({}, {}) = .ok c operands ∧
    ¬c.Stuck ∧ {place | c.Met place}.ncard ≤ 0 ∧ (∀ place weight, c.Met place → ¬c.FinalAt place weight) ∧
    c.beamSearch 0 (c.after []) = .error (.config .emptyBeam) {} := by
  have hcache : Automaton.CacheSound ({} : Automaton (ExactCost ℤ)) := PropertyCache.sound_empty _
  have hplan : Options.plan {} = .ok .perState := rfl
  obtain ⟨left, right, hbuild⟩ := exists_build hcache hcache hplan rfl rfl rfl
  have hmet : ∀ place, ¬((of {} .perState ({} : Automaton (ExactCost ℤ)) {}).withCaches left right).Met place :=
    not_met_of_origin_eq_none rfl
  have hnowhere : {place | ((of {} .perState ({} : Automaton (ExactCost ℤ)) {}).withCaches left right).Met place} = ∅ :=
    Set.eq_empty_of_forall_notMem hmet
  refine ⟨_, _, hbuild, ?_, ?_, fun place _ h => absurd h (hmet place), rfl⟩
  · rintro ⟨place, h, -⟩
    exact hmet place h
  · rw [hnowhere, Set.ncard_empty]

end Composition

end Transducer
