import Mathlib
import Transducer.Proofs.Composition.Exploration
import Transducer.Proofs.Path.Trail

/-!
# A level of a beam search

A level of the search asks for the composite states of its beam, one after the other. What it makes of the answers does
not depend on what is asked for in between, since nothing that is known changes later: unless a composite state cannot
be expanded, a level comes to `beamLevel` of the weights and arcs that are known when it ends. It keeps the first of
the best of all ways that end there, and of all that lead on one for each composite state (`Trail.offerAll`).

This is said of the trails to the composite states of the beam. The search has only what is kept of each composite
state that has been admitted, and that is enough to go by (`foldlM_advance_spec`).
-/

namespace Transducer

/-- What one level finds, with all of the ways. -/
structure TrailLevel (W : Type) where
  best : Option (W × Trail W)
  next : List (Trail W) := []

/-! ### The best of what is found -/

section

variable {W α β : Type} [Ranked W] {best : Option (W × α)} {found last : W × α}

theorem keepBest_eq_or_eq (best : Option (W × α)) (found : W × α) :
    keepBest best found = some found ∨ keepBest best found = best := by
  cases best with
  | none => exact .inl rfl
  | some best =>
    rw [keepBest]
    split
    · exact .inl rfl
    · exact .inr rfl

theorem mem_or_eq_of_foldl_keepBest {all : List (W × α)} (h : all.foldl keepBest best = some last) :
    last ∈ all ∨ best = some last := by
  induction all generalizing best with
  | nil => exact .inr h
  | cons found all ih =>
    rcases ih h with h | h
    · exact .inl (List.mem_cons_of_mem _ h)
    · rcases keepBest_eq_or_eq best found with heq | heq
      · obtain rfl := Option.some.inj (heq.symm.trans h)
        exact .inl List.mem_cons_self
      · exact .inr (heq.symm.trans h)

/-- Only the totals are compared. -/
theorem map_keepBest (f : α → β) (best : Option (W × α)) (found : W × α) :
    (keepBest best found).map (Prod.map id f) = keepBest (best.map (Prod.map id f)) (Prod.map id f found) := by
  cases best with
  | none => rfl
  | some best =>
    simp only [keepBest, Option.map_some, Prod.map_fst, id_eq]
    split <;> rfl

end

namespace Trail

variable {W : Type}

/-! ### Ways that are offered -/

section

variable [Ranked W] {trail other : Trail W} {trails next : List (Trail W)}

/-- The first of the cheapest ways to each composite state, with one more way. -/
def offer (trail : Trail W) : List (Trail W) → List (Trail W)
  | [] => [trail]
  | other :: rest =>
    if other.state = trail.state then
      (if better trail.cost other.cost then trail else other) :: rest
    else other :: offer trail rest

/-- A way that is offered takes the place of another one to the same composite state, or a place of its own. -/
theorem states_offer (trail : Trail W) (next : List (Trail W)) :
    (trail.offer next).map (·.state) =
      if trail.state ∈ next.map (·.state) then next.map (·.state) else next.map (·.state) ++ [trail.state] := by
  induction next with
  | nil => rfl
  | cons other rest ih =>
    by_cases hstate : other.state = trail.state
    · by_cases hbetter : better trail.cost other.cost
      · simp [offer, hstate, hbetter]
      · simp [offer, hstate, hbetter]
    · simp only [offer, hstate, if_false, List.map_cons, ih, List.mem_cons, Ne.symm hstate, false_or]
      split <;> rfl

theorem nodup_offer (trail : Trail W) (h : (next.map (·.state)).Nodup) :
    ((trail.offer next).map (·.state)).Nodup := by
  rw [states_offer]
  split
  · exact h
  · next hnew => exact h.append (List.nodup_singleton _) (List.disjoint_singleton.2 hnew)

theorem eq_or_mem_of_mem_offer (h : other ∈ trail.offer next) : other = trail ∨ other ∈ next := by
  induction next with
  | nil => exact .inl (List.mem_singleton.1 h)
  | cons first rest ih =>
    rw [offer] at h
    split at h
    · rcases List.mem_cons.1 h with rfl | h
      · split
        · exact .inl rfl
        · exact .inr List.mem_cons_self
      · exact .inr (List.mem_cons_of_mem _ h)
    · rcases List.mem_cons.1 h with rfl | h
      · exact .inr List.mem_cons_self
      · exact (ih h).imp_right (List.mem_cons_of_mem _)

/-- What is kept when some ways are offered one after the other. -/
def offerAll (trails next : List (Trail W)) : List (Trail W) := trails.foldl (fun next trail => trail.offer next) next

theorem nodup_offerAll (trails : List (Trail W)) (h : (next.map (·.state)).Nodup) :
    ((offerAll trails next).map (·.state)).Nodup := by
  induction trails generalizing next with
  | nil => exact h
  | cons trail trails ih => exact ih (nodup_offer trail h)

theorem mem_or_mem_of_mem_offerAll (h : trail ∈ offerAll trails next) : trail ∈ trails ∨ trail ∈ next := by
  induction trails generalizing next with
  | nil => exact .inr h
  | cons first trails ih =>
    rcases ih h with h | h
    · exact .inl (List.mem_cons_of_mem _ h)
    · rcases eq_or_mem_of_mem_offer h with rfl | h
      · exact .inl List.mem_cons_self
      · exact .inr h

end

/-! ### What one way comes to -/

section

variable [Weight W] {trail other : Trail W} {known : State W}

/-- The ways one arc further, to composite states that have not been admitted. -/
def onward (trail : Trail W) (admitted : List Nat) (known : State W) : List (Trail W) :=
  (known.arcs.toList.filter fun arc => !admitted.contains arc.target).map trail.extend

theorem mem_onward {admitted : List Nat} :
    other ∈ trail.onward admitted known ↔ ∃ arc ∈ known.arcs, arc.target ∉ admitted ∧ trail.extend arc = other := by
  simp only [onward, List.mem_map, List.mem_filter, Array.mem_toList_iff, List.contains_eq_mem, Bool.not_eq_true',
    decide_eq_false_iff_not, and_assoc]

/-- The way with what it costs in all, if it ends at a final state. -/
def ended (trail : Trail W) (known : State W) : List (W × Trail W) :=
  (known.final.map fun weight => (trail.cost * weight, trail)).toList

theorem mem_ended {found : W × Trail W} :
    found ∈ trail.ended known ↔ ∃ weight, known.final = some weight ∧ (trail.cost * weight, trail) = found := by
  simp [ended]

end

end Trail

namespace Composition

variable {W : Type}

/-- What is known of a composite state that is expanded. -/
def Memo.stateAt (memo : Memo W) (id : Nat) : Known W := (memo.known? id).getD {}

theorem Memo.stateAt_eq {memo : Memo W} {id : Nat} {known : Known W} (h : memo.known? id = some known) :
    memo.stateAt id = known := by
  rw [stateAt, h]
  rfl

variable [Weight W] [Ranked W] {c : Composition W} {memo memo' : Memo W} {admitted : List Nat}
  {beam : List (Trail W)} {level : TrailLevel W}

/-- What comes of a level, given the weights and the arcs of the composite states at the ends of its ways. -/
def beamLevel (admitted : List Nat) (memo : Memo W) (beam : List (Trail W)) (level : TrailLevel W) : TrailLevel W where
  best := (beam.flatMap fun trail => trail.ended (memo.stateAt trail.state)).foldl keepBest level.best
  next := Trail.offerAll (beam.flatMap fun trail => trail.onward admitted (memo.stateAt trail.state)) level.next

theorem beamLevel_cons (admitted : List Nat) (memo : Memo W) (trail : Trail W) (beam : List (Trail W))
    (level : TrailLevel W) :
    beamLevel admitted memo (trail :: beam) level =
      beamLevel admitted memo beam (beamLevel admitted memo [trail] level) := by
  simp [beamLevel, Trail.offerAll, List.foldl_append]

/-- What is known of a composite state that is expanded does not change, so a level may be seen from later on. -/
theorem beamLevel_singleton_of_grows (hgrows : memo.Grows memo') {trail : Trail W} {known : Known W}
    (hknown : memo.known? trail.state = some known) :
    beamLevel admitted memo' [trail] level = beamLevel admitted memo [trail] level := by
  simp only [beamLevel, List.flatMap_cons, List.flatMap_nil, Memo.stateAt_eq hknown,
    Memo.stateAt_eq (hgrows.known hknown)]

/-- What leads on from a level is a way of the level and an arc to a composite state that has not been admitted. -/
theorem exists_of_mem_next {best : Option (W × Trail W)} {trail : Trail W}
    (h : trail ∈ (beamLevel admitted memo beam { best }).next) :
    ∃ before ∈ beam, ∃ arc ∈ (memo.stateAt before.state).arcs, arc.target ∉ admitted ∧ before.extend arc = trail := by
  obtain hmem | hmem := Trail.mem_or_mem_of_mem_offerAll h
  · obtain ⟨before, hbefore, honward⟩ := List.mem_flatMap.1 hmem
    exact ⟨before, hbefore, Trail.mem_onward.1 honward⟩
  · cases hmem

/-- The best accepting way is one that ends in the level, or it is known from before. -/
theorem exists_or_eq_of_best {best : Option (W × Trail W)} {found : W × Trail W}
    (h : (beamLevel admitted memo beam { best }).best = some found) :
    (∃ trail ∈ beam, ∃ weight, (memo.stateAt trail.state).final = some weight ∧
      (trail.cost * weight, trail) = found) ∨ best = some found := by
  refine (mem_or_eq_of_foldl_keepBest h).imp_left fun hmem => ?_
  obtain ⟨trail, htrail, hended⟩ := List.mem_flatMap.1 hmem
  exact ⟨trail, htrail, Trail.mem_ended.1 hended⟩

theorem nodup_next (admitted : List Nat) (memo : Memo W) (beam : List (Trail W)) (best : Option (W × Trail W)) :
    ((beamLevel admitted memo beam { best }).next.map (·.state)).Nodup :=
  Trail.nodup_offerAll _ List.nodup_nil

end Composition

/-! ### The ways of the next level -/

namespace Trail

/-- Whether the first way comes before the second: it is cheaper, or as cheap and to a lower composite state. -/
def precedes {W : Type} [Ranked W] (trail other : Trail W) : Bool :=
  better trail.cost other.cost || (!better other.cost trail.cost && trail.state ≤ other.state)

end Trail

namespace TrailLevel

variable {W : Type} [Ranked W] {level : TrailLevel W} {width : Nat}

/-- The ways that lead on, as many as the width allows, the best ones first. -/
def chosen (level : TrailLevel W) (width : Nat) : List (Trail W) :=
  (level.next.mergeSort Trail.precedes).take width

theorem mem_next_of_mem_chosen {trail : Trail W} (h : trail ∈ level.chosen width) : trail ∈ level.next :=
  (List.mergeSort_perm _ _).mem_iff.1 (List.mem_of_mem_take h)

theorem nodup_chosen (h : (level.next.map (·.state)).Nodup) : ((level.chosen width).map (·.state)).Nodup := by
  have hsorted := (((List.mergeSort_perm level.next Trail.precedes).map (·.state)).nodup_iff).2 h
  exact hsorted.sublist ((List.take_sublist _ _).map _)

/-- If the width allows for all of the ways, all of them are chosen. -/
theorem perm_chosen (h : level.next.length ≤ width) : (level.chosen width).Perm level.next := by
  rw [chosen, List.take_of_length_le ((List.length_mergeSort _).trans_le h)]
  exact List.mergeSort_perm _ _

end TrailLevel

/-! ### Levels of what is kept -/

namespace Approach

variable {W : Type} [Weight W] [Ranked W] {way : Nat → Trail W} {approach other : Approach W}
  {next : List (Approach W)}

/-- It is enough to compare what approaches cost. -/
theorem map_offer (hcost : approach.cost = (approach.trail way).cost)
    (hnext : ∀ other ∈ next, other.cost = (other.trail way).cost) :
    (approach.offer next).map (trail way) = (approach.trail way).offer (next.map (trail way)) := by
  induction next with
  | nil => rfl
  | cons other rest ih =>
    obtain ⟨hother, hrest⟩ := List.forall_mem_cons.1 hnext
    have htarget : ∀ approach : Approach W, (approach.trail way).state = approach.arc.target := fun _ => rfl
    simp only [offer, Trail.offer, List.map_cons, htarget, ← hcost, ← hother]
    split
    · split <;> rfl
    · rw [List.map_cons, ih hrest]

omit [Weight W] in
theorem eq_or_mem_of_mem_offer (h : other ∈ approach.offer next) : other = approach ∨ other ∈ next := by
  induction next with
  | nil => exact .inl (List.mem_singleton.1 h)
  | cons first rest ih =>
    rw [offer] at h
    split at h
    · rcases List.mem_cons.1 h with rfl | h
      · split
        · exact .inl rfl
        · exact .inr List.mem_cons_self
      · exact .inr (List.mem_cons_of_mem _ h)
    · rcases List.mem_cons.1 h with rfl | h
      · exact .inr List.mem_cons_self
      · exact (ih h).imp_right (List.mem_cons_of_mem _)

/-- The order of approaches is that of their trails. -/
theorem map_mergeSort (hnext : ∀ other ∈ next, other.cost = (other.trail way).cost) :
    (next.mergeSort precedes).map (trail way) = (next.map (trail way)).mergeSort Trail.precedes := by
  refine List.map_mergeSort fun first hfirst second hsecond => ?_
  rw [precedes, hnext first hfirst, hnext second hsecond]
  rfl

/-- The arcs of one composite state are offered as the ways along them are. -/
theorem leaves_and_map_foldl_offer {kept : Std.HashMap Nat (Admitted W)} {id : Nat} {cost : W} (hid : id ∈ kept)
    (hcost : cost = (way id).cost) (arcs : List (Arc W)) (hnext : ∀ other ∈ next, other.Leaves kept way) :
    (∀ other ∈ arcs.foldl (fun next arc => offer ⟨cost * arc.weight, id, arc⟩ next) next, other.Leaves kept way) ∧
      (arcs.foldl (fun next arc => offer ⟨cost * arc.weight, id, arc⟩ next) next).map (trail way) =
        Trail.offerAll (arcs.map (way id).extend) (next.map (trail way)) := by
  subst hcost
  induction arcs generalizing next with
  | nil => exact ⟨hnext, rfl⟩
  | cons arc arcs ih =>
    have hleaves : Leaves kept way ⟨(way id).cost * arc.weight, id, arc⟩ := ⟨hid, rfl⟩
    obtain ⟨hall, hmap⟩ := ih fun other hmem =>
      (eq_or_mem_of_mem_offer hmem).elim (fun heq => heq ▸ hleaves) (hnext other)
    refine ⟨hall, hmap.trans ?_⟩
    rw [map_offer hleaves.cost_eq fun other hmem => (hnext other hmem).cost_eq]
    rfl

end Approach

namespace BeamLevel

variable {W : Type} [Weight W] [Ranked W] {way : Nat → Trail W} {kept : Std.HashMap Nat (Admitted W)}
  {level : BeamLevel W} {admitted : List Nat} {entry : Admitted W} {state : Nat}

/-- The level with all of the ways. -/
def trails (way : Nat → Trail W) (level : BeamLevel W) : TrailLevel W where
  best := level.best.map (Prod.map id way)
  next := level.next.map (Approach.trail way)

/-- What a level has found are composite states that have been admitted, and arcs that leave these. -/
structure Within (kept : Std.HashMap Nat (Admitted W)) (way : Nat → Trail W) (level : BeamLevel W) : Prop where
  best_mem : ∀ found, level.best = some found → found.2 ∈ kept
  leaves : ∀ approach ∈ level.next, approach.Leaves kept way

/-- A composite state adds to a level what its trail does. -/
theorem within_and_trails_expand (hrecorded : Recorded kept way) (hentry : kept[state]? = some entry)
    (hadmitted : ∀ other, other ∈ admitted ↔ other ∈ kept) (h : level.Within kept way) (memo : Composition.Memo W) :
    (level.expand kept state entry.cost (memo.stateAt state)).Within kept way ∧
      (level.expand kept state entry.cost (memo.stateAt state)).trails way =
        Composition.beamLevel admitted memo [way state] (level.trails way) := by
  have hstate : state ∈ kept := Std.HashMap.mem_iff_isSome_getElem?.2 (hentry ▸ rfl)
  have hcost := (hrecorded.cost_eq state entry hentry).symm
  have hfresh : ∀ arc : Arc W, (!kept.contains arc.target) = !admitted.contains arc.target := fun arc => by
    rw [Bool.not_inj_iff, Bool.eq_iff_iff, Std.HashMap.contains_iff_mem, List.contains_iff_mem, hadmitted]
  obtain ⟨hleaves, hmap⟩ := Approach.leaves_and_map_foldl_offer hstate hcost
    ((memo.stateAt state).arcs.toList.filter fun arc => !kept.contains arc.target) h.leaves
  refine ⟨⟨fun found hfound => ?_, hleaves⟩, ?_⟩
  · cases hfinal : (memo.stateAt state).final with
    | none =>
      simp only [expand, hfinal] at hfound
      exact h.best_mem found hfound
    | some weight =>
      simp only [expand, hfinal] at hfound
      rcases keepBest_eq_or_eq level.best (entry.cost * weight, state) with heq | heq
      · obtain rfl := Option.some.inj (heq.symm.trans hfound)
        exact hstate
      · exact h.best_mem found (heq.symm.trans hfound)
  · rw [trails, expand, hmap]
    simp only [Composition.beamLevel, trails, hrecorded.state_eq state hstate, List.flatMap_cons,
      List.flatMap_nil, List.append_nil, Trail.onward, Trail.ended, hfresh, TrailLevel.mk.injEq, and_true]
    cases (memo.stateAt state).final with
    | none => rfl
    | some weight =>
      rw [map_keepBest, hcost]
      rfl

/-- The approaches that are chosen are those whose trails are. -/
theorem Within.map_chosen (h : level.Within kept way) (width : Nat) :
    (level.chosen width).map (Approach.trail way) = (level.trails way).chosen width := by
  rw [chosen, List.map_take, Approach.map_mergeSort fun other hmem => (h.leaves other hmem).cost_eq]
  rfl

omit [Weight W] in
theorem mem_next_of_mem_chosen {approach : Approach W} {width : Nat} (h : approach ∈ level.chosen width) :
    approach ∈ level.next :=
  (List.mergeSort_perm _ _).mem_iff.1 (List.mem_of_mem_take h)

end BeamLevel

namespace Composition

variable {W : Type} [Weight W] [Ranked W] {c : Composition W} {memo memo' : Memo W} {way : Nat → Trail W}
  {kept : Std.HashMap Nat (Admitted W)} {admitted : List Nat}

/-- A level asks for all composite states of its beam and makes of them what `beamLevel` says of their trails, or one of
them cannot be expanded. -/
theorem foldlM_advance_spec (h : Explored c memo) (hrecorded : Recorded kept way)
    (hadmitted : ∀ other, other ∈ admitted ↔ other ∈ kept) (beam : List Nat) (hbeam : ∀ id ∈ beam, id ∈ kept)
    (level : BeamLevel W) (hlevel : level.Within kept way) :
    (∃ level' memo', beam.foldlM (c.advance kept) level memo = .ok level' memo' ∧ level'.Within kept way ∧
      level'.trails way = beamLevel admitted memo' (beam.map way) (level.trails way) ∧
      Explored c memo' ∧ memo.Grows memo' ∧ ∀ id ∈ beam, (memo'.known? id).isSome = true) ∨
    ∃ e memo', beam.foldlM (c.advance kept) level memo = .error e memo' ∧ Explored c memo' ∧ memo.Grows memo' ∧
      ∃ id ∈ beam, ∀ place expansion, memo'.places[id]? = some place → ¬c.Expands place expansion := by
  induction beam generalizing memo level with
  | nil => exact .inl ⟨level, memo, rfl, hlevel, rfl, h, .refl _, by simp⟩
  | cons id beam ih =>
    obtain ⟨hid, hbeam⟩ := List.forall_mem_cons.1 hbeam
    obtain ⟨entry, hentry⟩ := Option.isSome_iff_exists.1 (Std.HashMap.mem_iff_isSome_getElem?.1 hid)
    rw [List.foldlM_cons]
    obtain ⟨known, memo', heq, h', hgrows, hknown⟩ | ⟨e, heq, hstuck⟩ := request_spec h id
    · have hadvance : c.advance kept level id memo =
          .ok (level.expand kept id entry.cost (memo'.stateAt id)) memo' := by
        simp only [advance, hentry, bind, EStateM.bind, heq, Memo.stateAt_eq hknown]
        rfl
      obtain ⟨hwithin, htrails⟩ := BeamLevel.within_and_trails_expand hrecorded hentry hadmitted hlevel memo'
      simp only [bind, EStateM.bind, hadvance]
      refine (ih h' hbeam _ hwithin).imp ?_ ?_
      · rintro ⟨level', last, hlast, hwithin', htrails', hexplored, hgrows', hall⟩
        refine ⟨level', last, hlast, hwithin', ?_, hexplored, hgrows.trans hgrows', List.forall_mem_cons.2 ⟨?_, hall⟩⟩
        · -- the rest of the level changes nothing in what the first composite state came to
          have hstate : memo'.known? (way id).state = some known := by rw [hrecorded.state_eq id hid, hknown]
          rw [htrails', List.map_cons, beamLevel_cons admitted last, beamLevel_singleton_of_grows hgrows' hstate,
            htrails]
        · rw [hgrows'.known hknown]
          rfl
      · rintro ⟨e, last, hlast, hexplored, hgrows', other, hother, hstuck⟩
        exact ⟨e, last, hlast, hexplored, hgrows.trans hgrows', other, List.mem_cons_of_mem _ hother, hstuck⟩
    · refine .inr ⟨e, memo, ?_, h, .refl _, id, List.mem_cons_self, hstuck⟩
      simp only [bind, EStateM.bind, advance, hentry, heq]

end Composition

end Transducer
