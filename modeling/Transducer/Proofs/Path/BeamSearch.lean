import Mathlib
import Transducer.Proofs.Composition.Calls
import Transducer.Proofs.Path.BeamLevel

/-!
# How a beam search goes

A beam search goes from level to level until no way leads on or a composite state cannot be expanded (`Admits`). It
ends: each level expands composite states that were not expanded before, and only so many can be. So the bound that the
search has is never reached (`search_spec`).

What it has admitted then is `Recorded`, and its best path is the one along the trail to the final state with the best
total (`finds_and_beamSearches`). From there on, a search may be seen as one that knows all of its ways (`Searches`).
-/

namespace Transducer.Composition

variable {W : Type} [Weight W] [Ranked W] {c : Composition W} {memo memo' : Memo W} {width start : Nat}
  {admitted : List Nat} {beam : List (Trail W)} {best : Option (W × Trail W)}

/-! ### How the search ends -/

/-- The search from level to level, and how it ends: when no way leads on, or in a level with a composite state that
cannot be expanded. -/
inductive Admits (c : Composition W) (width : Nat) : Std.HashMap Nat (Admitted W) → List Nat → Option (W × Nat) →
    Memo W → EStateM.Result Error (Memo W) (Option (W × Nat) × Std.HashMap Nat (Admitted W)) → Prop where
  | done {kept : Std.HashMap Nat (Admitted W)} {best : Option (W × Nat)} {memo : Memo W} :
      Admits c width kept [] best memo (.ok (best, kept) memo)
  | refused {kept : Std.HashMap Nat (Admitted W)} {beam : List Nat} {best : Option (W × Nat)} {e : Error}
      {memo memo' : Memo W} : beam.foldlM (c.advance kept) { best } memo = .error e memo' →
      Admits c width kept beam best memo (.error e memo')
  | next {kept : Std.HashMap Nat (Admitted W)} {beam : List Nat} {best : Option (W × Nat)} {level : BeamLevel W}
      {memo memo' : Memo W}
      {result : EStateM.Result Error (Memo W) (Option (W × Nat) × Std.HashMap Nat (Admitted W))} :
      beam ≠ [] → beam.foldlM (c.advance kept) { best } memo = .ok level memo' →
      Admits c width (admitAll kept (level.chosen width)) ((level.chosen width).map (·.arc.target)) level.best memo'
        result →
      Admits c width kept beam best memo result

/-- A search from the start of the composition on, if it has one. The path that it gives is found by going back from the
final state with the best total. -/
inductive Finds (c : Composition W) (width : Nat) (memo : Memo W) :
    EStateM.Result Error (Memo W) (Option (BeamPath W)) → Prop where
  | unstarted {memo' : Memo W} : c.start memo = .ok none memo' → Finds c width memo (.ok none memo')
  | refused {start : Nat} {e : Error} {memo' memo'' : Memo W} : c.start memo = .ok (some start) memo' →
      Admits c width {(start, ⟨1, none⟩)} [start] none memo' (.error e memo'') → Finds c width memo (.error e memo'')
  | nothing {start : Nat} {kept : Std.HashMap Nat (Admitted W)} {memo' memo'' : Memo W} :
      c.start memo = .ok (some start) memo' →
      Admits c width {(start, ⟨1, none⟩)} [start] none memo' (.ok (none, kept) memo'') →
      Finds c width memo (.ok none memo'')
  | path {start last : Nat} {weight : W} {kept : Std.HashMap Nat (Admitted W)} {memo' memo'' : Memo W}
      {way : List Nat × List (Arc W)} : c.start memo = .ok (some start) memo' →
      Admits c width {(start, ⟨1, none⟩)} [start] none memo' (.ok (some (weight, last), kept) memo'') →
      Retraces kept last [last] [] way → Finds c width memo (.ok (some (.along weight way)) memo'')

/-- The search from level to level, with all of the ways. -/
inductive Searches (c : Composition W) (width : Nat) : List Nat → List (Trail W) → Option (W × Trail W) → Memo W →
    EStateM.Result Error (Memo W) (Option (W × Trail W)) → Prop where
  | done {admitted : List Nat} {best : Option (W × Trail W)} {memo : Memo W} :
      Searches c width admitted [] best memo (.ok best memo)
  | refused {admitted : List Nat} {beam : List (Trail W)} {best : Option (W × Trail W)} {trail : Trail W} {e : Error}
      {memo memo' : Memo W} : memo.Grows memo' → trail ∈ beam →
      (∀ place expansion, memo'.places[trail.state]? = some place → ¬c.Expands place expansion) →
      Searches c width admitted beam best memo (.error e memo')
  | next {admitted : List Nat} {beam : List (Trail W)} {best : Option (W × Trail W)} {memo memo' : Memo W}
      {result : EStateM.Result Error (Memo W) (Option (W × Trail W))} :
      Explored c memo' → memo.Grows memo' → (∀ trail ∈ beam, (memo'.known? trail.state).isSome = true) →
      Searches c width
        (admitted ++ ((beamLevel admitted memo' beam { best }).chosen width).map (·.state))
        ((beamLevel admitted memo' beam { best }).chosen width) (beamLevel admitted memo' beam { best }).best memo'
        result →
      Searches c width admitted beam best memo result

/-- A search from the start of the composition on, if it has one. -/
inductive BeamSearches (c : Composition W) (width : Nat) (memo : Memo W) :
    EStateM.Result Error (Memo W) (Option (BeamPath W)) → Prop where
  | unstarted {memo' : Memo W} : c.start memo = .ok none memo' → BeamSearches c width memo (.ok none memo')
  | found {start : Nat} {memo' memo'' : Memo W} {best : Option (W × Trail W)} :
      c.start memo = .ok (some start) memo' →
      Searches c width [start] [⟨1, start, [], []⟩] none memo' (.ok best memo'') →
      BeamSearches c width memo (.ok (best.map fun found => found.2.toPath found.1) memo'')
  | refused {start : Nat} {e : Error} {memo' memo'' : Memo W} : c.start memo = .ok (some start) memo' →
      Searches c width [start] [⟨1, start, [], []⟩] none memo' (.error e memo'') →
      BeamSearches c width memo (.error e memo'')

/-- What a level admits has not been admitted before. -/
theorem nodup_admitted (h : admitted.Nodup) (memo : Memo W) (beam : List (Trail W)) (best : Option (W × Trail W))
    (width : Nat) :
    (admitted ++ ((beamLevel admitted memo beam { best }).chosen width).map (·.state)).Nodup := by
  refine h.append (TrailLevel.nodup_chosen (nodup_next admitted memo beam best)) fun id hid hnew => ?_
  obtain ⟨trail, htrail, rfl⟩ := List.mem_map.1 hnew
  obtain ⟨before, -, arc, -, hfresh, rfl⟩ := exists_of_mem_next (TrailLevel.mem_next_of_mem_chosen htrail)
  exact hfresh hid

section

variable {way : Nat → Trail W} {kept : Std.HashMap Nat (Admitted W)}

/-- How a search from level to level ends that has admitted these composite states: unless it is refused, what is kept
of all that it has admitted is recorded. -/
inductive Ends (c : Composition W) (width : Nat) (admitted : List Nat) (beam : List (Trail W))
    (best : Option (W × Trail W)) (memo : Memo W) :
    EStateM.Result Error (Memo W) (Option (W × Nat) × Std.HashMap Nat (Admitted W)) → Prop where
  | found {last : Option (W × Nat)} {kept : Std.HashMap Nat (Admitted W)} {way : Nat → Trail W} {memo' : Memo W} :
      Recorded kept way → (∀ found, last = some found → found.2 ∈ kept) →
      Searches c width admitted beam best memo (.ok (last.map (Prod.map id way)) memo') →
      Ends c width admitted beam best memo (.ok (last, kept) memo')
  | refused {e : Error} {memo' : Memo W} : Searches c width admitted beam best memo (.error e memo') →
      Ends c width admitted beam best memo (.error e memo')

/-- A level before a search that ends. -/
theorem Ends.next {result : EStateM.Result Error (Memo W) (Option (W × Nat) × Std.HashMap Nat (Admitted W))}
    {targets : List Nat}
    (hends : Ends c width (admitted ++ targets) ((beamLevel admitted memo' beam { best }).chosen width)
      (beamLevel admitted memo' beam { best }).best memo' result)
    (htargets : targets = ((beamLevel admitted memo' beam { best }).chosen width).map (·.state)) (h' : Explored c memo')
    (hgrows : memo.Grows memo') (hall : ∀ trail ∈ beam, (memo'.known? trail.state).isSome = true) :
    Ends c width admitted beam best memo result := by
  subst htargets
  cases hends with
  | found hrecorded hmem hsearches => exact .found hrecorded hmem (.next h' hgrows hall hsearches)
  | refused hsearches => exact .refused (.next h' hgrows hall hsearches)

/-- What a level admits is recorded too, and what has been admitted before stays as it is. -/
theorem exists_recorded (h : Recorded kept way) (width : Nat) (hadmitted : ∀ other, other ∈ admitted ↔ other ∈ kept)
    (hnodup : admitted.Nodup) {level : BeamLevel W} (hwithin : level.Within kept way)
    (htrails : level.trails way = beamLevel admitted memo beam { best }) :
    ∃ way', Recorded (admitAll kept (level.chosen width)) way' ∧
      level.best.map (Prod.map id way') = (beamLevel admitted memo beam { best }).best ∧
      (level.chosen width).map (·.arc.target) = ((beamLevel admitted memo beam { best }).chosen width).map (·.state) ∧
      ((level.chosen width).map (·.arc.target)).map way' = (beamLevel admitted memo beam { best }).chosen width := by
  have hchosen := hwithin.map_chosen width
  rw [htrails] at hchosen
  have htargets : (level.chosen width).map (·.arc.target) =
      ((beamLevel admitted memo beam { best }).chosen width).map (·.state) := by
    rw [← hchosen, List.map_map]
    rfl
  have hnew := nodup_admitted hnodup memo beam best width
  rw [← htargets] at hnew
  obtain ⟨way', hrecorded, hold, hways⟩ := h.admitAll
    (fun approach hmem => hwithin.leaves approach (BeamLevel.mem_next_of_mem_chosen hmem)) hnew.of_append_right
    fun approach hmem hkept => List.disjoint_of_nodup_append hnew ((hadmitted _).2 hkept) (List.mem_map_of_mem hmem)
  refine ⟨way', hrecorded, ?_, htargets, ?_⟩
  · rw [← htrails]
    exact Option.map_congr fun found hfound => Prod.ext rfl (hold found.2 (hwithin.best_mem found hfound))
  · rw [List.map_map, ← hchosen]
    exact List.map_congr_left hways

/-- The bound of the search is never reached: all that has been admitted before the current level is expanded, and
there are only so many composite states that can be. -/
theorem search_spec (width bound : Nat) (h : Explored c memo) (hrecorded : Recorded kept way) (old beam : List Nat)
    (hadmitted : ∀ other, other ∈ old ++ beam ↔ other ∈ kept) (best : Option (W × Nat))
    (hbest : ∀ found, best = some found → found.2 ∈ kept) (hknown : ∀ id ∈ old, (memo.known? id).isSome = true)
    (hnodup : (old ++ beam).Nodup)
    (hbound : 2 * c.left.automaton.size * c.right.automaton.size < bound + old.length) :
    Admits c width kept beam best memo (c.search width bound kept beam best memo) ∧
      Ends c width (old ++ beam) (beam.map way) (best.map (Prod.map id way)) memo
        (c.search width bound kept beam best memo) := by
  induction bound generalizing old beam best memo kept way with
  | zero =>
    have hle := h.length_le_of_known hnodup.of_append_left hknown
    omega
  | succ bound ih =>
    cases beam with
    | nil => exact ⟨.done, .found hrecorded hbest .done⟩
    | cons first rest =>
      simp only [search, bind, EStateM.bind]
      have hbeam : ∀ id ∈ first :: rest, id ∈ kept := fun id hid => (hadmitted id).1 (List.mem_append_right _ hid)
      obtain ⟨level, memo', heq, hwithin, htrails, h', hgrows, hall⟩ | ⟨e, memo', heq, -, hgrows, id, hid, hstuck⟩ :=
        foldlM_advance_spec h hrecorded hadmitted (first :: rest) hbeam { best } ⟨hbest, nofun⟩
      · obtain ⟨way', hrecorded', hbest', htargets, hways⟩ :=
          exists_recorded hrecorded width hadmitted hnodup hwithin htrails
        have hnodup' := nodup_admitted hnodup memo' ((first :: rest).map way) (best.map (Prod.map id way)) width
        -- the level is expanded now, and what was expanded before still is
        have hknown' : ∀ id ∈ old ++ first :: rest, (memo'.known? id).isSome = true := by
          intro id hid
          rcases List.mem_append.1 hid with hid | hid
          · obtain ⟨known, hid⟩ := Option.isSome_iff_exists.1 (hknown id hid)
            exact Option.isSome_iff_exists.2 ⟨known, hgrows.known hid⟩
          · exact hall id hid
        have hbound' : 2 * c.left.automaton.size * c.right.automaton.size < bound + (old ++ first :: rest).length := by
          simp only [List.length_append, List.length_cons]
          omega
        obtain ⟨hadmits, hends⟩ := ih h' hrecorded' (old ++ first :: rest) ((level.chosen width).map (·.arc.target))
          (fun other => by rw [List.mem_append, hadmitted, mem_admitAll]) level.best
          (fun found hfound => mem_admitAll.2 (.inl (hwithin.best_mem found hfound))) hknown' (htargets ▸ hnodup')
          hbound'
        rw [hbest', hways] at hends
        have hall' : ∀ trail ∈ (first :: rest).map way, (memo'.known? trail.state).isSome = true := by
          intro trail hmem
          obtain ⟨id, hid, rfl⟩ := List.mem_map.1 hmem
          rw [hrecorded.state_eq id (hbeam id hid)]
          exact hall id hid
        rw [heq]
        exact ⟨.next (List.cons_ne_nil _ _) heq hadmits, hends.next htargets h' hgrows hall'⟩
      · rw [heq]
        refine ⟨.refused heq, .refused (.refused hgrows (List.mem_map_of_mem hid) ?_)⟩
        rwa [hrecorded.state_eq id (hbeam id hid)]

end

omit [Ranked W] in
theorem recorded_start (start : Nat) :
    Recorded {(start, ⟨1, none⟩)} fun id => (⟨1, id, [], []⟩ : Trail W) := by
  have hget : ∀ (id : Nat) (entry : Admitted W),
      ({(start, ⟨1, none⟩)} : Std.HashMap Nat (Admitted W))[id]? = some entry → entry = ⟨1, none⟩ := by
    intro id entry hentry
    rw [Std.HashMap.singleton_eq_insert, Std.HashMap.getElem?_insert] at hentry
    split at hentry
    · exact (Option.some.inj hentry).symm
    · simp at hentry
  refine ⟨fun _ _ => rfl, fun id entry hentry => ?_, fun _ _ _ => ⟨rfl, rfl⟩, fun id source arc hback => ?_,
    fun id _ => ?_⟩
  · rw [hget id entry hentry]
  · obtain ⟨entry, hentry, hback⟩ := Option.bind_eq_some_iff.1 hback
    rw [hget id entry hentry] at hback
    cases hback
  · rw [Std.HashMap.singleton_eq_insert, Std.HashMap.size_insert]
    simp

/-- Whatever has been asked for before, the search ends by itself, and so does the way back from the final state. -/
theorem finds_and_beamSearches (h : Explored c memo) (hwidth : 0 < width) :
    Finds c width memo (c.beamSearch width memo) ∧ BeamSearches c width memo (c.beamSearch width memo) := by
  simp only [beamSearch, bind, EStateM.bind, if_neg hwidth.ne']
  obtain ⟨-, hstart⟩ | ⟨place, start, memo', -, hstart, h', -⟩ := start_spec h
  · simp only [pure, EStateM.pure, hstart]
    exact ⟨.unstarted hstart, .unstarted hstart⟩
  · obtain ⟨hadmits, hends⟩ := search_spec width (c.bound + 1) h' (recorded_start start) [] [start]
      (fun other => by simp [eq_comm (a := other)]) none nofun (by simp) (List.nodup_singleton start) (by simp [bound])
    simp only [pure, hstart, EStateM.bind]
    cases hresult : c.search width (c.bound + 1) {(start, ⟨1, none⟩)} [start] none memo' with
    | ok found memo'' =>
      obtain ⟨last, kept⟩ := found
      rw [hresult] at hadmits hends
      obtain ⟨hrecorded, hmem, hsearches⟩ | _ := hends
      have hfound := BeamSearches.found hstart hsearches
      cases last with
      | none => exact ⟨.nothing hstart hadmits, hfound⟩
      | some best =>
        obtain ⟨weight, last⟩ := best
        have hlast : last ∈ kept := hmem (weight, last) rfl
        have hretraces := (hrecorded.retraces_of_le hlast (hrecorded.length_lt last hlast).le [last] []).1
        refine ⟨.path hstart hadmits hretraces, ?_⟩
        show BeamSearches c width memo (.ok (some (.along weight (retrace kept kept.size last [last] []))) memo'')
        rw [hrecorded.along_retrace hlast weight]
        exact hfound
    | error e memo'' =>
      rw [hresult] at hadmits hends
      obtain _ | hsearches := hends
      exact ⟨.refused hstart hadmits, .refused hstart hsearches⟩

end Transducer.Composition
