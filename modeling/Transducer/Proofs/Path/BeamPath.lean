import Mathlib
import Transducer.Proofs.Path.WideBeam

/-!
# The path that a beam search gives

Going back from the final state with the best total, along what has been kept of each composite state that was
admitted, gives an accepting path of the composition (`beamSearch_paths`): it goes from the start along arcs of the
composition to a final state, and to no composite state twice, since none is admitted twice. What is shown of each
trail is that it has been `Trod`, and this stays so as more becomes known. There is always an end to the levels and to
the way back.
-/

namespace Transducer.Composition

variable {W : Type} [Weight W] [Ranked W] {c : Composition W} {memo memo' : Memo W} {width start : Nat}
  {admitted : List Nat} {beam : List (Trail W)} {best : Option (W × Trail W)}

/-! ### Ways of the search -/

/-- Ways that go along arcs which are known, and never to a composite state where they have been. -/
inductive Trod (memo : Memo W) (start : Nat) : Trail W → Prop where
  | start : Trod memo start ⟨1, start, [], []⟩
  | extend {trail : Trail W} {known : Known W} {arc : Arc W} : Trod memo start trail →
      memo.known? trail.state = some known → arc ∈ known.arcs → arc.target ∉ trail.state :: trail.passed →
      Trod memo start (trail.extend arc)

/-- The way ends at a final state, and this is what it costs in all. -/
def Accepted (memo : Memo W) (start : Nat) (found : W × Trail W) : Prop :=
  Trod memo start found.2 ∧ ∃ known weight, memo.known? found.2.state = some known ∧ known.final = some weight ∧
    found.1 = found.2.cost * weight

section

omit [Ranked W]

theorem Trod.mono (hgrows : memo.Grows memo') {trail : Trail W} (h : Trod memo start trail) :
    Trod memo' start trail := by
  induction h with
  | start => exact .start
  | extend _ hknown harc hnew ih => exact .extend ih (hgrows.known hknown) harc hnew

theorem Accepted.mono (hgrows : memo.Grows memo') {found : W × Trail W} (h : Accepted memo start found) :
    Accepted memo' start found := by
  obtain ⟨htrod, known, weight, hknown, hfinal⟩ := h
  exact ⟨htrod.mono hgrows, known, weight, hgrows.known hknown, hfinal⟩

variable {trail : Trail W}

theorem Trod.nodup (h : Trod memo start trail) : (trail.state :: trail.passed).Nodup := by
  induction h with
  | start => exact List.nodup_singleton _
  | extend _ _ _ hnew ih => exact List.nodup_cons.2 ⟨hnew, ih⟩

theorem Trod.getLast?_eq (h : Trod memo start trail) : (trail.state :: trail.passed).getLast? = some start := by
  induction h with
  | start => rfl
  | extend _ _ _ _ ih => exact ih

theorem Trod.cost_eq (h : Trod memo start trail) :
    trail.cost = trail.arcs.reverse.foldl (fun cost arc => cost * arc.weight) 1 := by
  induction h with
  | start => rfl
  | @extend trail known arc _ _ _ _ ih =>
    rw [Trail.extend, List.reverse_cons, List.foldl_append, ← ih]
    rfl

end

/-- What holds when a level begins: its ways have been trod, and have come along admitted composite states only. -/
structure Underway (memo : Memo W) (start : Nat) (admitted : List Nat) (beam : List (Trail W))
    (best : Option (W × Trail W)) : Prop where
  trod : ∀ trail ∈ beam, Trod memo start trail
  mem_admitted : ∀ trail ∈ beam, ∀ id ∈ trail.state :: trail.passed, id ∈ admitted
  accepted : ∀ found, best = some found → Accepted memo start found

omit [Ranked W] in
theorem underway_start (memo : Memo W) (start : Nat) : Underway memo start [start] [⟨1, start, [], []⟩] none where
  trod := by simpa using Trod.start
  mem_admitted := by simp
  accepted := nofun

/-- A level leads one arc further, to composite states that are admitted then. -/
theorem Underway.next (h : Underway memo start admitted beam best) (hgrows : memo.Grows memo')
    (hknown : ∀ trail ∈ beam, (memo'.known? trail.state).isSome = true) (width : Nat) :
    Underway memo' start
      (admitted ++ ((beamLevel admitted memo' beam { best }).chosen width).map (·.state))
      ((beamLevel admitted memo' beam { best }).chosen width) (beamLevel admitted memo' beam { best }).best where
  trod := by
    intro trail htrail
    obtain ⟨before, hbefore, arc, harc, hfresh, rfl⟩ :=
      exists_of_mem_next (TrailLevel.mem_next_of_mem_chosen htrail)
    obtain ⟨known, heq⟩ := Option.isSome_iff_exists.1 (hknown before hbefore)
    rw [Memo.stateAt_eq heq] at harc
    exact ((h.trod before hbefore).mono hgrows).extend heq harc fun hpassed =>
      hfresh (h.mem_admitted before hbefore _ hpassed)
  mem_admitted := by
    intro trail htrail id hid
    obtain ⟨before, hbefore, arc, -, -, rfl⟩ := exists_of_mem_next (TrailLevel.mem_next_of_mem_chosen htrail)
    rcases List.mem_cons.1 hid with rfl | hid
    · exact List.mem_append_right _ (List.mem_map_of_mem htrail)
    · exact List.mem_append_left _ (h.mem_admitted before hbefore id hid)
  accepted := by
    intro found hfound
    obtain ⟨trail, htrail, weight, hfinal, rfl⟩ | hbest := exists_or_eq_of_best hfound
    · obtain ⟨known, heq⟩ := Option.isSome_iff_exists.1 (hknown trail htrail)
      rw [Memo.stateAt_eq heq] at hfinal
      exact ⟨(h.trod trail htrail).mono hgrows, known, weight, heq, hfinal, rfl⟩
    · exact (h.accepted found hbest).mono hgrows

/-- The best way that a search gives is an accepting one. -/
theorem Searches.accepted {result : EStateM.Result Error (Memo W) (Option (W × Trail W))}
    (hsearches : Searches c width admitted beam best memo result) (h : Explored c memo)
    (hunder : Underway memo start admitted beam best) {last : Option (W × Trail W)}
    (hresult : result = .ok last memo') :
    Explored c memo' ∧ memo.Grows memo' ∧ ∀ found, last = some found → Accepted memo' start found := by
  induction hsearches with
  | done =>
    cases hresult
    exact ⟨h, .refl _, hunder.accepted⟩
  | refused => cases hresult
  | next h' hgrows hknown _ ih =>
    obtain ⟨hlast, hgrows', haccepted⟩ := ih h' (hunder.next hgrows hknown width) hresult
    exact ⟨hlast, hgrows.trans hgrows', haccepted⟩

/-! ### Accepting paths -/

/-- The arcs lead through the composite states, one after the other, as a call for each of these gives them. -/
inductive Leads (c : Composition W) (memo : Memo W) : List Nat → List (Arc W) → Prop where
  | at (id : Nat) : Leads c memo [id] []
  | arc {ids : List Nat} {id : Nat} {arcs : List (Arc W)} {known : Known W} {arc : Arc W} :
      Leads c memo (ids ++ [id]) arcs → c.request id memo = .ok known memo → arc ∈ known.arcs →
      Leads c memo (ids ++ [id, arc.target]) (arcs ++ [arc])

/-- The path is an accepting path of the composition, along these arcs to a state of this weight. -/
structure Accepting (c : Composition W) (memo : Memo W) (path : BeamPath W) (arcs : List (Arc W)) (final : W) :
    Prop where
  start_eq : ∃ start, c.start memo = .ok (some start) memo ∧ path.states.head? = some start
  nodup : path.states.Nodup
  leads : Leads c memo path.states arcs
  final_eq : ∃ last known, path.states.getLast? = some last ∧ c.request last memo = .ok known memo ∧
    known.final = some final
  ilabels_eq : path.ilabels = spell .input arcs
  olabels_eq : path.olabels = spell .output arcs
  weight_eq : path.weight = arcs.foldl (fun cost arc => cost * arc.weight) 1 * final

omit [Ranked W] in
theorem request_of_known {id : Nat} {known : Known W} (h : memo.known? id = some known) :
    c.request id memo = .ok known memo := by
  rw [Memo.known?] at h
  rw [request, h]

omit [Ranked W] in
theorem Trod.leads {trail : Trail W} (h : Trod memo start trail) :
    Leads c memo (trail.state :: trail.passed).reverse trail.arcs.reverse := by
  induction h with
  | start => exact .at start
  | @extend trail known arc _ hknown harc _ ih =>
    rw [List.reverse_cons] at ih
    simpa [Trail.extend] using ih.arc (request_of_known hknown) harc

omit [Ranked W] in
/-- An accepting way is an accepting path. -/
theorem Accepted.accepting {found : W × Trail W} (h : Accepted memo start found)
    (hstart : c.start memo = .ok (some start) memo) :
    ∃ final, Accepting c memo (found.2.toPath found.1) found.2.arcs.reverse final := by
  obtain ⟨htrod, known, final, hknown, hfinal, hcost⟩ := h
  refine ⟨final, ⟨start, hstart, ?_⟩, List.nodup_reverse.2 htrod.nodup, htrod.leads, ?_, rfl, rfl, ?_⟩
  · exact List.head?_reverse.trans htrod.getLast?_eq
  · exact ⟨found.2.state, known, List.getLast?_reverse, request_of_known hknown, hfinal⟩
  · exact htrod.cost_eq ▸ hcost

omit [Ranked W] in
/-- Once the start has a number, a call for it gives that number and changes nothing. -/
theorem start_eq_of_place (h : Consistent c memo) {place : Place} (horigin : c.origin = some place)
    (hid : memo.places[start]? = some place) : c.start memo = .ok (some start) memo := by
  simp only [start_eq, horigin, Memo.intern, h.ids_iff.2 hid]

/-- What a search gives is an accepting path. -/
theorem BeamSearches.accepting {result : EStateM.Result Error (Memo W) (Option (BeamPath W))}
    (hsearches : BeamSearches c width memo result) (h : Explored c memo) {path : BeamPath W}
    (hresult : result = .ok (some path) memo') : ∃ arcs final, Accepting c memo' path arcs final := by
  cases hsearches with
  | unstarted => cases hresult
  | refused => cases hresult
  | @found start between last best hstart hsearches =>
    obtain ⟨hpath, rfl⟩ := EStateM.Result.ok.inj hresult
    obtain ⟨found, hbest, rfl⟩ := Option.map_eq_some_iff.1 hpath
    obtain ⟨place, horigin, hstarted, -, hid⟩ := h.of_start hstart
    obtain ⟨hlast, hgrows, haccepted⟩ := hsearches.accepted hstarted (underway_start between start) rfl
    obtain ⟨final, haccepting⟩ := (haccepted found hbest).accepting
      (start_eq_of_place hlast.toConsistent horigin (hgrows.places _ _ hid))
    exact ⟨_, final, haccepting⟩

/-- Whatever has been asked of a composition before, a beam search through it ends by itself, and a path that it gives
is an accepting path of the composition which comes to no composite state twice. -/
theorem beamSearch_paths (c : Composition W) (calls : List Call) {width : Nat} (hwidth : 0 < width) :
    Finds c width (c.after calls) (c.beamSearch width (c.after calls)) ∧
    ∀ path memo, c.beamSearch width (c.after calls) = .ok (some path) memo →
      ∃ arcs final, Accepting c memo path arcs final := by
  have h := explored_after (c := c) calls
  obtain ⟨hfinds, hends⟩ := finds_and_beamSearches h hwidth
  exact ⟨hfinds, fun path memo hresult => hends.accepting h hresult⟩

/-- A beam of ten composite states finds a path behind the fork, also if some of what is there has been asked for
before. -/
theorem beamSearch_paths_fork : ∃ c operands, build {} (fork, turnstile) = .ok c operands ∧ 0 < 10 ∧
    (∃ path memo, c.beamSearch 10 (c.after [.start, .arcs 0, .arcs 2]) = .ok (some path) memo) ∧
    Finds c 10 (c.after [.start, .arcs 0, .arcs 2]) (c.beamSearch 10 (c.after [.start, .arcs 0, .arcs 2])) ∧
    ∀ path memo, c.beamSearch 10 (c.after [.start, .arcs 0, .arcs 2]) = .ok (some path) memo →
      ∃ arcs final, Accepting c memo path arcs final := by
  obtain ⟨c, operands, hbuild, hstuck, hwidth, place, weight, hmet, hfinal⟩ := exists_build_fork
  have h := explored_after (c := c) [.start, .arcs 0, .arcs 2]
  obtain ⟨found, memo, hresult, hnone, -⟩ := (finds_and_beamSearches h (by decide)).2.outcome h hstuck hwidth
  have hfound : found ≠ none := fun heq => hnone.1 heq place weight hmet hfinal
  obtain ⟨path, rfl⟩ := Option.ne_none_iff_exists'.1 hfound
  exact ⟨c, operands, hbuild, by decide, ⟨path, memo, hresult⟩,
    beamSearch_paths c [.start, .arcs 0, .arcs 2] (by decide)⟩

end Transducer.Composition
