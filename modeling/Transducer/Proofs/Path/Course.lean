import Mathlib
import Transducer.Proofs.Path.Best
import Transducer.Proofs.Path.Shortcut

/-!
# What a search finds with distances up to a bound

If the backward distances are computed up to a bound that is not zero, then the search for best paths still comes to
an end, and its result is the fan of the paths that its course finds: `exists_bestPaths_fan`. Which ones these are is
the matter of other modules. Here it is shown that some path is found if there is one of finite cost.

The reason is that the search follows every way: as long as the end of a way has not been extended, some beginning
waits that has come along the way (`Trace.Coherent.expanded_or_waiting`).
-/

namespace Transducer.Automaton

open ExactCost Relaxation

variable {K : Type} [AddCommGroup K] [LinearOrder K] {a : Automaton (ExactCost K)} {start n : Nat}
  {d : Array (ExactCost K)} {bound : K}

namespace Trace

variable {T : a.Trace start}

/-- A beginning that has been in the queue is still there, or its last state has been extended. -/
theorem Coherent.waiting_or_expanded (h : T.Coherent d n) (hn : 0 < n) {p : a.Beginning start}
    (hp : .onward p ∈ T.nodes) : .onward p ∈ T.waiting ∨ ∃ q ∈ T.expanded, q.last = p.last := by
  rcases Multiset.mem_add.1 hp with hp | hp
  · exact .inl hp
  · have hleft : p ∈ T.expanded ∨ p ∈ T.capped := by simpa [closed] using hp
    rcases hleft with hp | hp
    · exact .inr ⟨p, hp, rfl⟩
    · exact .inr (h.exists_expanded hn hp)

/-- A path that ends at a state which has been extended waits, or has been found. -/
theorem Coherent.waiting_or_finished (h : T.Coherent d n) {p : a.Beginning start} (hp : p ∈ T.expanded)
    {final : ExactCost K} (hf : a.final? p.last = some final) : .ended p ∈ T.waiting ∨ p ∈ T.finished := by
  rcases Multiset.mem_add.1 (h.child_mem p hp _ (.ended p) ⟨final, hf⟩) with hp | hp
  · exact .inl hp
  · exact .inr (by simpa [closed] using hp)

variable [IsOrderedAddMonoid K]

/-- A way from a state that has been extended leads to one that has been extended, or there is an arc on it with which a
beginning waits. -/
theorem Coherent.expanded_or_waiting (hd : a.Backward bound d) (h : T.Coherent d n) (hn : 0 < n) {s t : Nat}
    {places : List Nat} {arcs : List (Arc (ExactCost K))} (hway : a.Way s places arcs t) (hfinite : total arcs ≠ ⊤)
    (ht : costAt d t ≠ ⊤) (hs : ∃ q ∈ T.expanded, q.last = s) :
    (∃ q ∈ T.expanded, q.last = t) ∨ ∃ q ∈ T.expanded, ∃ (i : Nat) (arc : Arc (ExactCost K))
      (hi : (a.arcsAt q.last)[i]? = some arc), .onward (q.extend hi) ∈ T.waiting ∧
        ∃ before after, arcs = before ++ arc :: after ∧ (∃ places, a.Way s places before q.last) ∧
          ∃ places, a.Way arc.target places after t := by
  induction hway with
  | nil s => exact .inl hs
  | @cons s i t arc places arcs hi hway ih =>
    obtain ⟨q, hq, rfl⟩ := hs
    have hrest : total arcs ≠ ⊤ := by
      rw [total_cons] at hfinite
      exact (WithTop.add_ne_top.1 hfinite).2
    have hahead : costAt d arc.target ≠ ⊤ :=
      ne_top_of_le_ne_top (WithTop.add_ne_top.2 ⟨padded_ne_top hrest, ht⟩) (hd.le_padded hway)
    rcases h.waiting_or_expanded hn (h.child_mem q hq _ (.onward q hi) hahead) with hwaits | hexpanded
    · exact .inr ⟨q, hq, i, arc, hi, hwaits, [], arcs, rfl, ⟨[], .nil _⟩, places, hway⟩
    · rcases ih hrest ht hexpanded with hlast | ⟨q', hq', j, arc', hj, hwaits, before, after, rfl, ⟨places', hway'⟩, hrest'⟩
      · exact .inl hlast
      · exact .inr ⟨q', hq', j, arc', hj, hwaits, arc :: before, after, rfl, ⟨i :: places', .cons hi hway'⟩, hrest'⟩

/-- A search that has ended has found something, if the start has a finite distance. -/
theorem Coherent.finished_ne_nil (hd : a.Backward bound d) (h : T.Coherent d n) (hn : 0 < n)
    (hroot : costAt d start ≠ ⊤) (hend : T.finished.length = n ∨ T.waiting = 0) : T.finished ≠ [] := by
  intro hnil
  have hnone : T.waiting = 0 := by
    refine hend.resolve_left ?_
    rw [hnil]
    exact hn.ne
  have hnowhere : ∀ x, x ∉ T.waiting := by simp [hnone]
  obtain ⟨places, arcs, t, final, hway, hf, heq⟩ := (hd.attained start).resolve_left hroot
  rw [heq] at hroot
  obtain ⟨harcs, hfinal⟩ := WithTop.add_ne_top.1 hroot
  have hfirst := (h.waiting_or_expanded hn h.root_mem).resolve_left (hnowhere _)
  have hlast := h.expanded_or_waiting hd hn hway harcs (ne_top_of_le_ne_top hfinal (hd.le_final hf)) hfirst
  obtain ⟨q, hq, rfl⟩ := hlast.resolve_right fun ⟨_, _, _, _, _, hwaits, _⟩ => hnowhere _ hwaits
  have hfound := (h.waiting_or_finished hq hf).resolve_left (hnowhere _)
  rw [hnil] at hfound
  cases hfound

end Trace

/-! ### The result -/

/-- The paths are those that a search for `n` paths finds, with distances up to the bound. -/
structure Found (a : Automaton (ExactCost K)) (start n : Nat) (bound : K) (d : Array (ExactCost K)) (T : a.Trace start)
    (paths : List (AcceptingPath a)) : Prop where
  start_eq : a.start = some start
  backward : a.Backward bound d
  root_ne_top : costAt d start ≠ ⊤
  steps : Relation.ReflTransGen (Trace.Step d n) (Trace.init a start) T
  length_le : T.finished.length ≤ n
  paths_eq : paths.map (fun q => q.beginning start_eq) = T.finished.reverse
  ne_nil : paths ≠ []

/-- There is an accepting path of finite cost if a path is found. -/
theorem Found.exists_finite {T : a.Trace start} {paths : List (AcceptingPath a)}
    (h : a.Found start n bound d T paths) : ∃ q : AcceptingPath a, q.weight.cost ≠ ⊤ := by
  obtain ⟨places, arcs, t, final, hway, hf, heq⟩ := (h.backward.attained start).resolve_left h.root_ne_top
  refine ⟨⟨start, places, arcs, t, final, h.start_eq, hway, hf⟩, ?_⟩
  rw [AcceptingPath.weight, cost_weigh, ← heq]
  exact h.root_ne_top

/-- The search ends by itself if it does so from a start with a finite distance. -/
theorem searchEnds_of_distances (hstart : a.start = some start) {limit : Nat}
    (hd : a.distances .backward bound limit = some d)
    (hends : costAt d start ≠ ⊤ → BestSearch.Ends a d n (BestSearch.initial a start d) (a.bestFrom start d n)) :
    a.SearchEnds n bound limit := by
  intro s d' hs hd' hroot
  obtain rfl := Option.some.inj (hstart.symm.trans hs)
  obtain rfl := Option.some.inj (hd.symm.trans hd')
  exact hends ((isZero_eq_false_iff _).1 hroot)

variable [IsOrderedAddMonoid K]

/-- If the start has an infinite distance, then all accepting paths have infinite costs. -/
theorem Backward.cost_eq_top (hd : a.Backward bound d) (hstart : a.start = some start) (hroot : costAt d start = ⊤)
    (q : AcceptingPath a) : q.weight.cost = ⊤ := by
  by_contra hfinite
  rw [AcceptingPath.weight, cost_weigh] at hfinite
  obtain ⟨harcs, hlast⟩ := WithTop.add_ne_top.1 hfinite
  have hle := hd.le_padded (q.beginning hstart).way
  rw [hroot, top_le_iff] at hle
  exact WithTop.add_ne_top.2 ⟨padded_ne_top harcs, ne_top_of_le_ne_top hlast (hd.le_final q.final_eq)⟩ hle

/-- The search ends, and its result is the fan of the paths that it finds. These are as many as are wanted, unless nothing
waits any more; there is none only if all accepting paths have infinite costs. -/
theorem exists_bestPaths_course (hcost : ∀ {s}, ∀ arc ∈ a.arcsAt s, 0 ≤ arc.weight.cost)
    (hfinal : ∀ {s final}, a.final? s = some final → final.cost ≠ ⊤) (hb : 0 ≤ bound) (hn : 0 < n) :
    ∃ paths : List (AcceptingPath a), paths.Nodup ∧
      (∃ N, ∀ limit ≥ N, a.SearchEnds n bound limit ∧ a.bestPaths n bound limit = some (a.fan paths)) ∧
      ((paths = [] ∧ ∀ q : AcceptingPath a, q.weight.cost = ⊤) ∨
        ∃ start d T, a.Found start n bound d T paths ∧ (T.finished.length = n ∨ T.waiting = 0)) := by
  cases hstart : a.start with
  | none =>
    refine ⟨[], List.nodup_nil, ⟨0, fun limit _ => ⟨?_, bestPaths_of_start_eq_none hstart n bound limit⟩⟩, .inl ⟨rfl, ?_⟩⟩
    · intro start d h
      rw [hstart] at h
      cases h
    · intro q
      have h := q.start_eq
      rw [hstart] at h
      cases h
  | some start =>
    obtain ⟨d, hd, N, hN⟩ := exists_distances_backward hcost hb
    by_cases hroot : costAt d start = ⊤
    · refine ⟨[], List.nodup_nil, ⟨N, fun limit hlimit => ⟨?_, ?_⟩⟩, .inl ⟨rfl, hd.cost_eq_top hstart hroot⟩⟩
      · exact searchEnds_of_distances hstart (hN limit hlimit) fun h => absurd hroot h
      · rw [bestPaths_of_distances hstart hn.ne' (hN limit hlimit), if_pos ((isZero_iff _).2 hroot)]
    · obtain ⟨hends, T, hsteps, hlen, hend, hfound⟩ := BestSearch.exists_course hd hroot hn
      have hcoherent := (Trace.coherent_init hroot).steps hsteps
      obtain ⟨paths, hpaths, hnodup⟩ := hcoherent.exists_paths hstart
      have hne : paths ≠ [] := by
        rintro rfl
        exact hcoherent.finished_ne_nil hd hn hroot hend (List.reverse_eq_nil_iff.1 hpaths.symm)
      rw [← hpaths, List.forall₂_map_left_iff] at hfound
      refine ⟨paths, hnodup, ⟨N, fun limit hlimit => ⟨?_, ?_⟩⟩,
        .inr ⟨start, d, T, ⟨hstart, hd, hroot, hsteps, hlen, hpaths, hne⟩, hend⟩⟩
      · exact searchEnds_of_distances hstart (hN limit hlimit) fun _ => hends
      · rw [bestPaths_of_distances hstart hn.ne' (hN limit hlimit), if_neg fun hzero => hroot ((isZero_iff _).1 hzero)]
        refine congrArg some (foldl_addBest hfound (fun q _ => ?_) hne)
        exact (isZero_eq_false_iff _).2 (hfinal q.final_eq)

/-- The search ends, and its result is the fan of the paths that it finds. It finds none only if all accepting paths have
infinite costs. -/
theorem exists_bestPaths_fan (hcost : ∀ {s}, ∀ arc ∈ a.arcsAt s, 0 ≤ arc.weight.cost)
    (hfinal : ∀ {s final}, a.final? s = some final → final.cost ≠ ⊤) (hb : 0 ≤ bound) (hn : 0 < n) :
    ∃ paths : List (AcceptingPath a), paths.Nodup ∧
      (∃ N, ∀ limit ≥ N, a.SearchEnds n bound limit ∧ a.bestPaths n bound limit = some (a.fan paths)) ∧
      ((paths = [] ∧ ∀ q : AcceptingPath a, q.weight.cost = ⊤) ∨ ∃ start d T, a.Found start n bound d T paths) := by
  obtain ⟨paths, hnodup, hresult, hfound⟩ := exists_bestPaths_course (a := a) hcost hfinal hb hn
  refine ⟨paths, hnodup, hresult, hfound.imp_right ?_⟩
  rintro ⟨start, d, T, hfound, -⟩
  exact ⟨start, d, T, hfound⟩

end Transducer.Automaton
