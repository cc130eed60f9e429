import Mathlib
import Transducer.Proofs.Path.Trace

/-!
# Nothing better is left out

A search for `n` paths does not extend a state more than `n` times. A beginning that is capped for that
reason is not missed: the `n` beginnings that were extended there instead cost no more, and each goes on
the way that the capped one would have gone (`enough_of_rich`). So a path that is not found either costs no
less than what still waits, or there are `n` others that cost no more than it (`finished_or_enough`).
-/

namespace Transducer.Automaton

open ExactCost Relaxation

variable {K : Type} [AddCommGroup K] [LinearOrder K] {a : Automaton (ExactCost K)} {start : Nat}
  {d : Array (ExactCost K)}

/-- No way to a final state costs less than the distance of its first state. -/
theorem Backward.le_total [IsOrderedAddMonoid K] (hd : a.Backward 0 d) {s t : Nat} {places : List Nat}
    {arcs : List (Arc (ExactCost K))} {final : ExactCost K} (hway : a.Way s places arcs t)
    (hf : a.final? t = some final) : costAt d s ≤ total arcs + final.cost := by
  induction hway with
  | nil s =>
    rw [total_nil, zero_add]
    exact hd.le_final hf
  | @cons s i t arc places arcs hi _ ih =>
    have hle := hd.le_arc arc (Array.mem_of_getElem? hi)
    rw [WithTop.coe_zero, add_zero] at hle
    rw [total_cons, add_assoc]
    exact hle.trans (add_le_add_right (ih hf) _)

namespace Trace

/-- At least `n` paths have been found that cost no more than `x`. -/
def Enough (d : Array (ExactCost K)) (n : Nat) (T : a.Trace start) (x : WithTop K) : Prop :=
  ∃ ps : Multiset (a.Beginning start), ps.Nodup ∧ n ≤ ps.card ∧
    ∀ p ∈ ps, p ∈ T.finished ∧ promise d (.ended p) ≤ x

variable {n : Nat} {T : a.Trace start} {x : WithTop K}

/-- A beginning that promises less than what waits has left the queue. -/
theorem expanded_or_capped (hx : ∀ y ∈ T.waiting, x < promise d y) {p : a.Beginning start}
    (hp : .onward p ∈ T.nodes) (hle : promise d (.onward p) ≤ x) : p ∈ T.expanded ∨ p ∈ T.capped := by
  rcases Multiset.mem_add.1 hp with hp | hp
  · exact absurd (hx _ hp) (not_lt.2 hle)
  · simpa [closed] using hp

/-- A path that costs less than what waits has been found. -/
theorem mem_finished (hx : ∀ y ∈ T.waiting, x < promise d y) {p : a.Beginning start}
    (hp : .ended p ∈ T.nodes) (hle : promise d (.ended p) ≤ x) : p ∈ T.finished := by
  rcases Multiset.mem_add.1 hp with hp | hp
  · exact absurd (hx _ hp) (not_lt.2 hle)
  · simpa [closed] using hp

variable [IsOrderedAddMonoid K]

/-- If `n` beginnings have been extended at a state, then `n` paths are found that go on from there along
any way, or along cheaper ones. -/
theorem Sound.enough_of_rich (hd : a.Backward 0 d) (h : Sound d n T)
    (hx : ∀ y ∈ T.waiting, x < promise d y) {s t : Nat} {places : List Nat}
    {arcs : List (Arc (ExactCost K))} {final : ExactCost K} (hway : a.Way s places arcs t)
    (hf : a.final? t = some final) (hfinite : total arcs + final.cost ≠ ⊤) {y : WithTop K}
    (hrich : T.Rich n s y) (hle : y + (total arcs + final.cost) ≤ x) : Enough d n T x := by
  induction hway generalizing y with
  | nil s =>
    obtain ⟨ps, hnodup, hcard, hps⟩ := hrich
    refine ⟨ps, hnodup, hcard, fun p hp => ?_⟩
    obtain ⟨hmem, rfl, hcost⟩ := hps p hp
    have hpromise : promise d (.ended p) ≤ x := by
      refine le_trans ?_ hle
      show total p.arcs + orTop (a.final? p.last) ≤ _
      rw [hf, total_nil, zero_add]
      exact add_le_add_left hcost _
    exact ⟨mem_finished hx (h.child_mem p hmem _ (.ended p) ⟨final, hf⟩) hpromise, hpromise⟩
  | @cons s i t arc places arcs hi hway ih =>
    obtain ⟨ps, hnodup, hcard, hps⟩ := hrich
    rw [total_cons, add_assoc] at hfinite hle
    rw [← add_assoc] at hle
    have hahead : costAt d arc.target ≤ total arcs + final.cost := hd.le_total hway hf
    have hrest : total arcs + final.cost ≠ ⊤ := (WithTop.add_ne_top.1 hfinite).2
    have hplace : ∀ p ∈ ps, (a.arcsAt p.last)[i]? = some arc := fun p hp => (hps p hp).2.1 ▸ hi
    have hcost : ∀ p (hp : p ∈ ps), total (p.extend (hplace p hp)).arcs ≤ y + arc.weight.cost := by
      intro p hp
      show total (p.arcs ++ [arc]) ≤ _
      rw [total_append, total_cons, total_nil, add_zero]
      exact add_le_add_left (hps p hp).2.2 _
    have hleft : ∀ p (hp : p ∈ ps), p.extend (hplace p hp) ∈ T.expanded ∨
        p.extend (hplace p hp) ∈ T.capped := by
      intro p hp
      refine expanded_or_capped hx ?_ ((add_le_add (hcost p hp) hahead).trans hle)
      exact h.child_mem p (hps p hp).1 _ (.onward p _) (ne_top_of_le_ne_top hrest hahead)
    by_cases hall : ∀ p (hp : p ∈ ps), p.extend (hplace p hp) ∈ T.expanded
    · -- all of them go on together
      refine ih hf hrest ⟨ps.pmap (fun p hp => p.extend hp) hplace, ?_, ?_, fun q hq => ?_⟩ hle
      · exact hnodup.pmap fun p _ q _ heq => (Beginning.eq_of_extend_eq heq).1
      · rwa [Multiset.card_pmap]
      · obtain ⟨p, hp, rfl⟩ := Multiset.mem_pmap.1 hq
        exact ⟨hall p hp, rfl, hcost p hp⟩
    · -- one of them is capped: there are others in its place
      obtain ⟨p, hnot⟩ := not_forall.1 hall
      obtain ⟨hp, hnot⟩ := not_forall.1 hnot
      have hrich := h.rich_of_capped _ ((hleft p hp).resolve_left hnot)
      exact ih hf hrest (hrich.mono (Multiset.Subset.refl _) (hcost p hp)) hle

/-- A path that goes on from a node is found, or enough others are that cost no more. -/
theorem Sound.finished_or_enough (hd : a.Backward 0 d) (h : Sound d n T)
    (hx : ∀ y ∈ T.waiting, x < promise d y) {s t : Nat} {places : List Nat}
    {arcs : List (Arc (ExactCost K))} {final : ExactCost K} (hway : a.Way s places arcs t)
    (hf : a.final? t = some final) (hfinite : total arcs + final.cost ≠ ⊤) {p : a.Beginning start}
    (hs : p.last = s) (hp : .onward p ∈ T.nodes) (hle : total p.arcs + (total arcs + final.cost) ≤ x) :
    (∃ q ∈ T.finished, q.places = p.places ++ places) ∨ Enough d n T x := by
  have hpromise : promise d (.onward p) ≤ x := by
    refine le_trans (add_le_add_right ?_ _) hle
    rw [hs]
    exact hd.le_total hway hf
  induction hway generalizing p with
  | nil s =>
    subst hs
    rcases expanded_or_capped hx hp hpromise with hexp | hcap
    · refine .inl ⟨p, mem_finished hx (h.child_mem p hexp _ (.ended p) ⟨final, hf⟩) ?_, ?_⟩
      · refine le_trans (le_of_eq ?_) hle
        show total p.arcs + orTop (a.final? p.last) = _
        rw [hf, total_nil, zero_add, orTop_some]
      · exact (List.append_nil _).symm
    · exact .inr (h.enough_of_rich hd hx (.nil _) hf hfinite (h.rich_of_capped p hcap) hle)
  | @cons s i t arc places arcs hi hway ih =>
    subst hs
    rcases expanded_or_capped hx hp hpromise with hexp | hcap
    · rw [total_cons, add_assoc] at hfinite hle
      have hrest : total arcs + final.cost ≠ ⊤ := (WithTop.add_ne_top.1 hfinite).2
      have hahead : costAt d arc.target ≤ total arcs + final.cost := hd.le_total hway hf
      have htotal : total (p.extend hi).arcs = total p.arcs + arc.weight.cost := by
        show total (p.arcs ++ [arc]) = _
        rw [total_append, total_cons, total_nil, add_zero]
      have hmem : .onward (p.extend hi) ∈ T.nodes :=
        h.child_mem p hexp _ (.onward p hi) (ne_top_of_le_ne_top hrest hahead)
      rw [← add_assoc, ← htotal] at hle
      rcases ih hf hrest rfl hmem hle ((add_le_add_right hahead _).trans hle) with ⟨q, hq, hplaces⟩ | henough
      · refine .inl ⟨q, hq, hplaces.trans ?_⟩
        exact (List.append_assoc _ _ _).trans rfl
      · exact .inr henough
    · exact .inr (h.enough_of_rich hd hx (.cons hi hway) hf hfinite (h.rich_of_capped p hcap) hle)

end Trace

/-! ### The paths found -/

namespace AcceptingPath

variable {W : Type} {a : Automaton W} {start : Nat}

/-- The whole way of an accepting path. -/
def beginning (q : AcceptingPath a) (h : a.start = some start) : a.Beginning start :=
  ⟨q.places, q.arcs, q.last, q.first_eq h ▸ q.way⟩

theorem beginning_injective (h : a.start = some start) :
    Function.Injective fun q : AcceptingPath a => q.beginning h :=
  fun _ _ heq => ext_places (congrArg Beginning.places heq)

end AcceptingPath

/-- The best `n` accepting paths of an automaton, or all if there are fewer, the cheapest first. -/
structure Best (n : Nat) (paths : List (AcceptingPath a)) : Prop where
  nodup : paths.Nodup
  /-- There are `n` of them, or as many as the automaton has. -/
  length_eq : (paths.length : ℕ∞) = min (n : ℕ∞) (ENat.card (AcceptingPath a))
  sorted : paths.Pairwise fun p q => p.weight.cost ≤ q.weight.cost
  /-- A path that is left out costs no less than one that is not. -/
  le_of_notMem : ∀ p ∉ paths, ∀ q ∈ paths, q.weight.cost ≤ p.weight.cost

theorem length_le_card {α : Type*} {xs : List α} (h : xs.Nodup) : (xs.length : ℕ∞) ≤ ENat.card α := by
  have hle := ENat.card_le_card_of_injective (List.nodup_iff_injective_get.1 h)
  rwa [ENat.card_eq_coe_fintype_card, Fintype.card_fin] at hle

theorem length_eq_card {α : Type*} {xs : List α} (h : xs.Nodup) (hall : ∀ x, x ∈ xs) :
    (xs.length : ℕ∞) = ENat.card α := by
  have hbij : Function.Bijective xs.get :=
    ⟨List.nodup_iff_injective_get.1 h, fun x => List.mem_iff_get.1 (hall x)⟩
  rw [← ENat.card_congr (Equiv.ofBijective _ hbij), ENat.card_eq_coe_fintype_card, Fintype.card_fin]

namespace Trace

omit [LinearOrder K] in
theorem total_ne_top (harcs : ∀ {s}, ∀ arc ∈ a.arcsAt s, arc.weight.cost ≠ ⊤) {s t : Nat}
    {places : List Nat} {arcs : List (Arc (ExactCost K))} (hway : a.Way s places arcs t) :
    total arcs ≠ ⊤ := by
  induction hway with
  | nil s => exact WithTop.zero_ne_top
  | cons hi _ ih => exact WithTop.add_ne_top.2 ⟨harcs _ (Array.mem_of_getElem? hi), ih⟩

theorem promise_beginning (hstart : a.start = some start) (q : AcceptingPath a) :
    promise d (.ended (q.beginning hstart)) = q.weight.cost := by
  show total q.arcs + orTop (a.final? q.last) = _
  rw [q.final_eq, orTop_some, AcceptingPath.weight, cost_weigh]

variable {n : Nat} {T : a.Trace start}

theorem Coherent.nodup_finished (h : Coherent d n T) : T.finished.Nodup := by
  have hle : (T.finished : Multiset (a.Beginning start)).map Node.ended ≤ T.nodes :=
    (Multiset.le_add_left _ _).trans (Multiset.le_add_left _ _)
  exact Multiset.coe_nodup.1 ((Multiset.nodup_of_le hle h.nodup).of_map _)

/-- What has been found are accepting paths. -/
theorem Coherent.exists_paths (h : Coherent d n T) (hstart : a.start = some start) :
    ∃ paths : List (AcceptingPath a), paths.map (fun q => q.beginning hstart) = T.finished.reverse ∧ paths.Nodup := by
  have hrange : ∀ p ∈ T.finished.reverse, p ∈ Set.range fun q : AcceptingPath a => q.beginning hstart := by
    intro p hp
    have hnode : .ended p ∈ T.nodes := by simp [nodes, closed, List.mem_reverse.1 hp]
    obtain ⟨final, hf⟩ := h.viable _ hnode
    exact ⟨⟨start, p.places, p.arcs, p.last, final, hstart, p.way, hf⟩, rfl⟩
  obtain ⟨paths, hpaths⟩ : T.finished.reverse ∈ Set.range (List.map fun q : AcceptingPath a =>
      q.beginning hstart) := by
    rw [Set.range_list_map]
    exact hrange
  refine ⟨paths, hpaths, ?_⟩
  have hrev := List.nodup_reverse.2 h.nodup_finished
  rw [← hpaths] at hrev
  exact hrev.of_map _

/-- If no more than `n` paths have been found, then `n` paths that cost no more than `x` are all. -/
theorem Enough.all (hlen : T.finished.length ≤ n) {x : WithTop K} (henough : Enough d n T x) :
    n ≤ T.finished.length ∧ ∀ p ∈ T.finished, promise d (.ended p) ≤ x := by
  obtain ⟨ps, hnodup, hcard, hps⟩ := henough
  have hsub : ps ≤ (T.finished : Multiset (a.Beginning start)) :=
    (Multiset.le_iff_subset hnodup).2 fun p hp => Multiset.mem_coe.2 (hps p hp).1
  have heq := Multiset.eq_of_le_of_card_le hsub (hlen.trans hcard)
  refine ⟨hcard.trans (Multiset.card_le_card hsub), fun p hp => ?_⟩
  exact (hps p (heq ▸ Multiset.mem_coe.2 hp)).2

variable [IsOrderedAddMonoid K]

/-- A path is found, or enough others are, unless something waits that promises no more. -/
theorem Sound.mem_finished_or_enough (hd : a.Backward 0 d) (h : Sound d n T)
    (hstart : a.start = some start) (harcs : ∀ {s}, ∀ arc ∈ a.arcsAt s, arc.weight.cost ≠ ⊤)
    (hfinal : ∀ {s final}, a.final? s = some final → final.cost ≠ ⊤) (q : AcceptingPath a)
    (hq : ∀ y ∈ T.waiting, q.weight.cost < promise d y) :
    q.beginning hstart ∈ T.finished ∨ Enough d n T q.weight.cost := by
  have hfinite : total q.arcs + q.final.cost ≠ ⊤ :=
    WithTop.add_ne_top.2 ⟨total_ne_top harcs q.way, hfinal q.final_eq⟩
  have hcost : total (Beginning.root a start).arcs + (total q.arcs + q.final.cost) ≤ q.weight.cost := by
    rw [AcceptingPath.weight, cost_weigh]
    exact (zero_add _).le
  rcases h.finished_or_enough hd hq (q.beginning hstart).way q.final_eq hfinite rfl h.root_mem hcost with
    ⟨p, hp, hplaces⟩ | henough
  · have heq : p = q.beginning hstart := Beginning.ext_places hplaces
    exact .inl (heq ▸ hp)
  · exact .inr henough

/-- A search that has ended has found the best paths. -/
theorem Sound.exists_best (hd : a.Backward 0 d) (h : Sound d n T)
    (hstart : a.start = some start) (harcs : ∀ {s}, ∀ arc ∈ a.arcsAt s, arc.weight.cost ≠ ⊤)
    (hfinal : ∀ {s final}, a.final? s = some final → final.cost ≠ ⊤) (hlen : T.finished.length ≤ n)
    (hend : T.finished.length = n ∨ T.waiting = 0) :
    ∃ paths : List (AcceptingPath a),
      paths.map (fun q => q.beginning hstart) = T.finished.reverse ∧ Best n paths := by
  obtain ⟨paths, hpaths, hnodup⟩ := h.exists_paths hstart
  have hmem : ∀ q, q ∈ paths ↔ q.beginning hstart ∈ T.finished := fun q =>
    calc q ∈ paths
        ↔ q.beginning hstart ∈ paths.map fun q => q.beginning hstart :=
          (List.mem_map_of_injective (AcceptingPath.beginning_injective hstart)).symm
      _ ↔ q.beginning hstart ∈ T.finished := by rw [hpaths, List.mem_reverse]
  have hlength : paths.length = T.finished.length := by
    have heq := congrArg List.length hpaths
    rwa [List.length_map, List.length_reverse] at heq
  have hall : T.finished.length < n → ∀ q, q ∈ paths := by
    intro hlt q
    have hnone : T.waiting = 0 := hend.resolve_left hlt.ne
    rcases h.mem_finished_or_enough hd hstart harcs hfinal q (by simp [hnone]) with hq | henough
    · exact (hmem q).2 hq
    · exact absurd (henough.all hlen).1 (not_le.2 hlt)
  refine ⟨paths, hpaths, hnodup, ?_, ?_, fun p hp q hq => ?_⟩
  · rcases hlen.lt_or_eq with hlt | heq
    · have hcard := length_eq_card hnodup (hall hlt)
      rw [← hcard, min_eq_right]
      exact_mod_cast hlength ▸ hlen
    · rw [← hlength] at heq
      rw [← heq, min_eq_left (length_le_card hnodup)]
  · have hsorted := List.pairwise_reverse.2 h.sorted
    rw [← hpaths, List.pairwise_map] at hsorted
    simpa only [promise_beginning] using hsorted
  · by_contra hlt
    rw [not_le, ← promise_beginning (d := d) hstart q] at hlt
    have hclosed : .ended (q.beginning hstart) ∈ T.closed := by simp [closed, (hmem q).1 hq]
    have hbelow : ∀ y ∈ T.waiting, p.weight.cost < promise d y := fun y hy =>
      hlt.trans_le (h.closed_le _ hclosed y hy)
    rcases h.mem_finished_or_enough hd hstart harcs hfinal p hbelow with hfound | henough
    · exact hp ((hmem p).2 hfound)
    · exact absurd hlt (not_lt.2 ((henough.all hlen).2 _ ((hmem q).1 hq)))

end Trace

end Transducer.Automaton
