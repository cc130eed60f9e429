import Mathlib
import Transducer.Proofs.Path.Course

/-!
# Possible and impossible paths

An arc of infinite cost makes a path impossible. The search for best paths does not go to a state from which no path is
possible, but it does take an arc of infinite cost to one from which some are. So its result can hold impossible paths
(`bestPaths_impossible_drawbridge`).

They do no harm to the others: impossible paths are found only after all possible ones (`exists_bestPaths_possible`). As
long as nothing of infinite cost has left the queue, all possible paths are found, or as many as are wanted, by the time
that everything which waits costs that much; and from then on only impossible paths are found.
-/

namespace Transducer.Automaton

open ExactCost Relaxation

variable {K : Type} [AddCommGroup K] [LinearOrder K] {a : Automaton (ExactCost K)} {start n : Nat}
  {d : Array (ExactCost K)} {bound : K}

/-! ### States from which a path is possible -/

/-- Some possible way leads from the state to a final one. -/
def Productive {W : Type} [Weight W] (a : Automaton W) (s : Nat) : Prop :=
  ∃ places arcs t final, a.Way s places arcs t ∧ a.final? t = some final ∧ isZero (weigh arcs final) = false

/-- The states with a finite distance are those from which a path is possible. -/
theorem Backward.ne_top_iff [IsOrderedAddMonoid K] (hd : a.Backward bound d) {s : Nat} :
    costAt d s ≠ ⊤ ↔ a.Productive s := by
  constructor
  · intro hs
    obtain ⟨places, arcs, t, final, hway, hf, heq⟩ := (hd.attained s).resolve_left hs
    refine ⟨places, arcs, t, final, hway, hf, ?_⟩
    rwa [isZero_eq_false_iff, cost_weigh, ← heq]
  · rintro ⟨places, arcs, t, final, hway, hf, hfinite⟩
    rw [isZero_eq_false_iff, cost_weigh] at hfinite
    obtain ⟨harcs, hfinal⟩ := WithTop.add_ne_top.1 hfinite
    have hlast := ne_top_of_le_ne_top hfinal (hd.le_final hf)
    exact ne_top_of_le_ne_top (WithTop.add_ne_top.2 ⟨padded_ne_top harcs, hlast⟩) (hd.le_padded hway)

namespace Trace

variable {T T' : a.Trace start} {keep : Arc (ExactCost K) → Prop}

/-! ### What is found when the search has nothing more to try -/

/-- Nothing waits that has come from the start by arcs that are kept. -/
structure Quiet (keep : Arc (ExactCost K) → Prop) (T : a.Trace start) : Prop where
  root : .onward (.root a start) ∉ T.waiting
  ended : ∀ p ∈ T.expanded, .ended p ∉ T.waiting
  onward : ∀ p ∈ T.expanded, ∀ {i arc} (hi : (a.arcsAt p.last)[i]? = some arc), keep arc →
    .onward (p.extend hi) ∉ T.waiting

omit [AddCommGroup K] [LinearOrder K] in
theorem quiet_of_waiting_eq (h : T.waiting = 0) : T.Quiet keep where
  root := by simp [h]
  ended p _ := by simp [h]
  onward p _ _ _ _ _ := by simp [h]

/-- Going on from an extended beginning along an arc that is kept. -/
theorem Quiet.expanded_or_capped (hquiet : T.Quiet keep) (h : T.Coherent d n) {p : a.Beginning start}
    (hp : p ∈ T.expanded) {i : Nat} {arc : Arc (ExactCost K)} (hi : (a.arcsAt p.last)[i]? = some arc) (hkeep : keep arc)
    (hahead : costAt d arc.target ≠ ⊤) : p.extend hi ∈ T.expanded ∨ p.extend hi ∈ T.capped := by
  have hnode := h.child_mem p hp _ (.onward p hi) hahead
  have hclosed := (Multiset.mem_add.1 hnode).resolve_left (hquiet.onward p hp hi hkeep)
  simpa [closed] using hclosed

/-- Ending at the last state of an extended beginning. -/
theorem Quiet.mem_finished (hquiet : T.Quiet keep) (h : T.Coherent d n) {p : a.Beginning start} (hp : p ∈ T.expanded)
    {final : ExactCost K} (hf : a.final? p.last = some final) : p ∈ T.finished :=
  (h.waiting_or_finished hp hf).resolve_left (hquiet.ended p hp)

/-- If `n` beginnings have been extended at a state, then `n` paths are found: each goes on from there, or `n` others from a
later state. -/
theorem Quiet.le_length (hquiet : T.Quiet keep) (h : T.Coherent d n) {s t : Nat} {places : List Nat}
    {arcs : List (Arc (ExactCost K))} {final : ExactCost K} (hway : a.Way s places arcs t) (hf : a.final? t = some final)
    (harcs : ∀ arc ∈ arcs, keep arc ∧ costAt d arc.target ≠ ⊤) (hcount : n ≤ T.expanded.countP (·.last = s)) :
    n ≤ T.finished.length := by
  induction hway with
  | nil s =>
    have hsub : T.expanded.filter (·.last = s) ≤ (T.finished : Multiset (a.Beginning start)) := by
      refine (Multiset.le_iff_subset (h.nodup_expanded.filter _)).2 fun p hp => ?_
      obtain ⟨hexpanded, rfl⟩ := Multiset.mem_filter.1 hp
      exact Multiset.mem_coe.2 (hquiet.mem_finished h hexpanded hf)
    rw [Multiset.countP_eq_card_filter] at hcount
    exact hcount.trans (Multiset.card_le_card hsub)
  | @cons s i t arc places arcs hi _ ih =>
    rw [List.forall_mem_cons] at harcs
    refine ih hf harcs.2 ?_
    have hplace : ∀ p ∈ T.expanded.filter (·.last = s), (a.arcsAt p.last)[i]? = some arc := fun p hp =>
      (Multiset.mem_filter.1 hp).2 ▸ hi
    have hleft : ∀ p (hp : p ∈ T.expanded.filter (·.last = s)),
        p.extend (hplace p hp) ∈ T.expanded ∨ p.extend (hplace p hp) ∈ T.capped := fun p hp =>
      hquiet.expanded_or_capped h (Multiset.mem_filter.1 hp).1 _ harcs.1.1 harcs.1.2
    by_cases hall : ∀ p (hp : p ∈ T.expanded.filter (·.last = s)), p.extend (hplace p hp) ∈ T.expanded
    · -- all of them go on together
      have hnodup : ((T.expanded.filter (·.last = s)).pmap (fun p hp => p.extend hp) hplace).Nodup :=
        (h.nodup_expanded.filter _).pmap fun p _ q _ heq => (Beginning.eq_of_extend_eq heq).1
      have hsub : (T.expanded.filter (·.last = s)).pmap (fun p hp => p.extend hp) hplace ≤
          T.expanded.filter (·.last = arc.target) := by
        refine (Multiset.le_iff_subset hnodup).2 fun q hq => ?_
        obtain ⟨p, hp, rfl⟩ := Multiset.mem_pmap.1 hq
        exact Multiset.mem_filter.2 ⟨hall p hp, rfl⟩
      rw [Multiset.countP_eq_card_filter] at hcount ⊢
      exact hcount.trans ((Multiset.card_pmap _ _ _).ge.trans (Multiset.card_le_card hsub))
    · -- one of them is capped, so there are `n` others in its place
      obtain ⟨p, hnot⟩ := not_forall.1 hall
      obtain ⟨hp, hnot⟩ := not_forall.1 hnot
      exact h.le_countP _ ((hleft p hp).resolve_left hnot)

/-- A path that goes on from a beginning by arcs that are kept is found, or `n` others are. -/
theorem Quiet.finished_or_le_length (hquiet : T.Quiet keep) (h : T.Coherent d n) {s t : Nat} {places : List Nat}
    {arcs : List (Arc (ExactCost K))} {final : ExactCost K} (hway : a.Way s places arcs t) (hf : a.final? t = some final)
    (harcs : ∀ arc ∈ arcs, keep arc ∧ costAt d arc.target ≠ ⊤) {p : a.Beginning start} (hs : p.last = s)
    (hp : p ∈ T.expanded ∨ p ∈ T.capped) :
    (∃ q ∈ T.finished, q.places = p.places ++ places) ∨ n ≤ T.finished.length := by
  subst hs
  rcases hp with hp | hp
  · generalize hs : p.last = s at hway
    induction hway generalizing p with
    | nil s =>
      subst hs
      exact .inl ⟨p, hquiet.mem_finished h hp hf, (List.append_nil _).symm⟩
    | @cons s i t arc places arcs hi hway ih =>
      subst hs
      rw [List.forall_mem_cons] at harcs
      rcases hquiet.expanded_or_capped h hp hi harcs.1.1 harcs.1.2 with hnext | hnext
      · refine (ih hf harcs.2 hnext rfl).imp_left ?_
        rintro ⟨q, hq, hplaces⟩
        exact ⟨q, hq, hplaces.trans (List.append_assoc _ _ _)⟩
      · exact .inr (hquiet.le_length h hway hf harcs.2 (h.le_countP _ hnext))
  · exact .inr (hquiet.le_length h hway hf harcs (h.le_countP p hp))

/-- An accepting path of arcs that are kept is found, or `n` others are. -/
theorem Quiet.mem_finished_or_le_length (hquiet : T.Quiet keep) (h : T.Coherent d n) (hstart : a.start = some start)
    (q : AcceptingPath a) (harcs : ∀ arc ∈ q.arcs, keep arc ∧ costAt d arc.target ≠ ⊤) :
    q.beginning hstart ∈ T.finished ∨ n ≤ T.finished.length := by
  have hroot : .root a start ∈ T.expanded ∨ .root a start ∈ T.capped := by
    simpa [closed] using (Multiset.mem_add.1 h.root_mem).resolve_left hquiet.root
  refine (hquiet.finished_or_le_length h (q.beginning hstart).way q.final_eq harcs rfl hroot).imp_left ?_
  rintro ⟨p, hp, hplaces⟩
  obtain rfl : p = q.beginning hstart := Beginning.ext_places hplaces
  exact hp

/-! ### Where the infinite costs begin -/

/-- What has left the queue promises something finite. -/
def Early (d : Array (ExactCost K)) (T : a.Trace start) : Prop := ∀ x ∈ T.closed, promise d x ≠ ⊤

/-- What waits promises nothing finite. -/
def Late (d : Array (ExactCost K)) (T : a.Trace start) : Prop := ∀ x ∈ T.waiting, promise d x = ⊤

/-- A node of finite promise costs something finite so far. -/
theorem Early.total_ne_top (h : T.Early d) {p : a.Beginning start} (hp : p ∈ T.expanded) : total p.arcs ≠ ⊤ :=
  (WithTop.add_ne_top.1 (h _ (mem_closed_of_expanded hp))).1

/-- Nothing waits that has come by arcs of finite cost, once all that waits promises nothing finite and nothing else has
left the queue. -/
theorem Late.quiet (hfinal : ∀ {s final}, a.final? s = some final → final.cost ≠ ⊤) (h : T.Coherent d n)
    (hlate : T.Late d) (hearly : T.Early d) : T.Quiet fun arc => arc.weight.cost ≠ ⊤ where
  root hmem := by
    have hviable : costAt d start ≠ ⊤ := h.viable _ (Multiset.mem_add.2 (.inl hmem))
    exact WithTop.add_ne_top.2 ⟨WithTop.zero_ne_top, hviable⟩ (hlate _ hmem)
  ended p hp hmem := by
    obtain ⟨final, hf⟩ := h.viable _ (Multiset.mem_add.2 (.inl hmem))
    have htop : total p.arcs + orTop (a.final? p.last) = ⊤ := hlate _ hmem
    rw [hf] at htop
    exact WithTop.add_ne_top.2 ⟨hearly.total_ne_top hp, hfinal hf⟩ htop
  onward p hp i arc hi hcost hmem := by
    have hviable : costAt d arc.target ≠ ⊤ := h.viable _ (Multiset.mem_add.2 (.inl hmem))
    have htop : total (p.arcs ++ [arc]) + costAt d arc.target = ⊤ := hlate _ hmem
    rw [total_append, total_cons, total_nil, add_zero] at htop
    exact WithTop.add_ne_top.2 ⟨WithTop.add_ne_top.2 ⟨hearly.total_ne_top hp, hcost⟩, hviable⟩ htop

/-- A node that waits leaves the queue, which promises no more than the others. -/
theorem Step.exists_closed (hs : Step d n T T') :
    ∃ x ∈ T.waiting, (∀ y ∈ T.waiting, promise d x ≤ promise d y) ∧ T'.closed = x ::ₘ T.closed := by
  have hfirst : ∀ {x : a.Node start} {waiting}, T.waiting = x ::ₘ waiting → (∀ y ∈ waiting, promise d x ≤ promise d y) →
      x ∈ T.waiting ∧ ∀ y ∈ T.waiting, promise d x ≤ promise d y := by
    intro x waiting hw hmin
    rw [hw]
    exact ⟨Multiset.mem_cons_self _ _, Multiset.forall_mem_cons.2 ⟨le_rfl, hmin⟩⟩
  cases hs with
  | finish hw hmin => exact ⟨_, (hfirst hw hmin).1, (hfirst hw hmin).2, closed_finish⟩
  | cap hw hmin _ => exact ⟨_, (hfirst hw hmin).1, (hfirst hw hmin).2, closed_cap⟩
  | expand hw hmin _ => exact ⟨_, (hfirst hw hmin).1, (hfirst hw hmin).2, closed_expand⟩

/-- The steps of a search, as long as something finite is promised, and the steps after that. -/
theorem exists_late (hs : Relation.ReflTransGen (Step d n) T T') (hearly : T.Early d) :
    T'.Early d ∨ ∃ U : a.Trace start, Relation.ReflTransGen (Step d n) T U ∧ U.Early d ∧ U.Late d ∧
      Relation.ReflTransGen (Step d n) U T' := by
  induction hs with
  | refl => exact .inl hearly
  | @tail U T' hsteps hstep ih =>
    rcases ih with hU | ⟨V, hbefore, hV, hlate, hafter⟩
    · obtain ⟨x, -, hmin, hclosed⟩ := hstep.exists_closed
      by_cases hx : promise d x = ⊤
      · refine .inr ⟨U, hsteps, hU, fun y hy => top_le_iff.1 (hx.ge.trans (hmin y hy)), .single hstep⟩
      · refine .inl fun y hy => ?_
        rcases Multiset.mem_cons.1 (hclosed ▸ hy) with rfl | hy
        · exact hx
        · exact hU y hy
    · exact .inr ⟨V, hbefore, hV, hlate, hafter.tail hstep⟩

/-- What a beginning of infinite cost leads to promises nothing finite either. -/
theorem promise_eq_top_of_child {p : a.Beginning start} {x : a.Node start} (h : Child p x) (hp : total p.arcs = ⊤) :
    promise d x = ⊤ := by
  cases h with
  | ended =>
    show total p.arcs + _ = ⊤
    rw [hp, WithTop.top_add]
  | @onward i arc hi =>
    show total (p.arcs ++ [arc]) + _ = ⊤
    rw [total_append, hp, WithTop.top_add, WithTop.top_add]

/-- Once nothing finite is promised, nothing finite will be, and only paths of infinite cost are found. -/
theorem Late.step (h : T.Coherent d n) (hlate : T.Late d) (hs : Step d n T T') :
    T'.Late d ∧ ∃ more, T'.finished = more ++ T.finished ∧ ∀ p ∈ more, promise d (.ended p) = ⊤ := by
  have hmem : ∀ {x : a.Node start} {waiting}, T.waiting = x ::ₘ waiting → x ∈ T.waiting ∧ waiting ⊆ T.waiting := by
    intro x waiting hw
    rw [hw]
    exact ⟨Multiset.mem_cons_self _ _, Multiset.subset_cons _ _⟩
  cases hs with
  | @finish p waiting hw _ =>
    obtain ⟨hp, hsub⟩ := hmem hw
    refine ⟨fun x hx => hlate x (hsub hx), [p], rfl, fun q hq => ?_⟩
    rw [List.mem_singleton.1 hq]
    exact hlate _ hp
  | cap hw _ _ => exact ⟨fun x hx => hlate x ((hmem hw).2 hx), [], rfl, nofun⟩
  | @expand p waiting hw _ _ =>
    obtain ⟨hp, hsub⟩ := hmem hw
    have htop : total p.arcs = ⊤ :=
      (WithTop.add_eq_top.1 (hlate _ hp)).resolve_right (h.viable _ (mem_nodes_of_waiting hw))
    refine ⟨fun x hx => ?_, [], rfl, nofun⟩
    rcases Multiset.mem_add.1 hx with hx | hx
    · exact promise_eq_top_of_child (mem_children.1 (Multiset.mem_coe.1 hx)).1 htop
    · exact hlate x (hsub hx)

theorem Late.steps (h : T.Coherent d n) (hlate : T.Late d) (hs : Relation.ReflTransGen (Step d n) T T') :
    T'.Late d ∧ ∃ more, T'.finished = more ++ T.finished ∧ ∀ p ∈ more, promise d (.ended p) = ⊤ := by
  induction hs with
  | refl => exact ⟨hlate, [], rfl, nofun⟩
  | tail hsteps hstep ih =>
    obtain ⟨hlate', more, heq, hmore⟩ := ih
    obtain ⟨hlate'', more', heq', hmore'⟩ := hlate'.step (h.steps hsteps) hstep
    refine ⟨hlate'', more' ++ more, by rw [heq', heq, List.append_assoc], fun p hp => ?_⟩
    exact (List.mem_append.1 hp).elim (hmore' p) (hmore p)

/-! ### Where a path that is found goes -/

/-- A beginning comes only through states with finite distances. -/
theorem Coherent.costAt_ne_top (h : T.Coherent d n) {p : a.Beginning start} (hp : .onward p ∈ T.nodes) :
    ∀ s ∈ start :: p.arcs.map (·.target), costAt d s ≠ ⊤ := by
  generalize hk : p.places.length = k
  induction k generalizing p with
  | zero =>
    obtain ⟨places, arcs, t, hway⟩ := p
    obtain rfl := List.length_eq_zero_iff.1 hk
    cases hway
    intro s hs
    rw [List.mem_singleton.1 hs]
    exact h.viable _ hp
  | succ k ih =>
    obtain ⟨places, arcs, t, hway⟩ := p
    rcases hway.eq_nil_or_concat with ⟨rfl, -, -⟩ | ⟨places, arcs, u, hbefore, i, arc, hi, rfl, rfl, rfl⟩
    · cases hk
    · have hparent := h.parent_mem _ hp _ (.onward ⟨places, arcs, u, hbefore⟩ hi)
      have hbefore := ih (Multiset.mem_add.2 (.inr (mem_closed_of_expanded hparent))) (by simpa using hk)
      intro s hs
      rw [List.map_append, ← List.cons_append, List.mem_append] at hs
      rcases hs with hs | hs
      · exact hbefore s hs
      · rw [List.mem_singleton.1 hs]
        exact h.viable _ hp

end Trace

/-! ### What is found -/

/-- Whether the path can be taken at all. -/
def AcceptingPath.Possible {W : Type} [Weight W] {a : Automaton W} (p : AcceptingPath a) : Prop := isZero p.weight = false

instance {W : Type} [Weight W] {a : Automaton W} : DecidablePred (AcceptingPath.Possible (a := a)) :=
  fun p => inferInstanceAs (Decidable (isZero p.weight = false))

theorem countP_le_card {α : Type*} {P : α → Prop} [DecidablePred P] {xs : List α} (h : xs.Nodup) :
    (xs.countP (P ·) : ℕ∞) ≤ ENat.card {x // P x} := by
  have hall : ∀ x ∈ xs.filter (P ·), P x := fun x hx => of_decide_eq_true (List.mem_filter.1 hx).2
  have hle := length_le_card ((h.filter (P ·)).pmap (H := hall) fun x hx y hy => (Subtype.mk.injEq x hx y hy).mp)
  rwa [List.length_pmap, ← List.countP_eq_length_filter] at hle

theorem countP_eq_card {α : Type*} {P : α → Prop} [DecidablePred P] {xs : List α} (h : xs.Nodup)
    (hmem : ∀ x, P x → x ∈ xs) : (xs.countP (P ·) : ℕ∞) = ENat.card {x // P x} := by
  have hall : ∀ x ∈ xs.filter (P ·), P x := fun x hx => of_decide_eq_true (List.mem_filter.1 hx).2
  have heq := length_eq_card ((h.filter (P ·)).pmap (H := hall) fun x hx y hy => (Subtype.mk.injEq x hx y hy).mp)
    fun x => List.mem_pmap.2 ⟨x.1, List.mem_filter.2 ⟨hmem x.1 x.2, decide_eq_true x.2⟩, rfl⟩
  rwa [List.length_pmap, ← List.countP_eq_length_filter] at heq

variable [IsOrderedAddMonoid K]

/-- The arcs of a possible path have finite costs, and lead to states with finite distances. -/
theorem Backward.finite_of_possible (hd : a.Backward bound d) {s t : Nat} {places : List Nat}
    {arcs : List (Arc (ExactCost K))} {final : ExactCost K} (hway : a.Way s places arcs t) (hf : a.final? t = some final)
    (hpossible : isZero (weigh arcs final) = false) :
    ∀ arc ∈ arcs, arc.weight.cost ≠ ⊤ ∧ costAt d arc.target ≠ ⊤ := by
  induction hway with
  | nil s => exact nofun
  | @cons s i t arc places arcs hi hway ih =>
    rw [isZero_eq_false_iff, weigh_cons, cost_mul, WithTop.add_ne_top, ← isZero_eq_false_iff (weigh arcs final)] at hpossible
    exact List.forall_mem_cons.2 ⟨⟨hpossible.1, hd.ne_top_iff.2 ⟨_, _, _, _, hway, hf, hpossible.2⟩⟩, ih hf hpossible.2⟩

variable {T : a.Trace start} {paths : List (AcceptingPath a)}

omit [IsOrderedAddMonoid K] in
theorem Found.coherent (h : a.Found start n bound d T paths) : T.Coherent d n :=
  (Trace.coherent_init h.root_ne_top).steps h.steps

omit [IsOrderedAddMonoid K] in
theorem Found.length_eq (h : a.Found start n bound d T paths) : paths.length = T.finished.length := by
  have heq := congrArg List.length h.paths_eq
  rwa [List.length_map, List.length_reverse] at heq

omit [IsOrderedAddMonoid K] in
theorem Found.mem_iff (h : a.Found start n bound d T paths) (q : AcceptingPath a) :
    q ∈ paths ↔ q.beginning h.start_eq ∈ T.finished := by
  calc q ∈ paths
      ↔ q.beginning h.start_eq ∈ paths.map fun q => q.beginning h.start_eq :=
        (List.mem_map_of_injective (AcceptingPath.beginning_injective h.start_eq)).symm
    _ ↔ q.beginning h.start_eq ∈ T.finished := by rw [h.paths_eq, List.mem_reverse]

omit [IsOrderedAddMonoid K] in
theorem Found.nodup (h : a.Found start n bound d T paths) : paths.Nodup := by
  have hnodup := List.nodup_reverse.2 h.coherent.nodup_finished
  rw [← h.paths_eq] at hnodup
  exact hnodup.of_map _

omit [IsOrderedAddMonoid K] in
/-- The possible paths that are found are those that promised something finite. -/
theorem Found.countP_eq (h : a.Found start n bound d T paths) :
    paths.countP (·.Possible) = T.finished.countP fun p => promise d (.ended p) ≠ ⊤ := by
  have heq : paths.countP (·.Possible) =
      (paths.map fun q => q.beginning h.start_eq).countP fun p => promise d (.ended p) ≠ ⊤ := by
    rw [List.countP_map]
    refine List.countP_congr fun q _ => ?_
    simp [AcceptingPath.Possible, Trace.promise_beginning]
  rw [heq, h.paths_eq, List.countP_reverse]

/-- Impossible paths are found last. Before them come all that are possible, or as many as are wanted. -/
theorem Found.exists_early (hfinal : ∀ {s final}, a.final? s = some final → final.cost ≠ ⊤)
    (h : a.Found start n bound d T paths) (hend : T.finished.length = n ∨ T.waiting = 0) :
    ∃ early late : List (a.Beginning start), T.finished = late ++ early ∧ (∀ p ∈ late, promise d (.ended p) = ⊤) ∧
      (∀ p ∈ early, promise d (.ended p) ≠ ⊤) ∧
      (n ≤ early.length ∨ ∀ q : AcceptingPath a, q.Possible → q.beginning h.start_eq ∈ early) := by
  have hfound : ∀ {U : a.Trace start}, U.Coherent d n → U.Quiet (fun arc => arc.weight.cost ≠ ⊤) →
      n ≤ U.finished.length ∨ ∀ q : AcceptingPath a, q.Possible → q.beginning h.start_eq ∈ U.finished := by
    intro U hU hquiet
    refine or_iff_not_imp_left.2 fun hlt q hq => ?_
    exact (hquiet.mem_finished_or_le_length hU h.start_eq q
      (h.backward.finite_of_possible q.way q.final_eq hq)).resolve_right hlt
  have hpromise : ∀ {U : a.Trace start}, U.Early d → ∀ p ∈ U.finished, promise d (.ended p) ≠ ⊤ := by
    intro U hU p hp
    exact hU _ (by simp [Trace.closed, hp])
  have hinit : (Trace.init a start).Early d := fun x hx => absurd hx (Multiset.notMem_zero x)
  rcases Trace.exists_late h.steps hinit with hearly | ⟨U, hbefore, hearly, hlate, hafter⟩
  · refine ⟨T.finished, [], rfl, List.forall_mem_nil _, hpromise hearly, ?_⟩
    rcases hend with heq | hnone
    · exact .inl heq.ge
    · exact hfound h.coherent (Trace.quiet_of_waiting_eq hnone)
  · have hU := (Trace.coherent_init h.root_ne_top).steps hbefore
    obtain ⟨-, late, heq, htop⟩ := hlate.steps hU hafter
    exact ⟨U.finished, late, heq, htop, hpromise hearly, hfound hU (hlate.quiet hfinal hU hearly)⟩

/-- All possible paths are found, or as many as are wanted. -/
theorem Found.countP_possible (hfinal : ∀ {s final}, a.final? s = some final → final.cost ≠ ⊤)
    (h : a.Found start n bound d T paths) (hend : T.finished.length = n ∨ T.waiting = 0) :
    (paths.countP (·.Possible) : ℕ∞) = min (n : ℕ∞) (ENat.card {p : AcceptingPath a // p.Possible}) := by
  obtain ⟨early, late, heq, hlate, hearly, henough⟩ := h.exists_early hfinal hend
  have hcount : paths.countP (·.Possible) = early.length := by
    rw [h.countP_eq, heq, List.countP_append, List.countP_eq_zero.2 (by simpa using hlate),
      List.countP_eq_length.2 (by simpa using hearly), Nat.zero_add]
  have hle : early.length ≤ n := by
    have hlength := h.length_le
    rw [heq, List.length_append] at hlength
    omega
  rcases henough with hge | hall
  · have hcard := countP_le_card (P := AcceptingPath.Possible) h.nodup
    rw [hcount, le_antisymm hle hge] at hcard ⊢
    exact (min_eq_left hcard).symm
  · have hcard := countP_eq_card h.nodup fun q hq => (h.mem_iff q).2 (heq ▸ List.mem_append_right _ (hall q hq))
    rw [← hcard, hcount]
    exact (min_eq_right (by exact_mod_cast hle)).symm

/-- Impossible paths are found if possible ones do not suffice, and there are some from whose states paths are possible. -/
theorem Found.forall_possible_iff (hfinal : ∀ {s final}, a.final? s = some final → final.cost ≠ ⊤)
    (h : a.Found start n bound d T paths) (hend : T.finished.length = n ∨ T.waiting = 0) :
    (∀ p ∈ paths, p.Possible) ↔ (n : ℕ∞) ≤ ENat.card {p : AcceptingPath a // p.Possible} ∨
      ∀ p : AcceptingPath a, (∀ s ∈ p.first :: p.arcs.map (·.target), a.Productive s) → p.Possible := by
  have hcount := h.countP_possible hfinal hend
  constructor
  · intro hall
    rw [List.countP_eq_length.2 (by simpa using hall), h.length_eq] at hcount
    refine or_iff_not_imp_left.2 fun hlt p hp => ?_
    have hless : ¬n ≤ T.finished.length := by
      intro hge
      refine hlt ((Nat.cast_le.2 hge).trans (hcount.trans_le (min_le_right _ _)))
    have hquiet : T.Quiet fun _ => True := Trace.quiet_of_waiting_eq (hend.resolve_left fun heq => hless heq.ge)
    have harcs : ∀ arc ∈ p.arcs, True ∧ costAt d arc.target ≠ ⊤ := fun arc harc =>
      ⟨trivial, h.backward.ne_top_iff.2 (hp _ (List.mem_cons_of_mem _ (List.mem_map_of_mem harc)))⟩
    have hfound := (hquiet.mem_finished_or_le_length h.coherent h.start_eq p harcs).resolve_right hless
    exact hall p ((h.mem_iff p).2 hfound)
  · rintro (hle | hall) p hp
    · have hlength : paths.length ≤ paths.countP (·.Possible) := by
        rw [min_eq_left hle, Nat.cast_inj] at hcount
        rw [hcount, h.length_eq]
        exact h.length_le
      simpa using List.countP_eq_length.1 (le_antisymm List.countP_le_length hlength) p hp
    · refine hall p fun s hs => h.backward.ne_top_iff.1 ?_
      have hnode : .ended (p.beginning h.start_eq) ∈ T.nodes := by
        simp [Trace.nodes, Trace.closed, (h.mem_iff p).1 hp]
      have hparent := h.coherent.parent_mem _ hnode _ (.ended _)
      refine h.coherent.costAt_ne_top (Multiset.mem_add.2 (.inr (Trace.mem_closed_of_expanded hparent))) s ?_
      rwa [p.first_eq h.start_eq] at hs

/-- The search for the best `n` paths ends, and its result is a fan of accepting paths, among them `n` that are possible, or
all that there are. The others are impossible; there are some exactly if the possible ones do not suffice and there is an
impossible path from each state of which some path is possible. -/
theorem exists_bestPaths_possible (hcost : ∀ {s}, ∀ arc ∈ a.arcsAt s, 0 ≤ arc.weight.cost)
    (hfinal : ∀ {s final}, a.final? s = some final → final.cost ≠ ⊤) (hb : 0 ≤ bound) (n : Nat) :
    ∃ paths : List (AcceptingPath a), paths.Nodup ∧ paths.length ≤ n ∧
      (paths.countP (·.Possible) : ℕ∞) = min (n : ℕ∞) (ENat.card {p : AcceptingPath a // p.Possible}) ∧
      ((∀ p ∈ paths, p.Possible) ↔ (n : ℕ∞) ≤ ENat.card {p : AcceptingPath a // p.Possible} ∨
        ∀ p : AcceptingPath a, (∀ s ∈ p.first :: p.arcs.map (·.target), a.Productive s) → p.Possible) ∧
      (∃ e : Fin paths.length ≃ AcceptingPath (a.fan paths), ∀ k, (e k).content = (paths.get k).content) ∧
      ∃ N, ∀ limit ≥ N, (0 < n → a.SearchEnds n bound limit) ∧ a.bestPaths n bound limit = some (a.fan paths) := by
  rcases Nat.eq_zero_or_pos n with rfl | hn
  · refine ⟨[], List.nodup_nil, le_rfl, by simp, by simp, exists_equiv_fan List.nodup_nil, 0, fun limit _ => ⟨nofun, ?_⟩⟩
    unfold bestPaths
    cases a.start <;> rfl
  · obtain ⟨paths, hnodup, ⟨N, hN⟩, hfound⟩ := exists_bestPaths_course (a := a) hcost hfinal hb hn
    have hresult : ∃ N, ∀ limit ≥ N, (0 < n → a.SearchEnds n bound limit) ∧ a.bestPaths n bound limit = some (a.fan paths) :=
      ⟨N, fun limit hlimit => ⟨fun _ => (hN limit hlimit).1, (hN limit hlimit).2⟩⟩
    rcases hfound with ⟨rfl, hnone⟩ | ⟨start, d, T, hfound, hend⟩
    · have hempty : IsEmpty {p : AcceptingPath a // p.Possible} :=
        ⟨fun p => (isZero_eq_false_iff _).1 p.2 (hnone p.1)⟩
      refine ⟨[], hnodup, Nat.zero_le n, ?_, iff_of_true nofun (.inr fun p hp => ?_), exists_equiv_fan hnodup, hresult⟩
      · simp [(ENat.card_eq_zero_iff_empty _).2 hempty]
      · obtain ⟨places, arcs, t, final, hway, hf, hpossible⟩ := hp p.first List.mem_cons_self
        exact (hempty.false ⟨⟨p.first, places, arcs, t, final, p.start_eq, hway, hf⟩, hpossible⟩).elim
    · exact ⟨paths, hnodup, hfound.length_eq.trans_le hfound.length_le, hfound.countP_possible hfinal hend,
        hfound.forall_possible_iff hfinal hend, exists_equiv_fan hnodup, hresult⟩

/-- Two arcs lead across, but one of them cannot be taken. -/
def drawbridge : Automaton (ExactCost ℚ) where
  states := #[{ arcs := #[⟨1, 1, 1, 1⟩, ⟨2, 2, ⟨⊤⟩, 1⟩] }, { final := some 1 }]
  start := some 0

theorem exists_bestPaths_possible_drawbridge :
    ∃ paths : List (AcceptingPath drawbridge), paths.Nodup ∧ paths.length ≤ 2 ∧
      (paths.countP (·.Possible) : ℕ∞) = min ((2 : Nat) : ℕ∞) (ENat.card {p : AcceptingPath drawbridge // p.Possible}) ∧
      ((∀ p ∈ paths, p.Possible) ↔ ((2 : Nat) : ℕ∞) ≤ ENat.card {p : AcceptingPath drawbridge // p.Possible} ∨
        ∀ p : AcceptingPath drawbridge, (∀ s ∈ p.first :: p.arcs.map (·.target), drawbridge.Productive s) → p.Possible) ∧
      (∃ e : Fin paths.length ≃ AcceptingPath (drawbridge.fan paths), ∀ k, (e k).content = (paths.get k).content) ∧
      ∃ N, ∀ limit ≥ N, (0 < 2 → drawbridge.SearchEnds 2 (1 / 1024 : ℚ) limit) ∧
        drawbridge.bestPaths 2 (1 / 1024 : ℚ) limit = some (drawbridge.fan paths) :=
  exists_bestPaths_possible (forall_mem_arcsAt_iff.2 (by decide +kernel))
    ((forall_final?_iff (a := drawbridge) (P := fun weight => weight.cost ≠ ⊤)).2 (by decide +kernel)) (by norm_num) 2

theorem distances_drawbridge {limit : Nat} (hlimit : 2 ≤ limit) :
    drawbridge.distances .backward (1 / 1024 : ℚ) limit = some #[1, 1] := by
  have hfirst : drawbridge.distances .backward (1 / 1024 : ℚ) 2 = some #[1, 1] := by decide +kernel
  rw [distances_eq] at hfirst ⊢
  exact run_of_le hfirst hlimit

/-- The paths of `drawbridge` as they are found. -/
def drawbridgePaths : List (AcceptingPath drawbridge) :=
  [⟨0, [0], _, 1, _, rfl, .cons rfl (.nil _), rfl⟩, ⟨0, [1], _, 1, _, rfl, .cons rfl (.nil _), rfl⟩]

/-- The result for `drawbridge` has an impossible path. -/
theorem bestPaths_impossible_drawbridge :
    ∃ b, (∃ N, ∀ limit ≥ N, drawbridge.bestPaths 2 (1 / 1024 : ℚ) limit = some b) ∧
      ∃ p : AcceptingPath b, isZero p.weight = true := by
  have hfound : List.Forall₂ (fun (q : AcceptingPath drawbridge) c => c.arcs = q.arcs.reverse ∧ c.state = q.last)
      drawbridgePaths (drawbridge.bestFrom 0 #[1, 1] 2) := by decide +kernel
  refine ⟨drawbridge.fan drawbridgePaths, ⟨2, fun limit hlimit => ?_⟩, ?_⟩
  · rw [bestPaths_of_distances rfl (by decide) (distances_drawbridge hlimit), if_neg (by decide +kernel)]
    exact congrArg some (foldl_addBest hfound (by decide +kernel) (List.cons_ne_nil _ _))
  · have hnodup : (drawbridgePaths.map (·.places)).Nodup := by decide
    have hzero : ∃ k : Fin drawbridgePaths.length, isZero drawbridgePaths[k].weight = true := by decide +kernel
    obtain ⟨e, he⟩ := exists_equiv_fan hnodup.of_map
    obtain ⟨k, hk⟩ := hzero
    exact ⟨e k, (congrArg isZero (AcceptingPath.weight_congr (he k))).trans hk⟩

end Transducer.Automaton
