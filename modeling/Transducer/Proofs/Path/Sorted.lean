import Mathlib
import Transducer.Proofs.Path.Course

/-!
# The order of the paths found

The best paths are found in the order of their costs if the backward distances are exact. With distances up to a bound
they need not be (`bestPaths_not_sorted_sidings`): a path can wait behind others because the distance of a state on it is
too high. It cannot wait behind one that costs much more: `exists_bestPaths_sorted` says that the order is right up to
the bound for each state but one.

This is shown with the exact distances. No step leads to a node that promises less by these, and what the search goes by
is above them by no more than the slack of the bound. So no path that is found costs more than what still waits promises
by the exact distances, but for the slack (`Trace.Ordered`).
-/

namespace Transducer.Automaton

open ExactCost Relaxation

variable {K : Type} [AddCommGroup K] [LinearOrder K] {a : Automaton (ExactCost K)} {start n : Nat}
  {d exact : Array (ExactCost K)} {bound : K} {slack : WithTop K}

namespace Trace

/-- The paths found cost no more than those found later, nor than what waits promises by the exact distances, but for some
slack. -/
structure Ordered (exact : Array (ExactCost K)) (slack : WithTop K) (T : a.Trace start) : Prop where
  finished_le : ∀ p ∈ T.finished, ∀ y ∈ T.waiting, promise exact (.ended p) ≤ promise exact y + slack
  sorted : T.finished.Pairwise fun p q => promise exact (.ended q) ≤ promise exact (.ended p) + slack

variable {T T' : a.Trace start}

theorem ordered_init : Ordered exact slack (Trace.init a start) where
  finished_le p hp := by cases hp
  sorted := List.Pairwise.nil

variable [IsOrderedAddMonoid K]

/-- What the search goes by is not above what the exact distances promise, but for the slack. -/
theorem promise_le_add (hslack : 0 ≤ slack) (hclose : ∀ s, costAt d s ≤ costAt exact s + slack) (x : a.Node start) :
    promise d x ≤ promise exact x + slack := by
  cases x with
  | onward p =>
    show total p.arcs + costAt d p.last ≤ total p.arcs + costAt exact p.last + slack
    rw [add_assoc]
    exact add_le_add_right (hclose p.last) _
  | ended p => exact le_add_of_nonneg_right hslack

/-- A step keeps the order. -/
theorem Ordered.step (hexact : a.Backward 0 exact) (hslack : 0 ≤ slack)
    (hclose : ∀ s, costAt d s ≤ costAt exact s + slack) (h : T.Ordered exact slack) (hs : Step d n T T') :
    T'.Ordered exact slack := by
  have hwaiting : ∀ {x : a.Node start} {waiting}, T.waiting = x ::ₘ waiting → x ∈ T.waiting ∧ waiting ⊆ T.waiting := by
    intro x waiting hw
    rw [hw]
    exact ⟨Multiset.mem_cons_self _ _, Multiset.subset_cons _ _⟩
  cases hs with
  | @finish p waiting hw hmin =>
    obtain ⟨hp, hsub⟩ := hwaiting hw
    refine ⟨fun q hq y hy => ?_, List.pairwise_cons.2 ⟨fun q hq => h.finished_le q hq _ hp, h.sorted⟩⟩
    rcases List.mem_cons.1 hq with rfl | hq
    · exact (hmin y hy).trans (promise_le_add hslack hclose y)
    · exact h.finished_le q hq y (hsub hy)
  | cap hw _ _ =>
    obtain ⟨-, hsub⟩ := hwaiting hw
    exact ⟨fun q hq y hy => h.finished_le q hq y (hsub hy), h.sorted⟩
  | @expand p waiting hw _ _ =>
    obtain ⟨hp, hsub⟩ := hwaiting hw
    refine ⟨fun q hq y hy => ?_, h.sorted⟩
    rcases Multiset.mem_add.1 hy with hy | hy
    · have hchild := promise_le_of_child hexact (mem_children.1 (Multiset.mem_coe.1 hy)).1
      exact (h.finished_le q hq _ hp).trans (add_le_add_left hchild _)
    · exact h.finished_le q hq y (hsub hy)

theorem Ordered.steps (hexact : a.Backward 0 exact) (hslack : 0 ≤ slack)
    (hclose : ∀ s, costAt d s ≤ costAt exact s + slack) (h : T.Ordered exact slack)
    (hs : Relation.ReflTransGen (Step d n) T T') : T'.Ordered exact slack := by
  induction hs with
  | refl => exact h
  | tail _ hstep ih => exact ih.step hexact hslack hclose hstep

end Trace

variable [IsOrderedAddMonoid K]

/-- The paths are found in the order of their costs, but for the slack of the bound. -/
theorem Found.sorted (hcost : ∀ {s}, ∀ arc ∈ a.arcsAt s, 0 ≤ arc.weight.cost) (hb : 0 ≤ bound) {T : a.Trace start}
    {paths : List (AcceptingPath a)} (h : a.Found start n bound d T paths) :
    paths.Pairwise fun p q => p.weight.cost ≤ q.weight.cost + a.slack bound := by
  obtain ⟨exact, hexact, -⟩ := exists_distances_backward hcost (le_refl (0 : K))
  have hslack : 0 ≤ a.slack bound := WithTop.coe_le_coe.2 (nsmul_nonneg hb _)
  have hordered := Trace.ordered_init.steps hexact hslack (hexact.le_add_slack hcost hb h.backward) h.steps
  have hsorted := List.pairwise_reverse.2 hordered.sorted
  rw [← h.paths_eq, List.pairwise_map] at hsorted
  simpa only [Trace.promise_beginning] using hsorted

/-- The search for the best `n` paths ends, and its result is a fan of accepting paths which are in the order of their costs
up to the bound for each state but one. -/
theorem exists_bestPaths_sorted (hcost : ∀ {s}, ∀ arc ∈ a.arcsAt s, 0 ≤ arc.weight.cost)
    (hfinal : ∀ {s final}, a.final? s = some final → final.cost ≠ ⊤) (hb : 0 ≤ bound) (n : Nat) :
    ∃ paths : List (AcceptingPath a), paths.Nodup ∧
      (paths.Pairwise fun p q => p.weight.cost ≤ q.weight.cost + (((a.size - 1) • bound : K) : WithTop K)) ∧
      (∃ e : Fin paths.length ≃ AcceptingPath (a.fan paths), ∀ k, (e k).content = paths[k].content) ∧
      ∃ N, ∀ limit ≥ N, (0 < n → a.SearchEnds n bound limit) ∧ a.bestPaths n bound limit = some (a.fan paths) := by
  rcases Nat.eq_zero_or_pos n with rfl | hn
  · refine ⟨[], List.nodup_nil, List.Pairwise.nil, exists_equiv_fan List.nodup_nil, 0, fun limit _ => ⟨nofun, ?_⟩⟩
    unfold bestPaths
    cases a.start <;> rfl
  · obtain ⟨paths, hnodup, ⟨N, hN⟩, hfound⟩ := exists_bestPaths_fan (a := a) hcost hfinal hb hn
    refine ⟨paths, hnodup, ?_, exists_equiv_fan hnodup, N, fun limit hlimit => ⟨fun _ => (hN limit hlimit).1, (hN limit hlimit).2⟩⟩
    rcases hfound with ⟨rfl, -⟩ | ⟨start, d, T, hfound⟩
    · exact List.Pairwise.nil
    · exact hfound.sorted hcost hb

/-- Three ways to final states. The distances of states 0 and 1 are found first by way of the final weight of state 1, from
which the better way differs by no more than 1/1024. -/
def sidings : Automaton (ExactCost ℚ) where
  states := #[{ arcs := #[⟨1, 1, 1, 1⟩, ⟨2, 2, ⟨((3 / 2048 : ℚ) : WithTop ℚ)⟩, 3⟩] },
    { arcs := #[⟨3, 3, 1, 2⟩], final := some ⟨((1 / 512 : ℚ) : WithTop ℚ)⟩ },
    { final := some ⟨((1 / 1024 : ℚ) : WithTop ℚ)⟩ }, { final := some 1 }]
  start := some 0

theorem exists_bestPaths_sorted_sidings :
    ∃ paths : List (AcceptingPath sidings), paths.Nodup ∧
      (paths.Pairwise fun p q => p.weight.cost ≤
        q.weight.cost + (((sidings.size - 1) • (1 / 1024 : ℚ) : ℚ) : WithTop ℚ)) ∧
      (∃ e : Fin paths.length ≃ AcceptingPath (sidings.fan paths), ∀ k, (e k).content = paths[k].content) ∧
      ∃ N, ∀ limit ≥ N, (0 < 3 → sidings.SearchEnds 3 (1 / 1024 : ℚ) limit) ∧
        sidings.bestPaths 3 (1 / 1024 : ℚ) limit = some (sidings.fan paths) :=
  exists_bestPaths_sorted (forall_mem_arcsAt_iff.2 (by decide +kernel))
    ((forall_final?_iff (a := sidings) (P := fun weight => weight.cost ≠ ⊤)).2 (by decide +kernel)) (by norm_num) 3

/-- The backward distances of `sidings` up to 1/1024. Those of states 0 and 1 are 1/1024 too high. -/
def sidingsDistances : Array (ExactCost ℚ) :=
  #[⟨((1 / 512 : ℚ) : WithTop ℚ)⟩, ⟨((1 / 512 : ℚ) : WithTop ℚ)⟩, ⟨((1 / 1024 : ℚ) : WithTop ℚ)⟩, 1]

theorem distances_sidings {limit : Nat} (hlimit : 4 ≤ limit) :
    sidings.distances .backward (1 / 1024 : ℚ) limit = some sidingsDistances := by
  obtain ⟨r, -, hrun⟩ := exists_fresh_backward sidings (1 / 1024 : ℚ)
  have hfirst : sidings.distances .backward (1 / 1024 : ℚ) 4 = some sidingsDistances := by decide +kernel
  rw [hrun] at hfirst ⊢
  exact run_of_le hfirst hlimit

/-- The paths of `sidings` as they are found. The first one costs more than the second. -/
def sidingsPaths : List (AcceptingPath sidings) :=
  [⟨0, [1], _, 3, _, rfl, .cons rfl (.nil _), rfl⟩, ⟨0, [0, 0], _, 2, _, rfl, .cons rfl (.cons rfl (.nil _)), rfl⟩,
    ⟨0, [0], _, 1, _, rfl, .cons rfl (.nil _), rfl⟩]

/-- The paths of `sidings` are not found in the order of their costs. -/
theorem bestPaths_not_sorted_sidings : ∃ paths : List (AcceptingPath sidings),
    (∃ N, ∀ limit ≥ N, sidings.bestPaths 3 (1 / 1024 : ℚ) limit = some (sidings.fan paths)) ∧
      ¬paths.Pairwise fun p q => p.weight.cost ≤ q.weight.cost := by
  have hfound : List.Forall₂ (fun (q : AcceptingPath sidings) c => c.arcs = q.arcs.reverse ∧ c.state = q.last)
      sidingsPaths (sidings.bestFrom 0 sidingsDistances 3) := by decide +kernel
  have hsorted : ¬sidingsPaths.Pairwise fun p q => p.weight.cost ≤ q.weight.cost := by decide +kernel
  refine ⟨sidingsPaths, ⟨4, fun limit hlimit => ?_⟩, hsorted⟩
  rw [bestPaths_of_distances rfl (by decide) (distances_sidings hlimit), if_neg (by decide +kernel)]
  exact congrArg some (foldl_addBest hfound (by decide +kernel) (List.cons_ne_nil _ _))

end Transducer.Automaton
