import Mathlib
import Transducer.Proofs.Path.Course

/-!
# One path, up to a bound

With backward distances up to a bound, the search for one path finds one that costs no more than any other but for
the bound for each state but one: `exists_bestPaths_one`.

Distances up to a bound may promise too much for one beginning and not for another, and a state is extended only once,
with the first beginning that leads there. Still the errors do not add up along the search. `Trace.Near` is the
invariant: the beginning with which a state has been extended costs no more than any way to the state, with the bound
as a surcharge on each arc. It is kept since along every way to a state that is not yet extended some beginning waits
(`Trace.Near.exists_waiting`), and this beginning promises no more than the way with its surcharge. In the end a
surcharge counts only for a shortcut, which has fewer arcs than there are states.
-/

namespace Transducer.Automaton

open ExactCost Relaxation

variable {K : Type} [AddCommGroup K] [LinearOrder K] {a : Automaton (ExactCost K)} {start : Nat}
  {d : Array (ExactCost K)} {bound : K}

namespace Trace

/-- The invariant of a search for one path: neither the beginnings that have been extended nor the first path found cost
more than any way that leads to the same end, with the bound as a surcharge on its arcs. -/
structure Near (bound : K) (T : a.Trace start) : Prop where
  expanded_le : ∀ p ∈ T.expanded, ∀ {places arcs}, a.Way start places arcs p.last → total p.arcs ≤ padded bound arcs
  finished_le : ∀ {p}, T.finished = [p] → ∀ {places arcs t final}, a.Way start places arcs t →
    a.final? t = some final → total p.arcs + orTop (a.final? p.last) ≤ padded bound arcs + final.cost

variable {T T' : a.Trace start} {p : a.Beginning start} {waiting : Multiset (a.Node start)}

theorem near_init : Near bound (Trace.init a start) where
  expanded_le p hp := absurd hp (Multiset.notMem_zero p)
  finished_le h := by cases h

variable [IsOrderedAddMonoid K]

/-- The end of a way from the start has been extended, or something waits that promises no more than the way. -/
theorem Near.exists_waiting (hb : 0 ≤ bound) (hd : a.Backward bound d) (h : T.Coherent d 1) (hnear : T.Near bound)
    {t : Nat} {places : List Nat} {arcs : List (Arc (ExactCost K))} (hway : a.Way start places arcs t)
    (hfinite : total arcs ≠ ⊤) (ht : costAt d t ≠ ⊤) :
    (∃ q ∈ T.expanded, q.last = t) ∨ ∃ x ∈ T.waiting, promise d x ≤ padded bound arcs + costAt d t := by
  rcases h.waiting_or_expanded one_pos h.root_mem with hroot | hroot
  · refine .inr ⟨_, hroot, ?_⟩
    show total [] + costAt d start ≤ _
    rw [total_nil, zero_add]
    exact hd.le_padded hway
  · rcases h.expanded_or_waiting hd one_pos hway hfinite ht hroot with
      hlast | ⟨q, hq, i, arc, hi, hwaits, before, after, rfl, ⟨_, hbefore⟩, _, hafter⟩
    · exact .inl hlast
    · refine .inr ⟨_, hwaits, ?_⟩
      have hq := hnear.expanded_le q hq hbefore
      have harc : arc.weight.cost ≤ arc.weight.cost + (bound : WithTop K) :=
        le_add_of_nonneg_right (by exact_mod_cast hb)
      calc
        total (q.arcs ++ [arc]) + costAt d arc.target
          = total q.arcs + arc.weight.cost + costAt d arc.target := by
            rw [total_append, total_cons, total_nil, add_zero]
        _ ≤ padded bound before + (arc.weight.cost + bound) + (padded bound after + costAt d t) :=
            add_le_add (add_le_add hq harc) (hd.le_padded hafter)
        _ = padded bound (before ++ arc :: after) + costAt d t := by
            rw [padded_append, padded_cons]
            abel

theorem Near.finish (hb : 0 ≤ bound) (hd : a.Backward bound d) (h : T.Coherent d 1) (hnear : T.Near bound)
    (hmin : ∀ y ∈ T.waiting, promise d (.ended p) ≤ promise d y) :
    Near bound { T with waiting, finished := p :: T.finished } where
  expanded_le := hnear.expanded_le
  finished_le := by
    intro p' hp' places arcs t final hway hf
    obtain ⟨rfl, hnil⟩ := List.cons.inj hp'
    by_cases htop : padded bound arcs + final.cost = ⊤
    · rw [htop]
      exact le_top
    obtain ⟨harcs, hfinal⟩ := WithTop.add_ne_top.1 htop
    have hle := hd.le_final hf
    have hfinite : total arcs ≠ ⊤ := by
      rw [padded_eq] at harcs
      exact (WithTop.add_ne_top.1 harcs).1
    rcases hnear.exists_waiting hb hd h hway hfinite (ne_top_of_le_ne_top hfinal hle) with ⟨q, hq, rfl⟩ | ⟨x, hx, hpromise⟩
    · -- a path that ends there waits, as none has been found yet
      have hwaits := (h.waiting_or_finished hq hf).resolve_right (by rw [hnil]; exact List.not_mem_nil)
      refine (hmin _ hwaits).trans ?_
      show total q.arcs + orTop (a.final? q.last) ≤ _
      rw [hf, orTop_some]
      exact add_le_add_left (hnear.expanded_le q hq hway) _
    · exact (hmin x hx).trans (hpromise.trans (add_le_add_right hle _))

theorem Near.expand (hb : 0 ≤ bound) (hd : a.Backward bound d) (h : T.Coherent d 1) (hnear : T.Near bound)
    (hw : T.waiting = .onward p ::ₘ waiting) (hmin : ∀ y ∈ T.waiting, promise d (.onward p) ≤ promise d y)
    (hcount : T.expanded.countP (·.last = p.last) < 1) :
    Near bound
      { T with waiting := (children d p : Multiset (a.Node start)) + waiting,
               expanded := p ::ₘ T.expanded } where
  expanded_le := by
    intro q hq places arcs hway
    rcases Multiset.mem_cons.1 hq with rfl | hq
    · by_cases hfinite : total arcs = ⊤
      · rw [padded_eq, hfinite, WithTop.top_add]
        exact le_top
      have hlast : costAt d q.last ≠ ⊤ := h.viable _ (mem_nodes_of_waiting hw)
      have hnew : ¬∃ q' ∈ T.expanded, q'.last = q.last := by
        rw [← Multiset.countP_pos]
        omega
      obtain ⟨x, hx, hpromise⟩ := (hnear.exists_waiting hb hd h hway hfinite hlast).resolve_left hnew
      exact (WithTop.add_le_add_iff_right hlast).1 ((hmin x hx).trans hpromise)
    · exact hnear.expanded_le q hq hway
  finished_le := hnear.finished_le

/-- A step keeps the invariant. -/
theorem Near.step (hb : 0 ≤ bound) (hd : a.Backward bound d) (h : T.Coherent d 1) (hnear : T.Near bound)
    (hs : Step d 1 T T') : T'.Near bound := by
  have hall : ∀ {x : a.Node start} {waiting}, T.waiting = x ::ₘ waiting → (∀ y ∈ waiting, promise d x ≤ promise d y) →
      ∀ y ∈ T.waiting, promise d x ≤ promise d y := by
    intro x waiting hw hmin y hy
    rw [hw] at hy
    rcases Multiset.mem_cons.1 hy with rfl | hy
    · exact le_rfl
    · exact hmin y hy
  cases hs with
  | finish hw hmin => exact hnear.finish hb hd h (hall hw hmin)
  | cap hw hmin hcount => exact ⟨hnear.expanded_le, hnear.finished_le⟩
  | expand hw hmin hcount => exact hnear.expand hb hd h hw (hall hw hmin) hcount

theorem Near.steps (hb : 0 ≤ bound) (hd : a.Backward bound d) (h : T.Coherent d 1) (hnear : T.Near bound)
    (hs : Relation.ReflTransGen (Step d 1) T T') : T'.Near bound := by
  induction hs with
  | refl => exact hnear
  | tail hsteps hstep ih => exact ih.step hb hd (h.steps hsteps) hstep

end Trace

variable [IsOrderedAddMonoid K]

/-- The one path that is found costs no more than any other, but for the slack of the bound. -/
theorem Found.cost_le (hcost : ∀ {s}, ∀ arc ∈ a.arcsAt s, 0 ≤ arc.weight.cost) (hb : 0 ≤ bound) {T : a.Trace start}
    {p : AcceptingPath a} (h : a.Found start 1 bound d T [p]) (q : AcceptingPath a) :
    p.weight.cost ≤ q.weight.cost + a.slack bound := by
  have hnear := Trace.near_init.steps hb h.backward (Trace.coherent_init h.root_ne_top) h.steps
  have hfinished : T.finished = [p.beginning h.start_eq] := by
    rw [← List.reverse_reverse T.finished, ← h.paths_eq]
    rfl
  obtain ⟨places, arcs, hshort, hle⟩ :=
    exists_shortcut hcost hb (q.beginning h.start_eq).way (lt_size_of_final? q.final_eq)
  calc
    p.weight.cost ≤ padded bound arcs + q.final.cost := by
      rw [← Trace.promise_beginning (d := d) h.start_eq p]
      exact hnear.finished_le hfinished hshort q.final_eq
    _ ≤ total q.arcs + a.slack bound + q.final.cost := add_le_add_left hle _
    _ = q.weight.cost + a.slack bound := by
      rw [AcceptingPath.weight, cost_weigh]
      abel

/-- The search for one path ends. It finds none exactly if no accepting path has a finite cost, and otherwise one that
does not cost more than any other by more than the bound for each state but one. -/
theorem exists_bestPaths_one (hcost : ∀ {s}, ∀ arc ∈ a.arcsAt s, 0 ≤ arc.weight.cost)
    (hfinal : ∀ {s final}, a.final? s = some final → final.cost ≠ ⊤) (hb : 0 ≤ bound) :
    ∃ b, (∃ N, ∀ limit ≥ N, a.SearchEnds 1 bound limit ∧ a.bestPaths 1 bound limit = some b) ∧
      (b.size = 0 ↔ ∀ p : AcceptingPath a, isZero p.weight = true) ∧
      (b.size ≠ 0 → ∃ p : AcceptingPath a, (∃ r : AcceptingPath b, r.content = p.content ∧ ∀ r' : AcceptingPath b, r' = r) ∧
        ∀ q : AcceptingPath a, p.weight.cost ≤ q.weight.cost + (((a.size - 1) • bound : K) : WithTop K)) := by
  obtain ⟨paths, hnodup, hresult, hfound⟩ := exists_bestPaths_fan (a := a) hcost hfinal hb one_pos
  refine ⟨a.fan paths, hresult, ?_⟩
  rcases hfound with ⟨rfl, hnone⟩ | ⟨start, d, T, hfound⟩
  · have hsize : (a.fan []).size = 0 := rfl
    exact ⟨iff_of_true hsize fun p => (isZero_iff _).2 (hnone p), fun h => absurd hsize h⟩
  · obtain ⟨p, rfl⟩ : ∃ p, paths = [p] := by
      have hlength := congrArg List.length hfound.paths_eq
      rw [List.length_map, List.length_reverse] at hlength
      exact List.length_eq_one_iff.1 (le_antisymm (hlength.trans_le hfound.length_le) (List.length_pos_iff.2 hfound.ne_nil))
    have hsize : (a.fan [p]).size ≠ 0 := Nat.succ_ne_zero _
    refine ⟨iff_of_false hsize fun hzero => ?_, fun _ => ⟨p, ?_, hfound.cost_le hcost hb⟩⟩
    · obtain ⟨q, hq⟩ := hfound.exists_finite
      exact hq ((isZero_iff _).1 (hzero q))
    · obtain ⟨e, he⟩ := exists_equiv_fan hnodup
      refine ⟨e 0, he 0, fun r' => ?_⟩
      rw [← e.apply_symm_apply r']
      exact congrArg e (Subsingleton.elim (α := Fin 1) _ _)

/-- The cheapest of three ways, `0 1 2 3`, is missed if costs are told apart up to 2 only: the distance of state 1 is
that of its other arc then. -/
def footpath : Automaton (ExactCost ℤ) where
  states := #[{ arcs := #[⟨1, 1, 1, 1⟩, ⟨2, 2, ⟨((2 : ℤ) : WithTop ℤ)⟩, 3⟩] },
    { arcs := #[⟨3, 3, ⟨((3 : ℤ) : WithTop ℤ)⟩, 3⟩, ⟨4, 4, 1, 2⟩] },
    { arcs := #[⟨5, 5, ⟨((1 : ℤ) : WithTop ℤ)⟩, 3⟩, ⟨6, 6, ⟨⊤⟩, 3⟩] },
    { final := some ⟨((-2 : ℤ) : WithTop ℤ)⟩ }]
  start := some 0

theorem exists_bestPaths_one_footpath :
    ∃ b, (∃ N, ∀ limit ≥ N, footpath.SearchEnds 1 (2 : ℤ) limit ∧ footpath.bestPaths 1 (2 : ℤ) limit = some b) ∧
      (b.size = 0 ↔ ∀ p : AcceptingPath footpath, isZero p.weight = true) ∧
      (b.size ≠ 0 → ∃ p : AcceptingPath footpath,
        (∃ r : AcceptingPath b, r.content = p.content ∧ ∀ r' : AcceptingPath b, r' = r) ∧
        ∀ q : AcceptingPath footpath, p.weight.cost ≤ q.weight.cost + (((footpath.size - 1) • (2 : ℤ) : ℤ) : WithTop ℤ)) :=
  exists_bestPaths_one (forall_mem_arcsAt_iff.2 (by decide))
    ((forall_final?_iff (a := footpath) (P := fun weight => weight.cost ≠ ⊤)).2 (by decide)) (by decide)

end Transducer.Automaton
