import Mathlib
import Transducer.Path.Best
import Transducer.Path.Heap.Order
import Transducer.Proofs.Path.Exchange

/-!
# The search takes the steps of its course

The search for best paths keeps its candidates in a heap, each with a number. What a candidate stands for
is a node (`Stands`), and what the heap holds stands for the nodes that wait (`Simulates`). Each turn of
the search is a step of its course, and the bound on the number of turns is never met before the search
has ended.
-/

namespace Transducer.BestSearch

open Automaton ExactCost Relaxation

variable {K : Type} [LinearOrder K]

/-! ### The order of the candidates -/

theorem precedes_iff {x y : Candidate (ExactCost K) × Nat} :
    precedes x y = true ↔ x.1.promise.cost < y.1.promise.cost ∨
      x.1.promise.cost ≤ y.1.promise.cost ∧ x.2 < y.2 := by
  rw [precedes, Bool.or_eq_true, Bool.and_eq_true, better_iff, Bool.not_eq_true', ← not_lt,
    decide_eq_true_iff, ← Bool.not_eq_true, better_iff]

theorem strictWeakOrder_precedes :
    Heap.StrictWeakOrder (precedes : Candidate (ExactCost K) × Nat → _ → Bool) where
  asymm {x y} h := by
    rw [← Bool.not_eq_true, precedes_iff]
    rcases precedes_iff.1 h with h | ⟨hle, hlt⟩
    · exact fun h' => h'.elim h.asymm fun h' => not_le.2 h h'.1
    · exact fun h' => h'.elim (not_lt.2 hle) fun h' => hlt.asymm h'.2
  passed {x y z} h h' := by
    rw [← Bool.not_eq_true, precedes_iff, not_or, not_lt, not_and, not_lt] at *
    refine ⟨h'.1.trans h.1, fun hle => ?_⟩
    exact (h'.2 (h.1.trans hle)).trans (h.2 (hle.trans h'.1))

theorem enqueue_foldl (search : BestSearch (ExactCost K)) (cs : List (Candidate (ExactCost K))) :
    (cs.foldl enqueue search).extended = search.extended ∧ (cs.foldl enqueue search).found = search.found := by
  induction cs generalizing search with
  | nil => exact ⟨rfl, rfl⟩
  | cons c cs ih => exact ih (search.enqueue c)

theorem ordered_foldl {search : BestSearch (ExactCost K)} (h : search.queue.Ordered precedes)
    (cs : List (Candidate (ExactCost K))) : (cs.foldl enqueue search).queue.Ordered precedes := by
  induction cs generalizing search with
  | nil => exact h
  | cons c cs ih => exact ih (Heap.ordered_push strictWeakOrder_precedes h _)

variable [AddCommGroup K] {a : Automaton (ExactCost K)} {start : Nat} {d : Array (ExactCost K)}

/-! ### What a candidate stands for -/

/-- A candidate stands for a node: it has its state, its arcs, and what it costs and promises. -/
inductive Stands (d : Array (ExactCost K)) : a.Node start → Candidate (ExactCost K) → Prop where
  /-- The beginning of a path. -/
  | onward {p : a.Beginning start} {c : Candidate (ExactCost K)} : c.complete = false →
      c.state = p.last → c.arcs = p.arcs.reverse → c.weight.cost = total p.arcs →
        c.promise.cost = promise d (.onward p) → Stands d (.onward p) c
  /-- A path that ends. -/
  | ended {p : a.Beginning start} {c : Candidate (ExactCost K)} : c.complete = true →
      c.state = p.last → c.arcs = p.arcs.reverse → c.promise.cost = promise d (.ended p) →
        Stands d (.ended p) c

theorem Stands.promise_eq {x : a.Node start} {c : Candidate (ExactCost K)} (h : Stands d x c) :
    c.promise.cost = promise d x := by
  cases h with
  | onward _ _ _ _ h => exact h
  | ended _ _ _ h => exact h

theorem Stands.complete_of_ended {p : a.Beginning start} {c : Candidate (ExactCost K)}
    (h : Stands d (.ended p) c) : c.complete = true := by
  cases h with
  | ended h _ _ _ => exact h

theorem Stands.of_onward {p : a.Beginning start} {c : Candidate (ExactCost K)}
    (h : Stands d (.onward p) c) : c.complete = false ∧ c.state = p.last := by
  cases h with
  | onward h h' _ _ _ => exact ⟨h, h'⟩

theorem forall₂_filterMap {α β γ : Type*} {R : β → γ → Prop} {f : α → Option β} {g : α → Option γ}
    (h : ∀ x, Option.Rel R (f x) (g x)) (xs : List α) :
    List.Forall₂ R (xs.filterMap f) (xs.filterMap g) := by
  induction xs with
  | nil => exact .nil
  | cons x xs ih =>
    have hx := h x
    rw [List.filterMap_cons, List.filterMap_cons]
    generalize f x = y at hx ⊢
    generalize g x = z at hx ⊢
    cases hx with
    | none => exact ih
    | some hr => exact .cons hr ih

theorem toList_eq_map_finRange {α : Type*} (xs : Array α) :
    xs.toList = (List.finRange xs.size).map fun i => xs[i] := by
  refine List.ext_getElem ?_ fun i hi hi' => ?_
  · simp
  · simp

/-- The extensions of a candidate stand for the viable nodes that its beginning leads to. -/
theorem stands_extensions {p : a.Beginning start} {c : Candidate (ExactCost K)}
    (h : Stands d (.onward p) c) : List.Forall₂ (Stands d) (children d p) (extensions a d c) := by
  cases h with
  | onward hcomplete hstate harcs hweight hpromise =>
    unfold extensions children
    rw [hstate]
    refine List.rel_append ?_ ?_
    · cases hf : a.final? p.last with
      | none => exact .nil
      | some final =>
        refine .cons (.ended rfl rfl harcs ?_) .nil
        show c.weight.cost + final.cost = total p.arcs + orTop (a.final? p.last)
        rw [hweight, hf, orTop_some]
    · rw [toList_eq_map_finRange, List.filterMap_map]
      refine forall₂_filterMap (fun i => ?_) _
      show Option.Rel _ (if isZero (d.getD (a.arcsAt p.last)[i].target 0) then none else some _)
        (if isZero (d.getD (a.arcsAt p.last)[i].target 0) then none else some _)
      split
      · exact .none
      · refine .some (.onward rfl rfl ?_ ?_ ?_)
        · show _ :: c.arcs = (p.arcs ++ [_]).reverse
          rw [harcs, List.reverse_append]
          rfl
        · show c.weight.cost + _ = total (p.arcs ++ [_])
          rw [hweight, total_append, total_cons, total_nil, add_zero]
          rfl
        · show c.weight.cost + _ + _ = total (p.arcs ++ [_]) + costAt d _
          rw [hweight, total_append, total_cons, total_nil, add_zero]
          rfl

/-! ### What the search stands for -/

/-- The entries of a heap stand for nodes that wait. -/
def Holds (d : Array (ExactCost K)) (waiting : Multiset (a.Node start))
    (queue : Heap (Candidate (ExactCost K) × Nat)) : Prop :=
  Multiset.Rel (fun x entry => Stands d x entry.1) waiting
    (queue.toList : Multiset (Candidate (ExactCost K) × Nat))

/-- The search stands where its course is. -/
structure Simulates (d : Array (ExactCost K)) (search : BestSearch (ExactCost K)) (T : a.Trace start) :
    Prop where
  ordered : search.queue.Ordered precedes
  waiting : Holds d T.waiting search.queue
  finished : List.Forall₂ (fun p c => Stands d (.ended p) c) T.finished search.found
  size_extended : search.extended.size = a.size
  extended_eq : ∀ v < a.size, search.extended.getD v 0 = T.expanded.countP (·.last = v)

variable {search : BestSearch (ExactCost K)} {T : a.Trace start} {n bound : Nat}

/-- Candidates that are made to wait stand for more nodes that wait. -/
theorem holds_foldl (search : BestSearch (ExactCost K)) {waiting : Multiset (a.Node start)}
    {xs : List (a.Node start)} {cs : List (Candidate (ExactCost K))}
    (hcs : List.Forall₂ (Stands d) xs cs) (h : Holds d waiting search.queue) :
    Holds d ((xs : Multiset (a.Node start)) + waiting) (cs.foldl enqueue search).queue := by
  induction hcs generalizing search waiting with
  | nil =>
    rw [Multiset.coe_nil, zero_add]
    exact h
  | @cons x c xs cs hc _ ih =>
    have hpush : ((search.enqueue c).queue.toList : Multiset (Candidate (ExactCost K) × Nat)) =
        (c, search.created) ::ₘ (search.queue.toList : Multiset (Candidate (ExactCost K) × Nat)) :=
      Multiset.coe_eq_coe.2 (Heap.toList_push precedes _ search.queue)
    have hone : Holds d (x ::ₘ waiting) (search.enqueue c).queue := by
      rw [Holds, hpush]
      exact .cons hc h
    have hrel := ih (search.enqueue c) hone
    rwa [Multiset.add_cons, ← Multiset.cons_add, Multiset.cons_coe] at hrel

/-- The candidate that is taken next stands for a node that promises no less than the others. -/
theorem Simulates.pop (h : Simulates d search T) {entry : Candidate (ExactCost K) × Nat}
    {queue : Heap (Candidate (ExactCost K) × Nat)} (hp : search.queue.pop? precedes = some (entry, queue)) :
    ∃ x waiting, T.waiting = x ::ₘ waiting ∧ Stands d x entry.1 ∧
      (∀ y ∈ waiting, promise d x ≤ promise d y) ∧ queue.Ordered precedes ∧ Holds d waiting queue := by
  have hperm : (search.queue.toList : Multiset (Candidate (ExactCost K) × Nat)) =
      entry ::ₘ (queue.toList : Multiset (Candidate (ExactCost K) × Nat)) :=
    Multiset.coe_eq_coe.2 (Heap.toList_of_pop? hp)
  have hwaiting := h.waiting
  rw [Holds, hperm] at hwaiting
  obtain ⟨x, waiting, hx, hrel, hw⟩ := Multiset.rel_cons_right.1 hwaiting
  refine ⟨x, waiting, hw, hx, fun y hy => ?_, Heap.ordered_of_pop? strictWeakOrder_precedes h.ordered hp,
    hrel⟩
  obtain ⟨other, hother, hy⟩ := Multiset.exists_mem_of_rel_of_mem hrel hy
  have hmem : other ∈ search.queue.toList :=
    (Heap.toList_of_pop? hp).mem_iff.2 (List.mem_cons_of_mem _ (Multiset.mem_coe.1 hother))
  have hfirst := Heap.first_of_pop? strictWeakOrder_precedes h.ordered hp other hmem
  rw [← Bool.not_eq_true, precedes_iff, not_or, not_lt] at hfirst
  rw [← hx.promise_eq, ← hy.promise_eq]
  exact hfirst.1

/-- The search before its first turn: only the empty beginning waits. -/
def initial (a : Automaton (ExactCost K)) (start : Nat) (d : Array (ExactCost K)) :
    BestSearch (ExactCost K) :=
  enqueue { extended := Array.replicate a.size 0 }
    { promise := d.getD start 0, state := start, weight := 1, arcs := [], complete := false }

theorem simulates_initial (a : Automaton (ExactCost K)) (start : Nat) (d : Array (ExactCost K)) :
    Simulates d (initial a start d) (Trace.init a start) where
  ordered := Heap.ordered_push strictWeakOrder_precedes Heap.ordered_empty _
  waiting := by
    have hroot : Stands d (.onward (.root a start))
        { promise := d.getD start 0, state := start, weight := 1, arcs := [], complete := false } :=
      .onward rfl rfl rfl rfl (zero_add _).symm
    exact holds_foldl { extended := Array.replicate a.size 0 } (.cons hroot .nil) .zero
  finished := .nil
  size_extended := Array.size_replicate
  extended_eq v hv := by
    show (Array.replicate a.size 0).getD v 0 = 0
    simp [Array.getD_eq_getD_getElem?, hv]

/-! ### Turns -/

/-- What the search is after a turn with a candidate, which leaves the given queue. -/
def turn (a : Automaton (ExactCost K)) (d : Array (ExactCost K)) (n : Nat)
    (search : BestSearch (ExactCost K)) (c : Candidate (ExactCost K))
    (queue : Heap (Candidate (ExactCost K) × Nat)) : BestSearch (ExactCost K) :=
  if c.complete then { search with queue, found := c :: search.found }
  else if n ≤ search.extended.getD c.state 0 then { search with queue }
  else
    { (extensions a d c).foldl enqueue { search with queue } with
      extended := ((extensions a d c).foldl enqueue { search with queue }).extended.setIfInBounds c.state
        (search.extended.getD c.state 0 + 1) }

/-- The search comes to an end by itself with the given paths: it has found `n` of them, or nothing waits
any more. -/
inductive Ends (a : Automaton (ExactCost K)) (d : Array (ExactCost K)) (n : Nat) :
    BestSearch (ExactCost K) → List (Candidate (ExactCost K)) → Prop where
  /-- Nothing waits. -/
  | empty {search : BestSearch (ExactCost K)} :
      search.queue.pop? precedes = none → Ends a d n search search.found.reverse
  /-- A path is found, and these are enough. -/
  | enough {search : BestSearch (ExactCost K)} {c : Candidate (ExactCost K)} {i : Nat}
      {queue : Heap (Candidate (ExactCost K) × Nat)} :
      search.queue.pop? precedes = some ((c, i), queue) → c.complete = true →
        (c :: search.found).length = n → Ends a d n search (c :: search.found).reverse
  /-- The search goes on. -/
  | turn {search : BestSearch (ExactCost K)} {c : Candidate (ExactCost K)} {i : Nat}
      {queue : Heap (Candidate (ExactCost K) × Nat)} {paths : List (Candidate (ExactCost K))} :
      search.queue.pop? precedes = some ((c, i), queue) →
        ¬(c.complete = true ∧ (c :: search.found).length = n) →
          Ends a d n (turn a d n search c queue) paths → Ends a d n search paths

variable {c : Candidate (ExactCost K)} {i : Nat} {queue : Heap (Candidate (ExactCost K) × Nat)}

theorem run_of_none (hp : search.queue.pop? precedes = none) :
    run a d n (bound + 1) search = search.found.reverse := by
  rw [run, hp]

theorem run_of_some (hp : search.queue.pop? precedes = some ((c, i), queue)) :
    run a d n (bound + 1) search =
      if c.complete ∧ (c :: search.found).length = n then (c :: search.found).reverse
      else run a d n bound (turn a d n search c queue) := by
  rw [run, hp, turn]
  by_cases hc : c.complete = true
  · simp only [hc, if_true, true_and]
  · simp only [hc, Bool.false_eq_true, if_false, false_and]
    split <;> rfl

variable {p : a.Beginning start} {waiting : Multiset (a.Node start)}

theorem Simulates.turn_ended (h : Simulates d search T) (hc : Stands d (.ended p) c)
    (hordered : queue.Ordered precedes) (hholds : Holds d waiting queue) :
    Simulates d (turn a d n search c queue) { T with waiting, finished := p :: T.finished } := by
  rw [turn, if_pos hc.complete_of_ended]
  exact ⟨hordered, hholds, .cons hc h.finished, h.size_extended, h.extended_eq⟩

theorem Simulates.turn_capped (h : Simulates d search T) (hc : Stands d (.onward p) c)
    (hcount : n ≤ search.extended.getD c.state 0) (hordered : queue.Ordered precedes)
    (hholds : Holds d waiting queue) :
    Simulates d (turn a d n search c queue) { T with waiting, capped := p ::ₘ T.capped } := by
  rw [turn, if_neg (by simp [hc.of_onward.1]), if_pos hcount]
  exact ⟨hordered, hholds, h.finished, h.size_extended, h.extended_eq⟩

theorem Simulates.turn_expanded (h : Simulates d search T) (hc : Stands d (.onward p) c)
    (hlast : p.last < a.size) (hcount : ¬n ≤ search.extended.getD c.state 0)
    (hordered : queue.Ordered precedes) (hholds : Holds d waiting queue) :
    Simulates d (turn a d n search c queue)
      { T with
        waiting := (children d p : Multiset (a.Node start)) + waiting,
        expanded := p ::ₘ T.expanded } := by
  obtain ⟨hcomplete, hstate⟩ := hc.of_onward
  obtain ⟨hextended, hfound⟩ := enqueue_foldl { search with queue } (extensions a d c)
  rw [turn, if_neg (by simp [hcomplete]), if_neg hcount]
  refine
    { ordered := ordered_foldl hordered _
      waiting := holds_foldl _ (stands_extensions hc) hholds
      finished := ?_
      size_extended := ?_
      extended_eq := fun v hv => ?_ }
  · show List.Forall₂ _ T.finished ((extensions a d c).foldl enqueue { search with queue }).found
    rw [hfound]
    exact h.finished
  · rw [Array.size_setIfInBounds, hextended]
    exact h.size_extended
  · show _ = (p ::ₘ T.expanded).countP (·.last = v)
    rw [hextended, hstate, h.extended_eq _ hlast, Multiset.countP_cons, ← h.extended_eq v hv]
    simp only [Array.getD_eq_getD_getElem?, Array.getElem?_setIfInBounds]
    by_cases hvl : p.last = v
    · subst hvl
      simp [h.size_extended, hlast, ← h.extended_eq _ hlast, Array.getD_eq_getD_getElem?]
    · simp [hvl]

/-- A turn of the search is a step of its course. -/
theorem Simulates.exists_step {bound : K} (hd : a.Backward bound d) (h : Simulates d search T)
    (hcoherent : T.Coherent d n) (hp : search.queue.pop? precedes = some ((c, i), queue)) :
    ∃ T' : a.Trace start, T.Step d n T' ∧ Simulates d (turn a d n search c queue) T' ∧
      T'.closed.card = T.closed.card + 1 ∧
      T'.finished.length = T.finished.length + if c.complete then 1 else 0 := by
  obtain ⟨x, waiting, hw, hx, hmin, hordered, hholds⟩ := h.pop hp
  replace hx : Stands d x c := hx
  cases x with
  | ended p =>
    refine ⟨_, .finish hw hmin, h.turn_ended hx hordered hholds, ?_, ?_⟩
    · rw [Trace.closed_finish, Multiset.card_cons]
    · rw [if_pos hx.complete_of_ended, List.length_cons]
  | onward p =>
    obtain ⟨hcomplete, hstate⟩ := hx.of_onward
    have hlast : p.last < a.size := hd.lt_size (hcoherent.viable _ (Trace.mem_nodes_of_waiting hw))
    have hextended : search.extended.getD c.state 0 = T.expanded.countP (·.last = p.last) := by
      rw [hstate, h.extended_eq _ hlast]
    by_cases hcount : n ≤ search.extended.getD c.state 0
    · refine ⟨_, .cap hw hmin (hextended ▸ hcount), h.turn_capped hx hcount hordered hholds, ?_, ?_⟩
      · rw [Trace.closed_cap, Multiset.card_cons]
      · simp [hcomplete]
    · refine ⟨_, .expand hw hmin (hextended ▸ not_le.1 hcount),
        h.turn_expanded hx hlast hcount hordered hholds, ?_, ?_⟩
      · rw [Trace.closed_expand, Multiset.card_cons]
      · simp [hcomplete]

/-! ### The run -/

/-- The search ends by itself, when it has found `n` paths or nothing waits any more. It has taken steps to
get there. -/
theorem Simulates.exists_run {limit : K} (hd : a.Backward limit d) (h : Simulates d search T)
    (hcoherent : T.Coherent d n) (hlt : T.finished.length < n)
    (hbound : T.closed.card + bound = 2 + n * (a.size + a.arcCount)) :
    Ends a d n search (run a d n bound search) ∧
      ∃ T' : a.Trace start, Relation.ReflTransGen (Trace.Step d n) T T' ∧ T'.finished.length ≤ n ∧
        (T'.finished.length = n ∨ T'.waiting = 0) ∧
        List.Forall₂ (fun p c => Stands d (.ended p) c) T'.finished.reverse (run a d n bound search) := by
  induction bound generalizing search T with
  | zero =>
    -- more nodes would have left the queue than there can be
    have hcard := hcoherent.card_nodes_le hd
    rw [Trace.nodes, Multiset.card_add] at hcard
    omega
  | succ bound ih =>
    cases hp : search.queue.pop? precedes with
    | none =>
      have hempty := Heap.pop?_eq_none.1 hp
      have hrel := h.waiting
      rw [Holds, hempty, Multiset.coe_nil, Multiset.rel_zero_right] at hrel
      rw [run_of_none hp]
      exact ⟨.empty hp, T, .refl, hlt.le, .inr hrel, List.rel_reverse h.finished⟩
    | some entry =>
      obtain ⟨⟨c, i⟩, queue⟩ := entry
      obtain ⟨T', hstep, hsim, hcard, hlength⟩ := h.exists_step hd hcoherent hp
      have hfound := h.finished.length_eq
      rw [run_of_some hp]
      split
      · next hlast =>
        obtain ⟨hcomplete, hn⟩ := hlast
        have hturn : (turn a d n search c queue).found = c :: search.found := by
          rw [turn, if_pos hcomplete]
        have hfinished := hsim.finished
        rw [hturn] at hfinished
        have heq : T'.finished.length = n := hfinished.length_eq.trans hn
        exact ⟨.enough hp hcomplete hn, T', .single hstep, heq.le, .inl heq, List.rel_reverse hfinished⟩
      · next hlast =>
        have hlt' : T'.finished.length < n := by
          rw [hlength]
          split
          · next hcomplete =>
            refine lt_of_le_of_ne hlt fun heq => hlast ⟨hcomplete, ?_⟩
            rw [List.length_cons, ← hfound]
            exact heq
          · exact hlt
        obtain ⟨hends, T'', hsteps, hrest⟩ := ih hsim (hcoherent.step hstep) hlt' (by omega)
        exact ⟨.turn hp hlast hends, T'', .head hstep hsteps, hrest⟩

/-- What the search finds from the start, and how its course gets there. -/
theorem exists_course {limit : K} (hd : a.Backward limit d) (hroot : costAt d start ≠ ⊤) (hn : 0 < n) :
    Ends a d n (initial a start d) (a.bestFrom start d n) ∧
      ∃ T : a.Trace start, Relation.ReflTransGen (Trace.Step d n) (Trace.init a start) T ∧
        T.finished.length ≤ n ∧ (T.finished.length = n ∨ T.waiting = 0) ∧
        List.Forall₂ (fun p c => c.arcs = p.arcs.reverse ∧ c.state = p.last) T.finished.reverse
          (a.bestFrom start d n) := by
  have hbound : (Trace.init a start).closed.card + (2 + n * (a.size + a.arcCount)) =
      2 + n * (a.size + a.arcCount) := by
    simp [Trace.init, Trace.closed]
  obtain ⟨hends, T, hsteps, hlen, hend, hfound⟩ :=
    (simulates_initial a start d).exists_run hd (Trace.coherent_init hroot) hn hbound
  refine ⟨hends, T, hsteps, hlen, hend, hfound.imp fun p c hp => ?_⟩
  cases hp with
  | ended _ hstate harcs _ => exact ⟨harcs, hstate⟩

variable [IsOrderedAddMonoid K]

/-- The search ends by itself, and it finds the best paths. -/
theorem exists_best (hd : a.Backward 0 d) (hstart : a.start = some start)
    (harcs : ∀ {s}, ∀ arc ∈ a.arcsAt s, arc.weight.cost ≠ ⊤)
    (hfinal : ∀ {s final}, a.final? s = some final → final.cost ≠ ⊤) (hroot : costAt d start ≠ ⊤)
    (hn : 0 < n) :
    Ends a d n (initial a start d) (a.bestFrom start d n) ∧
      ∃ paths : List (AcceptingPath a), Best n paths ∧
        List.Forall₂ (fun q c => c.arcs = q.arcs.reverse ∧ c.state = q.last) paths (a.bestFrom start d n) := by
  obtain ⟨hends, T, hsteps, hlen, hend, hfound⟩ := exists_course hd hroot hn
  have hsound := (Trace.sound_init hroot).steps hd hsteps
  obtain ⟨paths, hpaths, hbest⟩ := hsound.exists_best hd hstart harcs hfinal hlen hend
  rw [← hpaths, List.forall₂_map_left_iff] at hfound
  exact ⟨hends, paths, hbest, hfound⟩

end Transducer.BestSearch
