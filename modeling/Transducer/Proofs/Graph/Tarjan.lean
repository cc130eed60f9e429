import Mathlib
import Transducer.Graph.Component

/-!
# Components by one search

Tarjan's search finds the components of a graph in a single depth-first search, without turning the graph round. It
is written as a loop with its own stack of calls: `Tarjan` is the state of the loop, `Tarjan.turn` one turn of it, and
`Tarjan.run` the loop, which comes to an end since each turn reaches a vertex, passes an edge or finishes a vertex
(`measure_lt_of_turn`). `tarjan` searches from every vertex.

An edge to a vertex that does not exist makes the search fail.
-/

namespace Transducer.Graph

/-- The state of a search for components. -/
structure Tarjan where
  /-- For each vertex, how many vertices had been reached before it, if it has been reached. -/
  index : Array (Option Nat)
  /-- For each vertex, the least index that an edge has been seen to lead back to, from it or from what was reached
  from it. -/
  low : Array Nat
  /-- Whether a vertex is on the stack. -/
  onStack : Array Bool
  /-- The vertices that have been reached and have no component yet, the last one first. -/
  stack : List Nat := []
  /-- The component of each vertex that has one. -/
  number : Array Nat
  /-- How many vertices have been reached. -/
  counter : Nat := 0
  /-- How many components have been found. -/
  count : Nat := 0
  /-- The vertices where the search is, the last one first, each with how many of its edges have been passed. -/
  calls : List (Nat × Nat) := []

namespace Tarjan

/-- The search of a graph with `size` vertices, before its first turn. -/
def init (size : Nat) : Tarjan where
  index := Array.replicate size none
  low := Array.replicate size 0
  onStack := Array.replicate size false
  number := Array.replicate size 0

/-- Reaches a vertex, from where the search goes on. -/
def enter (t : Tarjan) (v : Nat) : Tarjan :=
  { t with
    index := t.index.setIfInBounds v (some t.counter)
    low := t.low.setIfInBounds v t.counter
    onStack := t.onStack.setIfInBounds v true
    stack := v :: t.stack
    counter := t.counter + 1
    calls := (v, 0) :: t.calls }

/-- Notes that an edge leads back to an index. -/
def lower (t : Tarjan) (v index : Nat) : Tarjan := { t with low := t.low.modify v (min · index) }

/-- Takes the vertices from the stack down to `root`, which form the next component. -/
def unstack (root : Nat) : List Nat → Tarjan → Tarjan
  | [], t => { t with stack := [] }
  | v :: stack, t =>
    let t := { t with
      stack
      onStack := t.onStack.setIfInBounds v false
      number := t.number.setIfInBounds v t.count }
    if v = root then t else unstack root stack t

/-- Where a vertex leads back to, its caller leads back to. -/
def report (t : Tarjan) (v : Nat) : Tarjan :=
  match t.calls with
  | (caller, _) :: _ => t.lower caller (t.low.getD v 0)
  | [] => t

/-- Makes a component of a vertex that leads back to nothing before it, and of what is above it on the stack. -/
def close (t : Tarjan) (v : Nat) : Tarjan :=
  if t.index.getD v none = some (t.low.getD v 0) then
    let t := unstack v t.stack t
    { t with count := t.count + 1 }
  else t

/-- One turn of the loop at the vertex `v`, of whose edges some have been passed: the next edge leads to a new
vertex, or to one that has been reached, which counts if it is still on the stack; or there is no edge left. -/
def turn (next : Nat → List Nat) (t : Tarjan) (v passed : Nat) (calls : List (Nat × Nat)) : Option Tarjan :=
  match (next v)[passed]? with
  | some w =>
    let t : Tarjan := { t with calls := (v, passed + 1) :: calls }
    match t.index[w]? with
    | none => none
    | some none => some (t.enter w)
    | some (some index) => some (if t.onStack.getD w false then t.lower v index else t)
  | none => some ((({ t with calls } : Tarjan).report v).close v)

/-! ### The loop -/

/-- How many vertices have not been reached. -/
def unreached (t : Tarjan) : Nat := t.index.count none

/-- How many edges of the vertices where the search is have not been passed, and how many these vertices are. -/
def pending (next : Nat → List Nat) (t : Tarjan) : Nat :=
  (t.calls.map fun (v, passed) => (next v).length - passed + 1).sum

@[simp] theorem calls_lower (t : Tarjan) (v index : Nat) : (t.lower v index).calls = t.calls := rfl

/-- Taking vertices from the stack changes nothing but the stack and what is known of these vertices. -/
theorem exists_unstack (root : Nat) (stack : List Nat) (t : Tarjan) :
    ∃ rest onStack number, unstack root stack t = { t with stack := rest, onStack, number } := by
  induction stack generalizing t with
  | nil => exact ⟨[], t.onStack, t.number, rfl⟩
  | cons v stack ih =>
    unfold unstack
    dsimp only
    split
    · exact ⟨_, _, _, rfl⟩
    · exact ih _

@[simp] theorem index_report (t : Tarjan) (v : Nat) : (t.report v).index = t.index := by
  unfold report
  split <;> rfl

@[simp] theorem calls_report (t : Tarjan) (v : Nat) : (t.report v).calls = t.calls := by
  unfold report
  split <;> rfl

@[simp] theorem index_close (t : Tarjan) (v : Nat) : (t.close v).index = t.index := by
  obtain ⟨_, _, _, h⟩ := exists_unstack v t.stack t
  rw [close, h]
  split <;> rfl

@[simp] theorem calls_close (t : Tarjan) (v : Nat) : (t.close v).calls = t.calls := by
  obtain ⟨_, _, _, h⟩ := exists_unstack v t.stack t
  rw [close, h]
  split <;> rfl

/-- What one turn can do. -/
inductive Turned (next : Nat → List Nat) (t : Tarjan) (v passed : Nat) (calls : List (Nat × Nat)) : Tarjan → Prop where
  /-- The next edge leads to a new vertex. -/
  | enters {w : Nat} : (next v)[passed]? = some w → t.index[w]? = some none →
      Turned next t v passed calls (({ t with calls := (v, passed + 1) :: calls } : Tarjan).enter w)
  /-- The next edge leads back to a vertex on the stack. -/
  | returns {w index : Nat} : (next v)[passed]? = some w → t.index[w]? = some (some index) →
      t.onStack.getD w false = true →
      Turned next t v passed calls (({ t with calls := (v, passed + 1) :: calls } : Tarjan).lower v index)
  /-- The next edge leads to a vertex that has a component. -/
  | passes {w index : Nat} : (next v)[passed]? = some w → t.index[w]? = some (some index) →
      t.onStack.getD w false = false →
      Turned next t v passed calls { t with calls := (v, passed + 1) :: calls }
  /-- No edge is left. -/
  | leaves : (next v)[passed]? = none →
      Turned next t v passed calls ((({ t with calls } : Tarjan).report v).close v)

variable {next : Nat → List Nat} {t t' : Tarjan} {v passed : Nat} {calls : List (Nat × Nat)}

theorem turned_of_turn (h : t.turn next v passed calls = some t') : Turned next t v passed calls t' := by
  unfold turn at h
  split at h
  · next w hw =>
    dsimp only at h
    split at h
    · cases h
    · next hnone =>
      obtain rfl := Option.some.inj h
      exact .enters hw hnone
    · next index hindex =>
      obtain rfl := Option.some.inj h
      by_cases hstack : t.onStack.getD w false = true
      · rw [if_pos hstack]
        exact .returns hw hindex hstack
      · rw [if_neg hstack]
        exact .passes hw hindex (Bool.not_eq_true _ ▸ hstack)
  · next hnone =>
    obtain rfl := Option.some.inj h
    exact .leaves hnone

/-- A vertex that is reached is one less that has not been. -/
theorem unreached_enter_lt {w : Nat} (h : t.index[w]? = some none) : (t.enter w).unreached < t.unreached := by
  obtain ⟨hw, hnone⟩ := Array.getElem?_eq_some_iff.1 h
  have hpos : 0 < t.index.count none := Array.count_pos_iff.2 (hnone ▸ Array.getElem_mem hw)
  have hcount : (t.index.setIfInBounds w (some t.counter)).count none = t.index.count none - 1 := by
    rw [Array.setIfInBounds, dif_pos hw, Array.count_set hw, hnone]
    rfl
  rw [unreached, unreached, enter, hcount]
  exact Nat.sub_lt hpos Nat.one_pos

/-- A turn reaches one more vertex, or leaves less to do where the search is. -/
theorem measure_lt_of_turn (hcalls : t.calls = (v, passed) :: calls) (h : t.turn next v passed calls = some t') :
    Prod.Lex (· < ·) (· < ·) (t'.unreached, t'.pending next) (t.unreached, t.pending next) := by
  cases turned_of_turn h with
  | enters hw hnone => exact .left _ _ (unreached_enter_lt hnone)
  | returns hw _ _ =>
    have := (List.getElem?_eq_some_iff.1 hw).1
    refine Prod.Lex.right' _ le_rfl ?_
    simp only [pending, calls_lower, hcalls, List.map_cons, List.sum_cons]
    omega
  | passes hw _ _ =>
    have := (List.getElem?_eq_some_iff.1 hw).1
    refine Prod.Lex.right' _ le_rfl ?_
    simp only [pending, hcalls, List.map_cons, List.sum_cons]
    omega
  | leaves hnone =>
    have hunreached : ((({ t with calls } : Tarjan).report v).close v).unreached = t.unreached := by
      simp [unreached]
    refine Prod.Lex.right' _ hunreached.le ?_
    simp only [pending, calls_close, calls_report, hcalls, List.map_cons, List.sum_cons]
    omega

/-- Takes one turn after another until the search has left the vertex where it began. -/
def run (next : Nat → List Nat) (t : Tarjan) : Option Tarjan :=
  match _hcalls : t.calls with
  | [] => some t
  | (v, passed) :: calls =>
    match _h : t.turn next v passed calls with
    | none => none
    | some t' => run next t'
termination_by (t.unreached, t.pending next)
decreasing_by exact measure_lt_of_turn _hcalls _h

/-- Searches from a vertex, unless it has been reached. -/
def visit (next : Nat → List Nat) (t : Tarjan) (root : Nat) : Option Tarjan :=
  if t.index[root]? = some none then (t.enter root).run next else some t

theorem run_of_nil (h : t.calls = []) : t.run next = some t := by
  unfold run
  split
  · rfl
  · next hcons => simp [h] at hcons

theorem run_of_turn (hcalls : t.calls = (v, passed) :: calls) (h : t.turn next v passed calls = some t') :
    t.run next = t'.run next := by
  rw [run]
  split
  · next hnil => simp [hcalls] at hnil
  · next hcons =>
    obtain ⟨hv, rfl⟩ := List.cons.inj (hcalls.symm.trans hcons)
    obtain ⟨rfl, rfl⟩ := Prod.mk.inj hv
    split
    · next hnone => simp [h] at hnone
    · next hsome => rw [Option.some.inj (h.symm.trans hsome)]

/-- If something holds that makes the next turn possible and that this turn keeps, then the loop comes to its end, and
it holds there. -/
theorem exists_run {P : Tarjan → Prop}
    (step : ∀ {t v passed calls}, P t → t.calls = (v, passed) :: calls →
      ∃ t', t.turn next v passed calls = some t' ∧ P t')
    (h : P t) : ∃ t', t.run next = some t' ∧ t'.calls = [] ∧ P t' := by
  induction t using run.induct next with
  | case1 t hcalls => exact ⟨t, run_of_nil hcalls, hcalls, h⟩
  | case2 t v passed calls hcalls hnone =>
    obtain ⟨t', ht', -⟩ := step h hcalls
    cases hnone.symm.trans ht'
  | case3 t v passed calls hcalls t' ht' ih =>
    obtain ⟨t'', ht'', hP⟩ := step h hcalls
    obtain rfl := Option.some.inj (ht'.symm.trans ht'')
    rw [run_of_turn hcalls ht']
    exact ih hP

end Tarjan

/-- The components of a graph, if every edge leads to a vertex that exists. -/
def tarjan (next : Nat → List Nat) (size : Nat) : Option Components :=
  ((List.range size).foldlM (Tarjan.visit next) (.init size)).map fun t => { number := t.number, count := t.count }

end Transducer.Graph
