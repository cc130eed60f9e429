import Mathlib
import Transducer.Proofs.Automaton.Bypass
import Transducer.Proofs.Graph.Flood

/-!
# Shared arrays for the sums of the components

The components are gone through one after the other, and all of them use the same two arrays: the sums that are passed
on (`Scratch.sums`), and which components have been reached (`Scratch.seen`). From each component those are searched
that it reaches, these are put in order, the highest first, the sums are passed on among them alone, and what they
lead to is collected in one pass. Then the places that have been written are cleared.

After each component the arrays are blank again, so that one component is not in the way of the next, and what is
collected is its replacement (`sweep_eq`).
-/

namespace Transducer

open Automaton Transducer.Graph

variable {W : Type} [Weight W]

namespace EpsilonGraph

/-- The arrays that all components use. -/
structure Scratch (W : Type) where
  sums : Array (Option W)
  seen : Array Bool

/-- The arrays before a component is looked at. -/
def Scratch.blank (count : Nat) : Scratch W where
  sums := Array.replicate count none
  seen := Array.replicate count false

/-- The components that epsilon arcs lead to from a component. -/
def lower (g : EpsilonGraph W) (c : Nat) : List Nat := (g.crossings c).map (·.1)

/-- The states of some components with their sums, as far as they have one. -/
def gathered (g : EpsilonGraph W) (sums : Array (Option W)) (components : List Nat) : List (Nat × W) :=
  components.flatMap fun c =>
    match sums.getD c none with
    | none => []
    | some weight => (g.states c).map fun s => (s, weight)

/-- Adds what a state with its sum leads to: the other arcs and the final weight. -/
def collect (g : EpsilonGraph W) (found : State W) (entry : Nat × W) : State W where
  arcs := (g.automaton.arcsAt entry.1).foldl
    (fun arcs arc =>
      if arc.isEpsilon || isZero (entry.2 * arc.weight) then arcs
      else arcs.push { arc with weight := entry.2 * arc.weight })
    found.arcs
  final :=
    match g.automaton.final? entry.1 with
    | some final => plus found.final (entry.2 * final)
    | none => found.final

/-- What the states of a component become, and the arrays after that. -/
def Scratch.turn (g : EpsilonGraph W) (scratch : Scratch W) (root : Nat) : State W × Scratch W :=
  let found := floodFrom .queue g.lower scratch.seen [root]
  let reached := found.done.reverse.mergeSort fun b c => decide (c ≤ b)
  let sums := reached.foldl g.pass (scratch.sums.setIfInBounds root (some 1))
  ((g.gathered sums reached).foldl g.collect {},
    { sums := reached.foldl (fun sums c => sums.setIfInBounds c none) sums
      seen := reached.foldl (fun seen c => seen.setIfInBounds c false) found.seen })

/-- Goes through all components. -/
def sweep (g : EpsilonGraph W) : Array (State W) × Scratch W :=
  (List.range g.components.count).foldl
    (fun found root =>
      let (state, scratch) := found.2.turn g root
      (found.1.push state, scratch))
    (#[], .blank g.components.count)

variable {g : EpsilonGraph W} {a : Automaton W} {root c : Nat}

/-! ### The components that are reached -/

/-- The search for the components that a component reaches. -/
def search (g : EpsilonGraph W) (root : Nat) : Flood := flood .queue g.lower g.components.count [root]

/-- The components that a component reaches, the highest first. -/
def reached (g : EpsilonGraph W) (root : Nat) : List Nat :=
  (List.range (root + 1)).reverse.filter (· ∈ (g.search root).done)

variable (hlower : ∀ c < g.components.count, ∀ x ∈ g.crossings c, x.1 < c) (hroot : root < g.components.count)

include hroot

omit [Weight W] in
theorem mem_done_search : c ∈ (g.search root).done ↔ Reaches g.lower g.components.count root c := by
  rw [search, mem_done_flood]
  simp [hroot]

include hlower

omit [Weight W] in
/-- No component above is reached. -/
theorem le_of_mem_done_search (h : c ∈ (g.search root).done) : c ≤ root := by
  induction (mem_done_search hroot).1 h with
  | refl => exact le_rfl
  | @tail b c hreaches e ih =>
    obtain ⟨x, hx, rfl⟩ := List.mem_map.1 e.1
    exact (hlower b (Reaches.lt_size hreaches hroot) x hx).le.trans (ih ((mem_done_search hroot).2 hreaches))

omit [Weight W] in
theorem mem_reached : c ∈ g.reached root ↔ c ∈ (g.search root).done := by
  rw [reached, List.mem_filter, List.mem_reverse, List.mem_range, decide_eq_true_iff, Nat.lt_succ_iff]
  exact ⟨And.right, fun hc => ⟨le_of_mem_done_search hlower hroot hc, hc⟩⟩

omit [Weight W] in
/-- What is found by the search is put in order. -/
theorem mergeSort_done_search :
    (g.search root).done.reverse.mergeSort (fun b c => decide (c ≤ b)) = g.reached root := by
  have hsorted : ((g.search root).done.reverse.mergeSort fun b c => decide (c ≤ b)).Pairwise (· ≥ ·) := by
    have hsorted := @List.pairwise_mergeSort Nat (fun b c => decide (c ≤ b)) (by simp; omega) (by simp; omega)
      (g.search root).done.reverse
    simpa using hsorted
  have hreached : (g.reached root).Pairwise (· ≥ ·) :=
    (List.pairwise_reverse.2 (List.pairwise_lt_range.imp le_of_lt)).filter _
  have hnodup : (g.search root).done.Nodup := nodup_done_flood .queue
  refine List.Perm.eq_of_pairwise' hsorted hreached ((List.mergeSort_perm ..).trans ?_)
  refine (List.perm_ext_iff_of_nodup (List.nodup_reverse.2 hnodup) ?_).2 fun c => ?_
  · exact (List.nodup_reverse.2 List.nodup_range).filter _
  · rw [List.mem_reverse, mem_reached hlower hroot]

omit hlower hroot

/-! ### Sums among them -/

/-- A component without a sum passes nothing on, so that only those need to be gone through that can have one. -/
theorem foldl_pass_filter {Reached : Nat → Prop} [DecidablePred Reached] {sums : Array (Option W)}
    (hclosed : ∀ c, Reached c → ∀ x ∈ g.crossings c, x.1 < sums.size → Reached x.1)
    (hnone : ∀ c, ¬ Reached c → sums.getD c none = none) (components : List Nat) :
    (components.filter (Reached ·)).foldl g.pass sums = components.foldl g.pass sums ∧
      (components.foldl g.pass sums).size = sums.size ∧
      ∀ c, ¬ Reached c → (components.foldl g.pass sums).getD c none = none := by
  induction components generalizing sums with
  | nil => exact ⟨rfl, rfl, hnone⟩
  | cons source components ih =>
    rw [List.foldl_cons, List.filter_cons]
    by_cases hsource : Reached source
    · have hsize := (getD_pass g sums source 0).1
      have hclosed' : ∀ c, Reached c → ∀ x ∈ g.crossings c, x.1 < (g.pass sums source).size → Reached x.1 := by
        rwa [hsize]
      obtain ⟨heq, hsize', hnone'⟩ := ih hclosed' fun c hc => by
        by_cases hlt : c < sums.size
        · have hnothing : g.passed sums source c = [] := by
            unfold passed
            split
            · rfl
            · refine List.filterMap_eq_nil_iff.2 fun x hx => if_neg ?_
              rintro rfl
              exact hc (hclosed source hsource x hx hlt)
          rw [(getD_pass g sums source c).2 hlt, hnothing]
          exact hnone c hc
        · rw [Array.getD_eq_getD_getElem?, Array.getElem?_eq_none (by omega)]
          rfl
      rw [if_pos (decide_eq_true hsource), List.foldl_cons]
      exact ⟨heq, hsize'.trans hsize, hnone'⟩
    · have hpass : g.pass sums source = sums := by
        rw [pass, hnone source hsource]
      rw [if_neg (by simpa using hsource), hpass]
      exact ih hclosed hnone

omit [Weight W] in
theorem gathered_filter {Reached : Nat → Prop} [DecidablePred Reached] {sums : Array (Option W)}
    (hnone : ∀ c, ¬ Reached c → sums.getD c none = none) (components : List Nat) :
    g.gathered sums (components.filter (Reached ·)) = g.gathered sums components := by
  induction components with
  | nil => rfl
  | cons c components ih =>
    rw [List.filter_cons]
    by_cases hc : Reached c
    · rw [if_pos (decide_eq_true hc), gathered, gathered, List.flatMap_cons, List.flatMap_cons]
      exact congrArg _ ih
    · rw [if_neg (by simpa using hc), ih, gathered, gathered, List.flatMap_cons, hnone c hc]
      rfl

/-- The sums before anything has been passed on. -/
def initial (g : EpsilonGraph W) (root : Nat) : Array (Option W) :=
  (Array.replicate g.components.count none).setIfInBounds root (some 1)

include hroot in
/-- The sums are the distances, and what is not reached has none. -/
theorem foldl_pass_reached : (g.reached root).foldl g.pass (g.initial root) = g.distances root ∧
    (g.distances root).size = g.components.count ∧
    ∀ c ∉ (g.search root).done, (g.distances root).getD c none = none := by
  have hsize : (g.initial root).size = g.components.count := by simp [initial]
  have hclosed : ∀ c ∈ (g.search root).done, ∀ x ∈ g.crossings c, x.1 < (g.initial root).size →
      x.1 ∈ (g.search root).done := by
    intro c hc x hx hlt
    rw [mem_done_search hroot] at hc ⊢
    exact hc.tail ⟨List.mem_map.2 ⟨x, hx, rfl⟩, hsize ▸ hlt⟩
  have hnone : ∀ c ∉ (g.search root).done, (g.initial root).getD c none = none := by
    intro c hc
    have hne : root ≠ c := fun heq => hc ((mem_done_search hroot).2 (heq ▸ .refl))
    rw [initial, Array.getD_eq_getD_getElem?, Array.getElem?_setIfInBounds, if_neg hne, Array.getElem?_replicate]
    split <;> rfl
  obtain ⟨heq, hsize', hnone'⟩ := foldl_pass_filter hclosed hnone (List.range (root + 1)).reverse
  exact ⟨heq, hsize'.trans hsize, hnone'⟩

/-! ### What is collected -/

theorem foldl_push_eq {α β : Type} (skips : α → Bool) (f : α → β) (entries : List α) (found : Array β) :
    entries.foldl (fun found entry => if skips entry then found else found.push (f entry)) found =
      found ++ (entries.filterMap fun entry => if skips entry then none else some (f entry)).toArray := by
  induction entries generalizing found with
  | nil => simp
  | cons entry entries ih =>
    rw [List.foldl_cons, ih]
    by_cases h : skips entry = true
    · simp [h]
    · simp [h]

/-- One pass collects the arcs and the final weights. -/
theorem foldl_collect (g : EpsilonGraph W) (closure : List (Nat × W)) (found : State W) :
    closure.foldl g.collect found =
      { arcs := found.arcs ++ (closure.flatMap fun (s, weight) =>
          (g.automaton.arcsAt s).toList.filterMap fun arc =>
            if arc.isEpsilon || isZero (weight * arc.weight) then none
            else some { arc with weight := weight * arc.weight }).toArray
        final := closure.foldl
          (fun sum (s, weight) =>
            match g.automaton.final? s with
            | some final => plus sum (weight * final)
            | none => sum)
          found.final } := by
  induction closure generalizing found with
  | nil => simp
  | cons entry closure ih =>
    rw [List.foldl_cons, ih, collect, ← Array.foldl_toList, foldl_push_eq, List.flatMap_cons, List.foldl_cons]
    simp

theorem foldl_collect_closure (g : EpsilonGraph W) (root : Nat) :
    (g.closure root).foldl g.collect {} = g.replacement root := by
  exact (g.foldl_collect (g.closure root) {}).trans (congrArg (State.mk _) Array.empty_append)

/-! ### One component after the other -/

include hlower hroot in
theorem turn_blank :
    (Scratch.blank g.components.count).turn g root = (g.replacement root, .blank g.components.count) := by
  obtain ⟨hsums, hsize, hnone⟩ := foldl_pass_reached hroot
  have hturn : (Scratch.blank g.components.count).turn g root =
      ((g.gathered ((g.reached root).foldl g.pass (g.initial root)) (g.reached root)).foldl g.collect {},
        { sums := (g.reached root).foldl (fun sums c => sums.setIfInBounds c none)
            ((g.reached root).foldl g.pass (g.initial root))
          seen := (g.reached root).foldl (fun seen c => seen.setIfInBounds c false) (g.search root).seen }) := by
    rw [← mergeSort_done_search hlower hroot]
    rfl
  have hclosure : g.gathered (g.distances root) (g.reached root) = g.closure root :=
    gathered_filter hnone (List.range (root + 1)).reverse
  -- what is not cleared has not been written
  have hblank : (g.reached root).foldl (fun sums c => sums.setIfInBounds c none) (g.distances root) =
      Array.replicate g.components.count none := by
    refine (foldl_setIfInBounds_eq_replicate fun c hlt hc => ?_).trans (congrArg (Array.replicate · none) hsize)
    have hget := hnone c (mt (mem_reached hlower hroot).2 hc)
    rw [Array.getD_eq_getD_getElem?, Array.getElem?_eq_getElem hlt, Option.getD_some] at hget
    exact (Array.getElem?_eq_getElem hlt).trans (congrArg some hget)
  have hunseen : (g.reached root).foldl (fun seen c => seen.setIfInBounds c false) (g.search root).seen =
      Array.replicate g.components.count false := by
    refine (foldl_setIfInBounds_eq_replicate fun c hlt hc => ?_).trans
      (congrArg (Array.replicate · false) (sound_flood ..).1.size_eq)
    have hnot : ¬ (g.search root).Seen c :=
      mt (seen_iff_mem_done_flood .queue).1 (mt (mem_reached hlower hroot).2 hc)
    rw [Flood.Seen, Array.getElem?_eq_getElem hlt, Option.some_inj, Bool.not_eq_true] at hnot
    exact (Array.getElem?_eq_getElem hlt).trans (congrArg some hnot)
  rw [hturn, hsums, hclosure, hblank, hunseen, foldl_collect_closure]
  rfl

include hlower in
/-- The shared arrays serve each component as if they were its own. -/
theorem sweep_eq :
    g.sweep = ((Array.range g.components.count).map g.replacement, .blank g.components.count) := by
  have hsteps : ∀ n ≤ g.components.count, (List.range n).foldl
      (fun (found : Array (State W) × Scratch W) root =>
        (found.1.push (found.2.turn g root).1, (found.2.turn g root).2)) (#[], .blank g.components.count) = ((Array.range n).map g.replacement, .blank g.components.count) := by
    intro n hn
    induction n with
    | zero => simp
    | succ n ih =>
      rw [List.range_succ, List.foldl_append, ih (Nat.le_of_succ_le hn), List.foldl_cons, List.foldl_nil,
        turn_blank hlower hn, Array.range_succ]
      simp
  exact hsteps _ le_rfl

end EpsilonGraph

namespace Edit

variable {D : Type} [Tolerance W D] {a : Automaton W}

/-- Epsilon removal with arrays that all components share. -/
def sweepEpsilons (config : EpsilonRemoval D) : Edit W Unit := do
  let a ← get
  if a.states.any fun state => state.arcs.any (·.isEpsilon) then
    let g := EpsilonGraph.of a
    match g.weightedCycle? config.bound with
    | some s => throw (.epsilonCycle s)
    | none =>
      let replacements := g.sweep.1
      (List.range a.size).forM fun s => do
        let state := replacements.getD (g.component s) {}
        setArcs s state.arcs
        setFinal s (state.final.getD 0)
      if config.trim then modify (·.trim)

theorem sweepEpsilons_eq (wf : a.WellFormed) (config : EpsilonRemoval D) :
    sweepEpsilons config a = removeEpsilons config a := by
  have hsweep := EpsilonGraph.sweep_eq fun c hc _ hx => EpsilonGraph.lt_of_mem_crossings (a := a) wf hc hx
  rw [sweepEpsilons, removeEpsilons, bind_of_ok (get_eq_ok a), bind_of_ok (get_eq_ok a)]
  dsimp only
  exact hsweep ▸ rfl

end Edit

end Transducer
