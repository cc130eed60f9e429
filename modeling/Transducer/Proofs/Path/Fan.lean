import Mathlib
import Transducer.Path.Best
import Transducer.Proofs.Path.Accepting

/-!
# Fans of paths

A fan is the automaton of a list of paths: a start, and from there one chain of states for each path, in
the order of the list. This is what the search for best paths builds from the paths that it finds
(`foldl_addBest`).
-/

namespace Transducer.Automaton

variable {W : Type}

/-- A state with one arc, which leads to `t`. -/
def link (t : Nat) (arc : Arc W) : State W := { arcs := #[{ arc with target := t }] }

/-- The states of a chain of arcs: each leads to the one after it, and the last one is final. The first
one has the number `t`. -/
def chain (final : W) : Nat → List (Arc W) → List (State W)
  | _, [] => [{ final := some final }]
  | t, arc :: arcs => link (t + 1) arc :: chain final (t + 1) arcs

@[simp] theorem length_chain (final : W) (t : Nat) (arcs : List (Arc W)) :
    (chain final t arcs).length = arcs.length + 1 := by
  induction arcs generalizing t with
  | nil => rfl
  | cons arc arcs ih => simp [chain, ih]

variable {a : Automaton W}

/-- The first arcs of some paths, with chains that are numbered from `t`. -/
def heads : Nat → List (AcceptingPath a) → List (Arc W)
  | _, [] => []
  | t, p :: paths =>
    (p.arcs.head?.map fun arc => { arc with target := t }).toList ++ heads (t + p.arcs.length) paths

/-- The chains of what follows the first arcs of some paths, numbered from `t`. A path without arcs has
no chain. -/
def blocks : Nat → List (AcceptingPath a) → List (State W)
  | _, [] => []
  | t, p :: paths =>
    (if p.arcs.isEmpty then [] else chain p.final t p.arcs.tail) ++ blocks (t + p.arcs.length) paths

/-- The automaton of some paths. The start is final if one of the paths is empty. Without any paths there
are no states. -/
def fan (a : Automaton W) (paths : List (AcceptingPath a)) : Automaton W :=
  if paths.isEmpty then { inputSymbols := a.inputSymbols, outputSymbols := a.outputSymbols }
  else
    { states := ({ final := (paths.find? (·.arcs.isEmpty)).map (·.final), arcs := (heads 1 paths).toArray } ::
        blocks 1 paths).toArray
      start := some 0
      inputSymbols := a.inputSymbols
      outputSymbols := a.outputSymbols }

theorem modify_length {α : Type*} (f : α → α) (xs ys : List α) (x : α) :
    (xs ++ x :: ys).modify xs.length f = xs ++ f x :: ys := by
  induction xs with
  | nil => rfl
  | cons y xs ih => rw [List.cons_append, List.length_cons, List.modify_succ_cons, ih, List.cons_append]

variable [Weight W]

/-- A chain that is hung off the last state, which has nothing yet, with the final weight of its end. -/
theorem addChain_withFinal {final : W} (hf : isZero final = false) (arcs : List (Arc W))
    {b : Automaton W} {states : List (State W)} (hb : b.states = (states ++ [({} : State W)]).toArray) :
    (b.addChain states.length (arcs.map Arc.content)).2.changeState
        (b.addChain states.length (arcs.map Arc.content)).1 (·.withFinal final) =
      { b with states := (states ++ chain final states.length arcs).toArray, cache := {} } := by
  induction arcs generalizing b states with
  | nil =>
    show b.changeState states.length (·.withFinal final) = _
    rw [changeState, hb, List.modify_toArray, modify_length, State.withFinal, hf]
    rfl
  | cons arc arcs ih =>
    have hsize : b.size = states.length + 1 := by
      rw [size, hb, List.size_toArray, List.length_append]
      rfl
    have hlength : (states ++ [link b.size arc]).length = b.size := by
      rw [List.length_append, hsize]
      rfl
    have hstates : ((b.pushState {}).changeState states.length
        (·.push { arc with target := b.size })).states =
          ((states ++ [link b.size arc]) ++ [({} : State W)]).toArray := by
      show (b.states.push {}).modify states.length (·.push { arc with target := b.size }) = _
      rw [hb, List.push_toArray, List.modify_toArray, List.append_assoc, List.append_assoc]
      exact congrArg _ (modify_length _ states [{}] {})
    have h := ih hstates
    rw [hlength] at h
    refine h.trans ?_
    rw [hsize, List.append_assoc]
    rfl

omit [Weight W] in
/-- Empty paths end at the start. -/
theorem AcceptingPath.final_eq_of_nil {p q : AcceptingPath a} (hp : p.arcs = []) (hq : q.arcs = []) :
    p.final = q.final := by
  have hlast : ∀ r : AcceptingPath a, r.arcs = [] → a.start.bind a.final? = some r.final := by
    rintro ⟨first, places, arcs, last, final, hstart, hway, hf⟩ hr
    obtain rfl : arcs = [] := hr
    cases hway
    rw [hstart]
    exact hf
  exact Option.some.inj ((hlast p hp).symm.trans (hlast q hq))

/-- Hanging a path off the start adds its first arc there, and its chain at the end. -/
theorem addBest_eq {q : AcceptingPath a} {c : Candidate W} (harcs : c.arcs = q.arcs.reverse)
    (hstate : c.state = q.last) (hf : isZero q.final = false) {b : Automaton W} {hub : State W}
    {rest : List (State W)} (hb : b.states = (hub :: rest).toArray) :
    a.addBest b c =
      { b with
        states := ({ final := if q.arcs.isEmpty then some q.final else hub.final
                     arcs := hub.arcs ++
                       (q.arcs.head?.map fun arc => { arc with target := b.size }).toList.toArray } ::
          (rest ++ if q.arcs.isEmpty then [] else chain q.final b.size q.arcs.tail)).toArray
        cache := {} } := by
  have hsteps : c.arcs.reverse.map (fun arc => (arc.ilabel, arc.olabel, arc.weight)) = q.arcs.map Arc.content := by
    rw [harcs, List.reverse_reverse]
    rfl
  have hfinal : (a.final? c.state).getD 0 = q.final := by rw [hstate, q.final_eq, Option.getD_some]
  have hadd : a.addBest b c = (b.addChain 0 (q.arcs.map Arc.content)).2.changeState
      (b.addChain 0 (q.arcs.map Arc.content)).1 (·.withFinal q.final) := by
    rw [← hfinal, ← hsteps]
    rfl
  rw [hadd]
  cases hq : q.arcs with
  | nil =>
    show b.changeState 0 (·.withFinal q.final) = _
    rw [changeState, hb, List.modify_toArray, List.modify_zero_cons, State.withFinal, hf]
    simp
  | cons arc arcs =>
    have hsize : b.size = (hub :: rest).length := by rw [size, hb, List.size_toArray]
    have hstates : ((b.pushState {}).changeState 0 (·.push { arc with target := b.size })).states =
        ((hub.push { arc with target := b.size } :: rest) ++ [({} : State W)]).toArray := by
      show (b.states.push {}).modify 0 (·.push { arc with target := b.size }) = _
      rw [hb, List.push_toArray, List.modify_toArray]
      rfl
    have h := addChain_withFinal hf arcs hstates
    rw [List.length_cons, ← List.length_cons (a := hub), ← hsize] at h
    refine h.trans ?_
    simp [State.push, changeState, pushState]

omit [Weight W] in
theorem or_final_cons (q : AcceptingPath a) (paths : List (AcceptingPath a)) (x : Option W) :
    ((paths.find? (·.arcs.isEmpty)).map (·.final)).or (if q.arcs.isEmpty then some q.final else x) =
      (((q :: paths).find? (·.arcs.isEmpty)).map (·.final)).or x := by
  by_cases hq : q.arcs.isEmpty
  · rw [if_pos hq, List.find?_cons_of_pos (p := fun r : AcceptingPath a => r.arcs.isEmpty) hq]
    cases hr : paths.find? (·.arcs.isEmpty) with
    | none => rfl
    | some r =>
      have hr := List.find?_some hr
      exact congrArg some (AcceptingPath.final_eq_of_nil (List.isEmpty_iff.1 hr) (List.isEmpty_iff.1 hq))
  · rw [if_neg hq, List.find?_cons_of_neg (p := fun r : AcceptingPath a => r.arcs.isEmpty) hq]

/-- Hanging paths off the start one by one. -/
theorem foldl_addBest_eq {paths : List (AcceptingPath a)} {cs : List (Candidate W)}
    (hcs : List.Forall₂ (fun q c => c.arcs = q.arcs.reverse ∧ c.state = q.last) paths cs)
    (hf : ∀ q ∈ paths, isZero q.final = false) {b : Automaton W} {hub : State W} {rest : List (State W)}
    (hb : b.states = (hub :: rest).toArray) (hcache : b.cache = {}) :
    cs.foldl a.addBest b =
      { b with
        states := ({ final := ((paths.find? (·.arcs.isEmpty)).map (·.final)).or hub.final
                     arcs := hub.arcs ++ (heads b.size paths).toArray } ::
          (rest ++ blocks b.size paths)).toArray } := by
  induction hcs generalizing b hub rest with
  | nil =>
    obtain ⟨states, start, inputs, outputs, cache⟩ := b
    obtain rfl : states = (hub :: rest).toArray := hb
    obtain rfl : cache = {} := hcache
    simp [heads, blocks]
  | @cons q c paths cs hc hcs ih =>
    have hsize : b.size = rest.length + 1 := by rw [size, hb, List.size_toArray, List.length_cons]
    have hlength : (rest ++ if q.arcs.isEmpty then [] else chain q.final b.size q.arcs.tail).length + 1 =
        b.size + q.arcs.length := by
      rw [List.length_append, hsize]
      cases q.arcs with
      | nil => rfl
      | cons arc arcs =>
        simp
        omega
    rw [List.forall_mem_cons] at hf
    rw [List.foldl_cons, addBest_eq hc.1 hc.2 hf.1 hb]
    refine (ih hf.2 rfl rfl).trans ?_
    simp only [size, List.size_toArray, List.length_cons] at hlength ⊢
    rw [hlength, or_final_cons q paths, hcache]
    simp only [heads, blocks, List.append_assoc, Array.append_assoc, List.append_toArray]

/-- What the search builds from the paths that it finds is their fan. -/
theorem foldl_addBest {paths : List (AcceptingPath a)} {cs : List (Candidate W)}
    (hcs : List.Forall₂ (fun q c => c.arcs = q.arcs.reverse ∧ c.state = q.last) paths cs)
    (hf : ∀ q ∈ paths, isZero q.final = false) (hne : paths ≠ []) :
    cs.foldl a.addBest
        { inputSymbols := a.inputSymbols, outputSymbols := a.outputSymbols, states := #[{}], start := some 0 } =
      a.fan paths := by
  have hstates : ({ inputSymbols := a.inputSymbols, outputSymbols := a.outputSymbols,
                    states := #[{}], start := some 0 } : Automaton W).states =
      (({} : State W) :: []).toArray := rfl
  rw [foldl_addBest_eq hcs hf hstates rfl, fan, if_neg (by simpa using hne)]
  simp [size]

end Transducer.Automaton
