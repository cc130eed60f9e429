import Mathlib
import Transducer.Path.Chain
import Transducer.Proofs.Path.Accepting

/-!
# Hanging chains off a state

To hang a state off another one is to add it with an arc that leads to it. Nothing leads on from there, so the ways
between the states that were there stay as they were, and a way to the new state is a way to the old one and the new
arc (`way_hang_new`). A chain hangs one state off the other: a way to its end is a way to the state that it hangs off,
and then the chain (`hung_addChain`).

This holds wherever the chain is hung. How often its end is reached from the start is a matter of how often the state
is reached that it hangs off.
-/

namespace Transducer.Automaton

variable {W : Type} {a b c : Automaton W} {s t u : Nat} {places : List Nat} {arcs : List (Arc W)}
  {ilabel olabel : Label} {weight : W}

/-! ### Changed states -/

section

variable {f : State W → State W}

theorem arcsAt_changeState_of_ne (hu : u ≠ s) : (a.changeState s f).arcsAt u = a.arcsAt u := by
  rw [arcsAt, arcsAt, changeState, Array.getElem?_modify, if_neg hu.symm]

theorem final?_changeState_of_ne (hu : u ≠ s) : (a.changeState s f).final? u = a.final? u := by
  rw [final?, final?, changeState, Array.getElem?_modify, if_neg hu.symm]

/-- A change that keeps the arcs of a state keeps those of all states. -/
theorem arcsAt_changeState (hf : ∀ state, (f state).arcs = state.arcs) (s u : Nat) :
    (a.changeState s f).arcsAt u = a.arcsAt u := by
  rw [arcsAt, arcsAt, changeState, Array.getElem?_modify]
  by_cases hu : s = u
  · rw [if_pos hu]
    cases a.states[u]? with
    | none => rfl
    | some state => exact hf state
  · rw [if_neg hu]

/-- A change that keeps the final weight of a state keeps those of all states. -/
theorem final?_changeState (hf : ∀ state, (f state).final = state.final) (s u : Nat) :
    (a.changeState s f).final? u = a.final? u := by
  rw [final?, final?, changeState, Array.getElem?_modify]
  by_cases hu : s = u
  · rw [if_pos hu]
    cases a.states[u]? with
    | none => rfl
    | some state => exact hf state
  · rw [if_neg hu]

end

/-! ### One more state -/

@[simp] theorem arcsAt_pushState (a : Automaton W) (u : Nat) : (a.pushState {}).arcsAt u = a.arcsAt u := by
  rw [arcsAt, arcsAt, pushState, Array.getElem?_push]
  by_cases hu : u = a.states.size
  · rw [if_pos hu, hu, Array.getElem?_eq_none (Nat.le_refl _)]
  · rw [if_neg hu]

@[simp] theorem final?_pushState (a : Automaton W) (u : Nat) : (a.pushState {}).final? u = a.final? u := by
  rw [final?, final?, pushState, Array.getElem?_push]
  by_cases hu : u = a.states.size
  · rw [if_pos hu, hu, Array.getElem?_eq_none (Nat.le_refl _)]
    rfl
  · rw [if_neg hu]

/-- The automaton with one more state, to which an arc of `s` leads. -/
def hang (a : Automaton W) (s : Nat) (ilabel olabel : Label) (weight : W) : Automaton W :=
  (a.pushState {}).changeState s (·.push ⟨ilabel, olabel, weight, a.size⟩)

@[simp] theorem size_hang : (a.hang s ilabel olabel weight).size = a.size + 1 := by
  rw [hang, size_changeState, size_pushState]

theorem arcsAt_hang_self (hs : s < a.size) :
    (a.hang s ilabel olabel weight).arcsAt s = (a.arcsAt s).push ⟨ilabel, olabel, weight, a.size⟩ := by
  have hlt : s < (a.pushState {}).states.size := by
    rw [← size, size_pushState]
    exact hs.trans (Nat.lt_succ_self _)
  rw [← arcsAt_pushState a, arcsAt, arcsAt, hang, changeState, Array.getElem?_modify, if_pos rfl,
    Array.getElem?_eq_getElem hlt]
  rfl

theorem arcsAt_hang_of_ne (hu : u ≠ s) : (a.hang s ilabel olabel weight).arcsAt u = a.arcsAt u :=
  (arcsAt_changeState_of_ne hu).trans (a.arcsAt_pushState u)

@[simp] theorem final?_hang (u : Nat) : (a.hang s ilabel olabel weight).final? u = a.final? u := by
  rw [hang, final?_changeState (by intro _; rfl), final?_pushState]

/-- An arc stands where it stood before, or it is the last one of `s` and leads to the new state. -/
theorem getElem?_arcsAt_hang (hs : s < a.size) {i : Nat} {arc : Arc W} :
    ((a.hang s ilabel olabel weight).arcsAt u)[i]? = some arc ↔
      (a.arcsAt u)[i]? = some arc ∨
        u = s ∧ i = (a.arcsAt s).size ∧ arc = ⟨ilabel, olabel, weight, a.size⟩ := by
  by_cases hu : u = s
  · subst hu
    rw [arcsAt_hang_self hs, Array.getElem?_push]
    by_cases hi : i = (a.arcsAt u).size
    · rw [if_pos hi, hi, Array.getElem?_eq_none (Nat.le_refl _), Option.some.injEq, eq_comm]
      simp
    · simp [hi]
  · simp [arcsAt_hang_of_ne hu, hu]

theorem arcsAt_hang_new (hs : s < a.size) : (a.hang s ilabel olabel weight).arcsAt a.size = #[] := by
  rw [arcsAt_hang_of_ne hs.ne', arcsAt_eq_empty (Nat.le_refl _)]

/-- Nothing leads on from the new state, so it is on no way between others. -/
theorem way_hang_of_lt (hs : s < a.size) (ht : t < a.size) :
    (a.hang s ilabel olabel weight).Way u places arcs t ↔ a.Way u places arcs t := by
  constructor
  · intro h
    induction h with
    | nil s => exact .nil s
    | @cons u i t arc places arcs hi hway ih =>
      obtain hi | ⟨rfl, rfl, rfl⟩ := (getElem?_arcsAt_hang hs).1 hi
      · exact .cons hi (ih ht)
      · cases hway with
        | nil => exact absurd ht (Nat.lt_irrefl _)
        | cons hj =>
          have hempty := Array.mem_of_getElem? hj
          rw [arcsAt_hang_new hs] at hempty
          exact absurd hempty (Array.not_mem_empty _)
  · intro h
    exact h.mono fun hi => (getElem?_arcsAt_hang hs).2 (.inl hi)

/-- The only way to the new state is one to the old state, and on by the new arc. -/
theorem way_hang_new (ha : a.Confined) (hs : s < a.size) (hu : u < a.size) :
    (a.hang s ilabel olabel weight).Way u places arcs a.size ↔
      ∃ (before : List Nat) (others : List (Arc W)), a.Way u before others s ∧
        places = before ++ [(a.arcsAt s).size] ∧ arcs = others ++ [⟨ilabel, olabel, weight, a.size⟩] := by
  constructor
  · intro h
    obtain ⟨-, -, rfl⟩ | ⟨before, others, v, hway, i, arc, hi, rfl, rfl, htarget⟩ := h.eq_nil_or_concat
    · exact absurd hu (Nat.lt_irrefl _)
    · obtain hi | ⟨rfl, rfl, rfl⟩ := (getElem?_arcsAt_hang hs).1 hi
      · exact absurd htarget (ha.target_lt (Array.mem_of_getElem? hi)).ne
      · exact ⟨before, others, (way_hang_of_lt hs hs).1 hway, rfl, rfl⟩
  · rintro ⟨before, others, hway, rfl, rfl⟩
    exact ((way_hang_of_lt hs hs).2 hway).append (.single ((getElem?_arcsAt_hang hs).2 (.inr ⟨rfl, rfl, rfl⟩)))

/-! ### What is hung off a state -/

/-- `b` is `a` with `last` hung off `s`, and with what lies between. The arcs from `s` to `last` have the labels and
weights `steps`. -/
structure Hung (a : Automaton W) (s : Nat) (steps : List (Label × Label × W)) (b : Automaton W) (last : Nat) :
    Prop where
  start_eq : b.start = a.start
  size_le : a.size ≤ b.size
  last_lt : last < b.size
  confined : b.Confined
  arcs : ∀ {u : Nat} {arc : Arc W}, arc ∈ b.arcsAt u → arc ∈ a.arcsAt u ∨ a.size ≤ arc.target
  final?_eq : ∀ u, b.final? u = a.final? u
  way_iff : ∀ {u t : Nat} {places : List Nat} {arcs : List (Arc W)}, t < a.size →
    (b.Way u places arcs t ↔ a.Way u places arcs t)
  way_last_iff : ∃ (tail : List Nat) (strand : List (Arc W)), strand.map Arc.content = steps ∧
    ∀ {u : Nat} {places : List Nat} {arcs : List (Arc W)}, u < a.size →
      (b.Way u places arcs last ↔ ∃ (before : List Nat) (others : List (Arc W)),
        a.Way u before others s ∧ places = before ++ tail ∧ arcs = others ++ strand)

namespace Hung

variable {steps rest : List (Label × Label × W)} {m last : Nat}

/-- Nothing hangs off the state but the state itself. -/
theorem refl (ha : a.Confined) (hs : s < a.size) : a.Hung s [] a s where
  start_eq := rfl
  size_le := Nat.le_refl _
  last_lt := hs
  confined := ha
  arcs := .inl
  final?_eq _ := rfl
  way_iff _ := .rfl
  way_last_iff := ⟨[], [], rfl, fun _ => ⟨fun h => ⟨_, _, h, (List.append_nil _).symm, (List.append_nil _).symm⟩, by
    rintro ⟨before, others, h, rfl, rfl⟩
    rwa [List.append_nil, List.append_nil]⟩⟩

theorem hang (ha : a.Confined) (hs : s < a.size) :
    a.Hung s [(ilabel, olabel, weight)] (a.hang s ilabel olabel weight) a.size where
  start_eq := rfl
  size_le := by rw [size_hang]; exact Nat.le_succ _
  last_lt := by rw [size_hang]; exact Nat.lt_succ_self _
  confined := by
    refine ⟨fun hstart => ?_, fun {u arc} harc => ?_⟩
    · rw [size_hang]
      exact (ha.start_lt hstart).trans (Nat.lt_succ_self _)
    · rw [size_hang]
      obtain ⟨i, hi⟩ := Array.getElem?_of_mem harc
      obtain hi | ⟨-, -, rfl⟩ := (getElem?_arcsAt_hang hs).1 hi
      · exact (ha.target_lt (Array.mem_of_getElem? hi)).trans (Nat.lt_succ_self _)
      · exact Nat.lt_succ_self _
  arcs := by
    intro u arc harc
    obtain ⟨i, hi⟩ := Array.getElem?_of_mem harc
    obtain hi | ⟨-, -, rfl⟩ := (getElem?_arcsAt_hang hs).1 hi
    · exact .inl (Array.mem_of_getElem? hi)
    · exact .inr (Nat.le_refl _)
  final?_eq := final?_hang
  way_iff := way_hang_of_lt hs
  way_last_iff := ⟨_, _, rfl, way_hang_new ha hs⟩

theorem trans (h : a.Hung s steps b m) (h' : b.Hung m rest c last) : a.Hung s (steps ++ rest) c last where
  start_eq := h'.start_eq.trans h.start_eq
  size_le := h.size_le.trans h'.size_le
  last_lt := h'.last_lt
  confined := h'.confined
  arcs := by
    intro u arc harc
    rcases h'.arcs harc with harc | hle
    · exact h.arcs harc
    · exact .inr (h.size_le.trans hle)
  final?_eq u := (h'.final?_eq u).trans (h.final?_eq u)
  way_iff ht := (h'.way_iff (ht.trans_le h.size_le)).trans (h.way_iff ht)
  way_last_iff := by
    obtain ⟨tail, strand, hcontent, hiff⟩ := h.way_last_iff
    obtain ⟨tail', strand', hcontent', hiff'⟩ := h'.way_last_iff
    refine ⟨tail ++ tail', strand ++ strand', by rw [List.map_append, hcontent, hcontent'], ?_⟩
    intro u places arcs hu
    rw [hiff' (hu.trans_le h.size_le)]
    constructor
    · rintro ⟨_, _, hway, rfl, rfl⟩
      obtain ⟨before, others, hfirst, rfl, rfl⟩ := (hiff hu).1 hway
      exact ⟨before, others, hfirst, List.append_assoc _ _ _, List.append_assoc _ _ _⟩
    · rintro ⟨before, others, hway, rfl, rfl⟩
      refine ⟨before ++ tail, others ++ strand, (hiff hu).2 ⟨before, others, hway, rfl, rfl⟩, ?_, ?_⟩
      · exact (List.append_assoc _ _ _).symm
      · exact (List.append_assoc _ _ _).symm

/-- What hangs off by arcs is new. -/
theorem le_last (h : a.Hung s steps b last) (hsteps : steps ≠ []) : a.size ≤ last := by
  obtain ⟨tail, strand, rfl, hiff⟩ := h.way_last_iff
  by_contra hlt
  obtain ⟨before, others, -, -, hnil⟩ := (hiff (Nat.lt_of_not_le hlt)).1 (.nil last)
  obtain ⟨-, rfl⟩ := List.append_eq_nil_iff.1 hnil.symm
  exact hsteps rfl

end Hung

/-- A chain hangs one state off the other. -/
theorem hung_addChain (ha : a.Confined) (hs : s < a.size) (steps : List (Label × Label × W)) :
    a.Hung s steps (a.addChain s steps).2 (a.addChain s steps).1 := by
  induction steps generalizing a s with
  | nil => exact .refl ha hs
  | cons step steps ih =>
    obtain ⟨ilabel, olabel, weight⟩ := step
    have hhang : a.Hung s [(ilabel, olabel, weight)] (a.hang s ilabel olabel weight) a.size := .hang ha hs
    exact hhang.trans (ih hhang.confined hhang.last_lt)

end Transducer.Automaton
