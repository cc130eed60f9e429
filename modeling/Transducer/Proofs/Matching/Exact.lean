import Mathlib
import Transducer.Matching.Matcher
import Transducer.Proofs.Except

/-!
# Exact lookup

The binary search of a matcher finds what listing all arcs finds: `select_eq_filter`. It needs the arcs in
the order of their labels, which is what a matcher relies on when it is `sorted`. A matcher of which that is
true is `Reliable`, and `find_eq` says what it finds if it has no layers.
-/

namespace Transducer

/-! ### Partition points -/

/-- A partition point divides the indices into those below it, at which the test holds, and the others,
at which it fails. -/
theorem partitionPoint_spec {p : Nat → Bool} {low high : Nat} (h : low ≤ high)
    (mono : ∀ {i j}, i ≤ j → j < high → p j = true → p i = true) :
    low ≤ partitionPoint p low high ∧ partitionPoint p low high ≤ high ∧
      (∀ i, low ≤ i → i < partitionPoint p low high → p i = true) ∧
      ∀ i, partitionPoint p low high ≤ i → i < high → p i = false := by
  fun_induction partitionPoint p low high with
  | case1 low high hlt middle hp ih =>
    obtain ⟨hlow, hhigh, hbelow, habove⟩ := ih (by omega) mono
    refine ⟨by omega, hhigh, fun i hi hlt => ?_, habove⟩
    by_cases him : i ≤ middle
    · exact mono him (by omega) hp
    · exact hbelow i (by omega) hlt
  | case2 low high hlt middle hp ih =>
    obtain ⟨hlow, hhigh, hbelow, habove⟩ := ih (by omega) fun hij hj => mono hij (by omega)
    refine ⟨hlow, by omega, hbelow, fun i hi hlt => ?_⟩
    by_cases him : i < middle
    · exact habove i hi him
    · by_contra hne
      exact hp (mono (by omega) hlt (by simpa using hne))
  | case3 low high hlt =>
    exact ⟨le_rfl, h, fun i hi hlt => by omega, fun i hi hlt => by omega⟩

/-- Where a test holds between two positions and nowhere else, a filter takes out the part between
them. -/
theorem take_drop_eq_filter {α : Type*} {l : List α} {p : α → Bool} {low high : Nat} (hlow : low ≤ high)
    (hin : ∀ i x, low ≤ i → i < high → l[i]? = some x → p x = true)
    (hout : ∀ i x, i < low ∨ high ≤ i → l[i]? = some x → p x = false) :
    (l.drop low).take (high - low) = l.filter p := by
  have hbefore : (l.take low).filter p = [] := by
    refine List.filter_eq_nil_iff.2 fun x hx => ?_
    obtain ⟨i, hi⟩ := List.getElem?_of_mem hx
    rw [List.getElem?_take] at hi
    split at hi
    · next hlt => simp [hout i x (.inl hlt) hi]
    · cases hi
  have hbetween : ((l.drop low).take (high - low)).filter p = (l.drop low).take (high - low) := by
    refine List.filter_eq_self.2 fun x hx => ?_
    obtain ⟨i, hi⟩ := List.getElem?_of_mem hx
    rw [List.getElem?_take, List.getElem?_drop] at hi
    split at hi
    · exact hin (low + i) x (by omega) (by omega) hi
    · cases hi
  have hafter : ((l.drop low).drop (high - low)).filter p = [] := by
    refine List.filter_eq_nil_iff.2 fun x hx => ?_
    obtain ⟨i, hi⟩ := List.getElem?_of_mem hx
    rw [List.getElem?_drop, List.getElem?_drop] at hi
    simp [hout _ x (.inr (by omega)) hi]
  calc
    (l.drop low).take (high - low) = ((l.drop low).take (high - low)).filter p := hbetween.symm
    _ = (l.take low ++ ((l.drop low).take (high - low) ++ (l.drop low).drop (high - low))).filter p := by
        rw [List.filter_append, List.filter_append, hbefore, hafter, List.nil_append, List.append_nil]
    _ = l.filter p := by rw [List.take_append_drop, List.take_append_drop]

/-- Labels that do not decrease from one to the next are in order. -/
theorem nondecreasing_iff {labels : List Label} : nondecreasing labels = true ↔ labels.Pairwise (· ≤ ·) := by
  fun_induction nondecreasing labels with
  | case1 x y rest ih =>
    rw [Bool.and_eq_true, decide_eq_true_eq, ih, List.pairwise_cons (a := x)]
    refine ⟨fun ⟨hxy, h⟩ => ⟨fun z hz => ?_, h⟩, fun ⟨hx, h⟩ => ⟨hx y List.mem_cons_self, h⟩⟩
    rcases List.mem_cons.1 hz with rfl | hz
    · exact hxy
    · exact UInt32.le_trans hxy ((List.pairwise_cons.1 h).1 z hz)
  | case2 labels hne =>
    match labels, hne with
    | [], _ => simp
    | [x], _ => simp
    | x :: y :: rest, hne => exact absurd rfl (hne x y rest)

theorem Automaton.findArcs_eq {W : Type} {a : Automaton W} {s : Nat} (hs : s < a.size) :
    a.findArcs s = .ok (a.arcsAt s) := by
  have hstate : a.states[s]? = some a.states[s] := Array.getElem?_eq_getElem hs
  rw [findArcs, findState, arcsAt, hstate]
  rfl

theorem Automaton.findArcs_eq_ok {W : Type} {a : Automaton W} {s : Nat} {arcs : Array (Arc W)}
    (h : a.findArcs s = .ok arcs) : s < a.size ∧ arcs = a.arcsAt s := by
  obtain ⟨state, hstate, rfl⟩ := map_eq_ok.1 h
  unfold findState at hstate
  split at hstate
  · next heq =>
    obtain rfl := Except.ok.inj hstate
    exact ⟨(Array.getElem?_eq_some_iff.1 heq).1, by rw [arcsAt, heq]⟩
  · cases hstate

theorem Automaton.findFinal_eq {W : Type} {a : Automaton W} {s : Nat} (hs : s < a.size) :
    a.findFinal s = .ok (a.final? s) := by
  have hstate : a.states[s]? = some a.states[s] := Array.getElem?_eq_getElem hs
  rw [findFinal, findState, final?, hstate]
  rfl

theorem Automaton.lt_size_of_findFinal {W : Type} {a : Automaton W} {s : Nat} {final : Option W}
    (h : a.findFinal s = .ok final) : s < a.size := by
  by_contra hs
  have hstate : a.states[s]? = none := Array.getElem?_eq_none (Nat.le_of_not_lt hs)
  rw [findFinal, findState, hstate] at h
  cases h

namespace Matcher

variable {W : Type}

/-- The arcs with a label are the same whether they are searched or listed. -/
theorem select_eq_filter {m : Matcher W} {arcs : Array (Arc W)}
    (h : m.sorted = true → nondecreasing (arcs.toList.map (·.label m.matched)) = true) (label : Label) :
    m.select arcs label = arcs.toList.filter fun arc => arc.label m.matched == label := by
  unfold select
  split
  · next hsorted =>
    have horder : ∀ {i j : Nat} {x y : Arc W}, i ≤ j → arcs[i]? = some x → arcs[j]? = some y →
        x.label m.matched ≤ y.label m.matched := by
      intro i j x y hij hx hy
      have hpairs := List.pairwise_map.1 (nondecreasing_iff.1 (h hsorted))
      rw [← Array.getElem?_toList] at hx hy
      rcases hij.lt_or_eq with hij | rfl
      · obtain ⟨hi, rfl⟩ := List.getElem?_eq_some_iff.1 hx
        obtain ⟨hj, rfl⟩ := List.getElem?_eq_some_iff.1 hy
        exact List.pairwise_iff_getElem.1 hpairs i j hi hj hij
      · rw [Option.some.inj (hx.symm.trans hy)]
        exact UInt32.le_refl _
    have hmono : ∀ {p : Label → Bool}, (∀ {k l}, k ≤ l → p l = true → p k = true) →
        ∀ {i j}, i ≤ j → j < arcs.size →
          (arcs[j]?.map (·.label m.matched)).any p = true →
            (arcs[i]?.map (·.label m.matched)).any p = true := by
      intro p hp i j hij hj hpj
      have hx : arcs[i]? = some arcs[i] := Array.getElem?_eq_getElem (by omega)
      have hy : arcs[j]? = some arcs[j] := Array.getElem?_eq_getElem hj
      rw [hy] at hpj
      rw [hx]
      exact hp (horder hij hx hy) hpj
    obtain ⟨-, hlow, hbelow, habove⟩ := partitionPoint_spec (Nat.zero_le arcs.size)
      (hmono (p := (· < label)) fun hkl hl => by simpa using UInt32.lt_of_le_of_lt hkl (by simpa using hl))
    obtain ⟨hle, hhigh, hbelow', habove'⟩ := partitionPoint_spec hlow
      (hmono (p := (· ≤ label)) fun hkl hl => by simpa using UInt32.le_trans hkl (by simpa using hl))
    dsimp only
    rw [Array.toList_extract, List.extract_eq_take_drop]
    refine take_drop_eq_filter hle (fun i x hi hlt hx => ?_) (fun i x hi hx => ?_)
    · rw [Array.getElem?_toList] at hx
      have h₁ := habove i hi (hlt.trans_le hhigh)
      have h₂ := hbelow' i hi hlt
      simp only [hx, Option.map_some, Option.any_some, decide_eq_false_iff_not, decide_eq_true_eq] at h₁ h₂
      exact beq_iff_eq.2 (UInt32.le_antisymm h₂ (UInt32.not_lt.1 h₁))
    · rw [Array.getElem?_toList] at hx
      refine beq_eq_false_iff_ne.2 fun heq => ?_
      rcases hi with hi | hi
      · have h₁ := hbelow i (Nat.zero_le i) hi
        simp [hx, heq] at h₁
      · have h₂ := habove' i hi (Array.getElem?_eq_some_iff.1 hx).1
        simp [hx, heq] at h₂
  · rfl

/-- Where the matcher relies on the order of the arcs, they are in order. -/
def Reliable (m : Matcher W) : Prop := m.sorted = true → m.automaton.isSorted m.matched = true

theorem Reliable.nondecreasing {m : Matcher W} (h : m.Reliable) (s : Nat) (hsorted : m.sorted = true) :
    nondecreasing ((m.automaton.arcsAt s).toList.map (·.label m.matched)) = true := by
  rw [Automaton.arcsAt]
  split
  · next state hs =>
    exact Array.all_eq_true_iff_forall_mem.1 (h hsorted) state (Array.mem_of_getElem? hs)
  · rfl

/-- The arcs of a state with a label on the matched side, in their order. -/
def matching (m : Matcher W) (s : Nat) (label : Label) : List (Arc W) :=
  (m.automaton.arcsAt s).toList.filter fun arc => arc.label m.matched == label

variable [Weight W]

/-- The exact matches of a label. The implicit arc is among those of epsilon, and those of the label of the
implicit arc are the epsilon arcs. -/
def exactMatches (m : Matcher W) (s : Nat) (label : Label) : List (Arc W) :=
  if label = epsilon then m.loopArc s :: m.matching s epsilon
  else m.matching s (if label = noLabel then epsilon else label)

@[simp] theorem exactMatches_epsilon (m : Matcher W) (s : Nat) :
    m.exactMatches s epsilon = m.loopArc s :: m.matching s epsilon := rfl

@[simp] theorem exactMatches_noLabel (m : Matcher W) (s : Nat) :
    m.exactMatches s noLabel = m.matching s epsilon := rfl

theorem exactMatches_of_ne {label : Label} (hepsilon : label ≠ epsilon) (hlabel : label ≠ noLabel) (m : Matcher W)
    (s : Nat) : m.exactMatches s label = m.matching s label := by
  rw [exactMatches, if_neg hepsilon, if_neg hlabel]

/-- The exact lookup finds the exact matches. -/
theorem findExact_eq {m : Matcher W} (h : m.Reliable) {s : Nat} (hs : s < m.automaton.size) (label : Label) :
    m.findExact s label = .ok (m.exactMatches s label) := by
  have harcs := Automaton.findArcs_eq hs
  have hselect := fun label => m.select_eq_filter (h.nondecreasing s) label
  rw [findExact, harcs]
  by_cases hlabel : label = epsilon
  · subst hlabel
    simp only [bind, Except.bind, pure, Except.pure, if_true, hselect, if_neg (show epsilon ≠ noLabel by decide)]
    rfl
  · simp only [bind, Except.bind, pure, Except.pure, if_neg hlabel, hselect, exactMatches]
    rfl

/-- Without layers nothing but the exact matches is found. -/
theorem find_eq {m : Matcher W} (h : m.Reliable) (hside : m.side.isSome = true) (hlayers : m.layers = [])
    {s : Nat} (hs : s < m.automaton.size) (label : Label) : m.find s label = .ok (m.exactMatches s label) := by
  rw [find, if_neg (by simpa using Option.isSome_iff_ne_none.1 hside), hlayers, findLayers, findExact_eq h hs]

end Matcher

end Transducer
