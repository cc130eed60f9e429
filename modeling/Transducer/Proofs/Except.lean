import Mathlib

/-!
# Operations that can fail

Loops over lists in which each step may be refused, and what actions keep of the state that they change.
-/

namespace Transducer

/-- A loop of which no step is refused collects what the steps give. -/
theorem mapM_eq_ok {α β ε : Type} {f : α → Except ε β} {g : α → β} {l : List α}
    (h : ∀ x ∈ l, f x = .ok (g x)) : l.mapM f = .ok (l.map g) := by
  induction l with
  | nil => rfl
  | cons x l ih =>
    rw [List.mapM_cons, h x List.mem_cons_self, ih fun y hy => h y (List.mem_cons_of_mem _ hy)]
    rfl

/-- What comes after an operation is reached only if the operation is not refused. -/
theorem bind_eq_ok {α β ε : Type} {x : Except ε α} {next : α → Except ε β} {v : β} :
    x >>= next = .ok v ↔ ∃ u, x = .ok u ∧ next u = .ok v := by
  cases x with
  | ok u =>
    constructor
    · exact fun h => ⟨u, rfl, h⟩
    · rintro ⟨u, hu, h⟩
      obtain rfl := Except.ok.inj hu
      exact h
  | error e =>
    constructor
    · exact fun h => nomatch h
    · rintro ⟨u, hu, -⟩
      cases hu

/-- An operation that has several steps is refused by one of them, after the others before it. -/
theorem bind_eq_error {α β ε : Type} {x : Except ε α} {next : α → Except ε β} {e : ε} :
    x >>= next = .error e ↔ x = .error e ∨ ∃ u, x = .ok u ∧ next u = .error e := by
  cases x with
  | ok u =>
    constructor
    · exact fun h => .inr ⟨u, rfl, h⟩
    · rintro (h | ⟨u, hu, h⟩)
      · cases h
      · obtain rfl := Except.ok.inj hu
        exact h
  | error e' =>
    constructor
    · exact fun h => .inl (congrArg Except.error (Except.error.inj h))
    · rintro (h | ⟨u, hu, -⟩)
      · exact congrArg Except.error (Except.error.inj h)
      · cases hu

/-- Two operations give results that are related, or are refused with the same error. -/
inductive Alike {α β ε : Type} (R : α → β → Prop) : Except ε α → Except ε β → Prop where
  | ok {u : α} {v : β} : R u v → Alike R (.ok u) (.ok v)
  | error {e : ε} : Alike R (.error e) (.error e)

namespace Alike

variable {α β α' β' ε ι : Type} {R : α → β → Prop} {S : α' → β' → Prop}

theorem refl (x : Except ε α) : Alike Eq x x := by
  cases x with
  | ok u => exact .ok rfl
  | error e => exact .error

theorem bind {x : Except ε α} {y : Except ε β} {f : α → Except ε α'} {g : β → Except ε β'} (h : Alike R x y)
    (hnext : ∀ u v, R u v → Alike S (f u) (g v)) : Alike S (x >>= f) (y >>= g) := by
  cases h with
  | ok huv => exact hnext _ _ huv
  | error => exact .error

/-- Loops over one list are alike if their steps are. -/
theorem foldlM {f : α → ι → Except ε α} {g : β → ι → Except ε β} (l : List ι)
    (hstep : ∀ u v i, R u v → Alike R (f u i) (g v i)) {u : α} {v : β} (h : R u v) :
    Alike R (l.foldlM f u) (l.foldlM g v) := by
  induction l generalizing u v with
  | nil => exact .ok h
  | cons i l ih =>
    rw [List.foldlM_cons, List.foldlM_cons]
    exact (hstep u v i h).bind fun _ _ => ih

end Alike

section

variable {α β : Type} {R : α → β → Prop} {l : List α} {l' : List β}

theorem exists_of_mem_left (h : List.Forall₂ R l l') {x : α} (hx : x ∈ l) : ∃ y ∈ l', R x y := by
  obtain ⟨k, hk, rfl⟩ := List.mem_iff_getElem.1 hx
  have hlt : k < l'.length := h.length_eq ▸ hk
  exact ⟨l'[k], List.getElem_mem hlt, h.get hk hlt⟩

theorem exists_of_mem_right (h : List.Forall₂ R l l') {y : β} (hy : y ∈ l') : ∃ x ∈ l, R x y := by
  obtain ⟨k, hk, rfl⟩ := List.mem_iff_getElem.1 hy
  have hlt : k < l.length := h.length_eq ▸ hk
  exact ⟨l[k], List.getElem_mem hlt, h.get hlt hk⟩

end

/-- A loop over a list of which no step is refused pairs its items with what the steps give. -/
theorem mapM_eq_ok_iff {α β ε : Type} {f : α → Except ε β} {l : List α} {l' : List β} :
    l.mapM f = .ok l' ↔ List.Forall₂ (fun x y => f x = .ok y) l l' := by
  induction l generalizing l' with
  | nil =>
    rw [List.mapM_nil, List.forall₂_nil_left_iff]
    exact ⟨fun h => (Except.ok.inj h).symm, fun h => h ▸ rfl⟩
  | cons x l ih =>
    rw [List.mapM_cons, List.forall₂_cons_left_iff]
    constructor
    · intro h
      obtain ⟨y, hy, h⟩ := bind_eq_ok.1 h
      obtain ⟨ys, hys, h⟩ := bind_eq_ok.1 h
      obtain rfl := Except.ok.inj h
      exact ⟨y, ys, hy, ih.1 hys, rfl⟩
    · rintro ⟨y, ys, hy, hys, rfl⟩
      exact bind_eq_ok.2 ⟨y, hy, bind_eq_ok.2 ⟨ys, ih.2 hys, rfl⟩⟩

/-- A loop is refused by the first step that is. -/
theorem mapM_eq_error_iff {α β ε : Type} {f : α → Except ε β} {l : List α} {e : ε} :
    l.mapM f = .error e ↔
      ∃ (i : Nat) (x : α), l[i]? = some x ∧ f x = .error e ∧
        ∀ j < i, ∀ y, l[j]? = some y → ∃ z, f y = .ok z := by
  induction l with
  | nil =>
    refine iff_of_false (fun h => nomatch h) ?_
    rintro ⟨i, x, h, -⟩
    simp at h
  | cons x l ih =>
    simp only [List.mapM_cons, bind_eq_error, ih]
    constructor
    · rintro (hx | ⟨u, hu, (⟨i, y, hy, he, hbefore⟩ | ⟨_, -, h⟩)⟩)
      · exact ⟨0, x, rfl, hx, fun j hj => absurd hj (Nat.not_lt_zero j)⟩
      · refine ⟨i + 1, y, hy, he, fun j hj z hz => ?_⟩
        cases j with
        | zero =>
          obtain rfl := Option.some.inj hz
          exact ⟨u, hu⟩
        | succ j => exact hbefore j (Nat.lt_of_succ_lt_succ hj) z hz
      · cases h
    · rintro ⟨i, y, hy, he, hbefore⟩
      cases i with
      | zero =>
        obtain rfl := Option.some.inj hy
        exact .inl he
      | succ i =>
        obtain ⟨u, hu⟩ := hbefore 0 (Nat.succ_pos i) x rfl
        exact .inr ⟨u, hu, .inl ⟨i, y, hy, he, fun j hj => hbefore (j + 1) (Nat.succ_lt_succ hj)⟩⟩

/-- A loop whose steps undo a function undoes it for the whole list. -/
theorem mapM_map_eq_ok {α β ε : Type} {f : β → Except ε α} {g : α → β} (h : ∀ x, f (g x) = .ok x) (l : List α) :
    (l.map g).mapM f = .ok l := by
  rw [mapM_eq_ok_iff, List.forall₂_map_left_iff, List.forall₂_same]
  exact fun x _ => h x

/-- A loop whose steps know where they are pairs them as well, if that has no part in what they give. -/
theorem mapM_zipIdx_eq_ok_iff {α β ε : Type} {f : α × Nat → Except ε β} {R : α → β → Prop}
    (h : ∀ x i y, f (x, i) = .ok y ↔ R x y) {n : Nat} {l : List α} {l' : List β} :
    (l.zipIdx n).mapM f = .ok l' ↔ List.Forall₂ R l l' := by
  rw [mapM_eq_ok_iff]
  induction l generalizing n l' with
  | nil => rw [List.zipIdx_nil, List.forall₂_nil_left_iff, List.forall₂_nil_left_iff]
  | cons x l ih =>
    simp only [List.zipIdx_cons, List.forall₂_cons_left_iff, ih]
    simp only [h]

theorem map_eq_ok {α β ε : Type} {x : Except ε α} {f : α → β} {v : β} :
    x.map f = .ok v ↔ ∃ u, x = .ok u ∧ f u = v := by
  cases x <;> simp [Except.map]

/-- What each step of a loop keeps, the loop keeps, unless a step is refused. -/
theorem of_foldlM_eq_ok {α β ε : Type} {P : β → Prop} {f : β → α → Except ε β} {l : List α}
    (hstep : ∀ {v : β} {x : α} {v' : β}, P v → f v x = .ok v' → P v') {init v : β} (hinit : P init)
    (h : l.foldlM f init = .ok v) : P v := by
  induction l generalizing init with
  | nil =>
    obtain rfl := Except.ok.inj h
    exact hinit
  | cons x l ih =>
    rw [List.foldlM_cons] at h
    obtain ⟨next, hnext, h⟩ := bind_eq_ok.1 h
    exact ih (hstep hinit hnext) h

/-! ### Actions that change a state -/

variable {ε σ α β : Type}

/-- What comes after an action is reached only if the action is not refused. -/
theorem run_bind_eq_ok {x : EStateM ε σ α} {next : α → EStateM ε σ β} {v : β} {s s' : σ} :
    (x >>= next) s = .ok v s' ↔ ∃ u t, x s = .ok u t ∧ next u t = .ok v s' := by
  show EStateM.bind x next s = _ ↔ _
  unfold EStateM.bind
  cases x s with
  | ok u t =>
    constructor
    · exact fun h => ⟨u, t, rfl, h⟩
    · rintro ⟨_, _, ⟨⟩, h⟩
      exact h
  | error e t =>
    constructor
    · exact fun h => nomatch h
    · rintro ⟨_, _, ⟨⟩, -⟩

/-- The state that an action leaves, whether it is refused or not. -/
def stateAfter (x : EStateM ε σ α) (s : σ) : σ :=
  match x s with
  | .ok _ s => s
  | .error _ s => s

theorem stateAfter_of_ok {x : EStateM ε σ α} {v : α} {s s' : σ} (h : x s = .ok v s') : stateAfter x s = s' := by
  rw [stateAfter, h]

theorem stateAfter_of_error {x : EStateM ε σ α} {e : ε} {s s' : σ} (h : x s = .error e s') :
    stateAfter x s = s' := by
  rw [stateAfter, h]

/-- Where the state has a property before the action, it has it afterwards, also if the action is
refused. -/
def Keeps (P : σ → Prop) (x : EStateM ε σ α) : Prop := ∀ s, P s → P (stateAfter x s)

variable {P : σ → Prop}

/-- It is enough to know how the action ends. -/
theorem keeps_of_outcome {x : EStateM ε σ α}
    (h : ∀ s, P s → (∃ v s', x s = .ok v s' ∧ P s') ∨ ∃ e s', x s = .error e s' ∧ P s') : Keeps P x := by
  intro s hs
  rw [stateAfter]
  obtain ⟨v, s', heq, hs'⟩ | ⟨e, s', heq, hs'⟩ := h s hs
  · rw [heq]
    exact hs'
  · rw [heq]
    exact hs'

theorem keeps_pure (v : α) : Keeps P (pure v : EStateM ε σ α) := fun _ hs => hs

theorem keeps_throw (e : ε) : Keeps P (throw e : EStateM ε σ α) := fun _ hs => hs

theorem keeps_get : Keeps P (get : EStateM ε σ σ) := fun _ hs => hs

theorem keeps_modify {f : σ → σ} (h : ∀ s, P s → P (f s)) : Keeps P (modify f : EStateM ε σ PUnit) := h

theorem Keeps.bind {x : EStateM ε σ α} {next : α → EStateM ε σ β} (hx : Keeps P x)
    (hnext : ∀ v, Keeps P (next v)) : Keeps P (x >>= next) := by
  intro s hs
  have hx := hx s hs
  show P (stateAfter (EStateM.bind x next) s)
  unfold stateAfter EStateM.bind at *
  cases heq : x s with
  | ok v s' =>
    rw [heq] at hx
    exact hnext v s' hx
  | error e s' =>
    rw [heq] at hx
    exact hx

theorem Keeps.forM {l : List α} {f : α → EStateM ε σ PUnit} (h : ∀ x, Keeps P (f x)) :
    Keeps P (l.forM f) := by
  induction l with
  | nil => exact keeps_pure _
  | cons x l ih => exact (h x).bind fun _ => ih

theorem Keeps.foldlM {l : List α} {f : β → α → EStateM ε σ β} (h : ∀ v x, Keeps P (f v x)) (init : β) :
    Keeps P (l.foldlM f init) := by
  induction l generalizing init with
  | nil => exact keeps_pure _
  | cons x l ih =>
    rw [List.foldlM_cons]
    exact (h init x).bind fun v => ih v

end Transducer
