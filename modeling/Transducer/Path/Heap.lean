/-!
# Heaps

A heap hands out its entries one by one, an entry that comes before the others first. The entries stand
in a binary tree that is filled level by level, each level from the left, so that the way to each place
can be read off its number.

A new entry starts at the first free place and rises past the entries that it comes before. Where the top
entry has been taken away, the gap sinks to the bottom, always to the child that comes first; the entry
of the last place fills it there and rises again.

What comes before what is up to the caller. Whatever it is, no entry is lost and none is made up:
`toList_push` and `toList_of_pop?`. What is handed out first is the matter of
`Transducer.Path.Heap.Order`.
-/

namespace Transducer

/-- A binary tree with an entry at each node. -/
inductive Heap.Tree (α : Type) where
  | leaf
  | node (entry : α) (left right : Tree α)
  deriving Inhabited, Repr

namespace Heap.Tree

variable {α : Type}

/-- The entries of a tree. -/
def toList : Tree α → List α
  | leaf => []
  | node x l r => x :: (l.toList ++ r.toList)

@[simp] theorem toList_leaf : (leaf : Tree α).toList = [] := rfl

@[simp] theorem toList_node (x : α) (l r : Tree α) :
    (node x l r).toList = x :: (l.toList ++ r.toList) := rfl

/-! ### Ways down

A way is a list of turns, `true` for the right one; after its end it goes on to the left. -/

/-- The way to a place, where the places are numbered from one, level by level. -/
def wayTo (place : Nat) : List Bool :=
  if place < 2 then [] else wayTo (place / 2) ++ [place % 2 == 1]

/-- The entries on a way. -/
def along (way : List Bool) : Tree α → List α
  | leaf => []
  | node x l r => x :: (if way.headD false then r.along way.tail else l.along way.tail)

/-- Puts an entry on top of a way, on which every entry moves down by one. -/
def shift (x : α) (way : List Bool) : Tree α → Tree α
  | leaf => node x leaf leaf
  | node y l r =>
    if way.headD false then node x l (r.shift y way.tail) else node x (l.shift y way.tail) r

/-- Puts an entry at the end of a way, from where it rises past the entries that it comes before. -/
def insert (before : α → α → Bool) (x : α) (way : List Bool) : Tree α → Tree α
  | leaf => node x leaf leaf
  | node y l r =>
    if ((node y l r).along way).all (before x) then (node y l r).shift x way
    else if way.headD false then node y l (r.insert before x way.tail)
    else node y (l.insert before x way.tail) r

/-- Takes away the last entry on a way. Where the way cannot go on, it turns to the other side. -/
def removeLast? (way : List Bool) : Tree α → Option (α × Tree α)
  | leaf => none
  | node x l r =>
    if way.headD false then
      match r.removeLast? way.tail with
      | some (last, r) => some (last, node x l r)
      | none =>
        match l.removeLast? way.tail with
        | some (last, l) => some (last, node x l r)
        | none => some (x, leaf)
    else
      match l.removeLast? way.tail with
      | some (last, l) => some (last, node x l r)
      | none =>
        match r.removeLast? way.tail with
        | some (last, r) => some (last, node x l r)
        | none => some (x, leaf)

theorem toList_shift (x : α) (way : List Bool) (t : Tree α) :
    (t.shift x way).toList.Perm (x :: t.toList) := by
  induction t generalizing x way with
  | leaf => exact .refl _
  | node y l r ihl ihr =>
    unfold shift
    split
    · exact .cons x ((List.Perm.append_left _ (ihr y way.tail)).trans List.perm_middle)
    · exact .cons x ((ihl y way.tail).append_right _)

theorem toList_insert (before : α → α → Bool) (x : α) (way : List Bool) (t : Tree α) :
    (t.insert before x way).toList.Perm (x :: t.toList) := by
  induction t generalizing way with
  | leaf => exact .refl _
  | node y l r ihl ihr =>
    unfold insert
    split
    · exact toList_shift x way _
    · split
      · exact (List.Perm.cons y ((List.Perm.append_left _ (ihr way.tail)).trans List.perm_middle)).trans
          (.swap x y _)
      · exact (List.Perm.cons y ((ihl way.tail).append_right _)).trans (.swap x y _)

theorem removeLast?_eq_none {way : List Bool} {t : Tree α} : t.removeLast? way = none ↔ t = leaf := by
  cases t with
  | leaf => simp [removeLast?]
  | node x l r => unfold removeLast?; split <;> split <;> (try split) <;> simp

/-- What is left has the old top, or no entry at all. -/
theorem removeLast?_eq_some {way : List Bool} {x last : α} {l r rest : Tree α}
    (h : (node x l r).removeLast? way = some (last, rest)) :
    (∃ r', r.removeLast? way.tail = some (last, r') ∧ rest = node x l r') ∨
      (∃ l', l.removeLast? way.tail = some (last, l') ∧ rest = node x l' r) ∨
      (l = leaf ∧ r = leaf ∧ last = x ∧ rest = leaf) := by
  unfold removeLast? at h
  split at h <;> split at h
  · next heq =>
    obtain ⟨rfl, rfl⟩ := Prod.mk.inj (Option.some.inj h)
    exact .inl ⟨_, heq, rfl⟩
  · next hr =>
    split at h
    · next heq =>
      obtain ⟨rfl, rfl⟩ := Prod.mk.inj (Option.some.inj h)
      exact .inr (.inl ⟨_, heq, rfl⟩)
    · next hl =>
      obtain ⟨rfl, rfl⟩ := Prod.mk.inj (Option.some.inj h)
      exact .inr (.inr ⟨removeLast?_eq_none.1 hl, removeLast?_eq_none.1 hr, rfl, rfl⟩)
  · next heq =>
    obtain ⟨rfl, rfl⟩ := Prod.mk.inj (Option.some.inj h)
    exact .inr (.inl ⟨_, heq, rfl⟩)
  · next hl =>
    split at h
    · next heq =>
      obtain ⟨rfl, rfl⟩ := Prod.mk.inj (Option.some.inj h)
      exact .inl ⟨_, heq, rfl⟩
    · next hr =>
      obtain ⟨rfl, rfl⟩ := Prod.mk.inj (Option.some.inj h)
      exact .inr (.inr ⟨removeLast?_eq_none.1 hl, removeLast?_eq_none.1 hr, rfl, rfl⟩)

theorem toList_of_removeLast? {way : List Bool} {t rest : Tree α} {last : α}
    (h : t.removeLast? way = some (last, rest)) : t.toList.Perm (last :: rest.toList) := by
  induction t generalizing way rest with
  | leaf => simp [removeLast?] at h
  | node x l r ihl ihr =>
    rcases removeLast?_eq_some h with ⟨r', hr, rfl⟩ | ⟨l', hl, rfl⟩ | ⟨rfl, rfl, rfl, rfl⟩
    · exact (List.Perm.cons x ((List.Perm.append_left _ (ihr hr)).trans List.perm_middle)).trans
        (.swap _ x _)
    · exact (List.Perm.cons x ((ihl hl).append_right _)).trans (.swap _ x _)
    · exact .refl _

/-! ### Sinking -/

/-- Whether a gap above two trees sinks to the right one. -/
def sinksRight (before : α → α → Bool) : Tree α → Tree α → Bool
  | node x _ _, node y _ _ => !before x y
  | leaf, node .. => true
  | _, leaf => false

/-- The entries from the top of a tree down to where a gap at its top sinks. -/
def descent (before : α → α → Bool) : Tree α → List α
  | leaf => []
  | node x l r => x :: (if sinksRight before l r then r.descent before else l.descent before)

/-- Replaces the top entry: the gap sinks to the bottom, and from there the new entry rises past the
entries that it comes before. -/
def replaceTop (before : α → α → Bool) (x : α) : Tree α → Tree α
  | leaf => node x leaf leaf
  | node _ l r =>
    let right := sinksRight before l r
    match (if right then r else l).descent before with
    | [] => node x l r
    | y :: rest =>
      if (y :: rest).all (before x) then node x l r
      else if right then node y l (r.replaceTop before x)
      else node y (l.replaceTop before x) r

theorem toList_of_descent {before : α → α → Bool} {t : Tree α} {x : α} {rest : List α}
    (h : t.descent before = x :: rest) : t.toList = x :: t.toList.tail := by
  cases t with
  | leaf => simp [descent] at h
  | node y l r => simp [(List.cons.inj h).1]

theorem toList_replaceTop (before : α → α → Bool) (x : α) (t : Tree α) :
    (t.replaceTop before x).toList.Perm (x :: t.toList.tail) := by
  induction t with
  | leaf => exact .refl _
  | node z l r ihl ihr =>
    unfold replaceTop
    dsimp only
    split
    · exact .refl _
    · next y rest heq =>
      split
      · exact .refl _
      · split
        · next h =>
          rw [if_pos h] at heq
          refine (List.Perm.cons y ((List.Perm.append_left _ ihr).trans List.perm_middle)).trans ?_
          refine (List.Perm.swap x y _).trans (.cons x ?_)
          simp only [toList_node, List.tail_cons]
          rw [toList_of_descent heq]
          exact List.perm_middle.symm
        · next h =>
          rw [if_neg h] at heq
          refine (List.Perm.cons y (ihl.append_right _)).trans ?_
          refine (List.Perm.swap x y _).trans (.cons x ?_)
          simp only [toList_node, List.tail_cons]
          rw [toList_of_descent heq]
          exact .refl _

end Heap.Tree

/-- A tree with the number of its entries. -/
structure Heap (α : Type) where
  size : Nat
  tree : Heap.Tree α
  deriving Inhabited, Repr

namespace Heap

variable {α : Type}

/-- The heap without entries. -/
def empty : Heap α := ⟨0, .leaf⟩

/-- The entries of a heap. -/
def toList (h : Heap α) : List α := h.tree.toList

/-- Adds an entry. -/
def push (before : α → α → Bool) (x : α) (h : Heap α) : Heap α :=
  ⟨h.size + 1, h.tree.insert before x (Tree.wayTo (h.size + 1))⟩

/-- Takes the top entry. -/
def pop? (before : α → α → Bool) (h : Heap α) : Option (α × Heap α) :=
  (h.tree.removeLast? (Tree.wayTo h.size)).map fun (last, rest) =>
    match rest with
    | .leaf => (last, empty)
    | .node top _ _ => (top, ⟨h.size - 1, rest.replaceTop before last⟩)

@[simp] theorem toList_empty : (empty : Heap α).toList = [] := rfl

theorem toList_push (before : α → α → Bool) (x : α) (h : Heap α) :
    (h.push before x).toList.Perm (x :: h.toList) :=
  Tree.toList_insert before x _ h.tree

theorem pop?_eq_none {before : α → α → Bool} {h : Heap α} : h.pop? before = none ↔ h.toList = [] := by
  rw [pop?, Option.map_eq_none_iff, Tree.removeLast?_eq_none]
  cases h with
  | mk size tree => cases tree <;> simp [toList]

theorem toList_of_pop? {before : α → α → Bool} {h rest : Heap α} {x : α}
    (hp : h.pop? before = some (x, rest)) : h.toList.Perm (x :: rest.toList) := by
  obtain ⟨⟨last, t⟩, hr, heq⟩ := Option.map_eq_some_iff.1 hp
  have hl := Tree.toList_of_removeLast? hr
  cases t with
  | leaf =>
    obtain ⟨rfl, rfl⟩ := Prod.mk.inj heq
    exact hl
  | node top l r =>
    obtain ⟨rfl, rfl⟩ := Prod.mk.inj heq
    exact hl.trans ((List.Perm.swap _ _ _).trans
      (.cons top (Tree.toList_replaceTop before last (.node top l r)).symm))

end Heap

end Transducer
