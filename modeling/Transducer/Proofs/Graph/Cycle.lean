import Mathlib
import Transducer.Proofs.Graph.Search

/-!
# Cycles by one search

Whether a graph has a cycle is found out by one depth-first search, a loop with its own stack of calls. A vertex is
white until it is reached, grey as long as the search is there, and black afterwards: `CycleSearch` is the state of
the loop, `CycleSearch.turn` one turn of it. An edge to a grey vertex closes a cycle, and the search stops.

A search that does not stop has left every vertex, and no cycle goes through a black one (`Sound`), since all edges
from there lead to vertices that were black before. Hence the answer is right (`hasCycle_iff`).
-/

namespace Transducer.Graph

open Relation

/-- How far a search has come with a vertex. -/
inductive Colour where
  /-- The vertex has not been reached. -/
  | white
  /-- The search is at the vertex, or at one that it has come to from there. -/
  | grey
  /-- The search has left the vertex. -/
  | black
  deriving DecidableEq, Repr

/-- The state of a search for a cycle. -/
structure CycleSearch where
  colour : Array Colour
  /-- The vertices where the search is, the last one first, each with how many of its edges have been passed. -/
  calls : List (Nat × Nat) := []

namespace CycleSearch

/-- The search of a graph with `size` vertices, before its first turn. -/
def init (size : Nat) : CycleSearch where
  colour := Array.replicate size .white

/-- Reaches a vertex, from where the search goes on. -/
def enter (t : CycleSearch) (v : Nat) : CycleSearch where
  colour := t.colour.setIfInBounds v .grey
  calls := (v, 0) :: t.calls

/-- One turn of the loop at the vertex `v`, of whose edges some have been passed. The next edge closes a cycle, which
ends the search, or it leads to a new vertex, or nothing comes of it; or there is no edge left. -/
def turn (next : Nat → List Nat) (t : CycleSearch) (v passed : Nat) (calls : List (Nat × Nat)) : Option CycleSearch :=
  match (next v)[passed]? with
  | some w =>
    let t : CycleSearch := { t with calls := (v, passed + 1) :: calls }
    match t.colour[w]? with
    | some .grey => none
    | some .white => some (t.enter w)
    | _ => some t
  | none => some { colour := t.colour.setIfInBounds v .black, calls }

/-! ### The loop -/

/-- How many vertices have not been reached. -/
def unreached (t : CycleSearch) : Nat := t.colour.count .white

/-- How many edges of the vertices where the search is have not been passed, and how many these vertices are. -/
def pending (next : Nat → List Nat) (t : CycleSearch) : Nat :=
  (t.calls.map fun (v, passed) => (next v).length - passed + 1).sum

/-- What one turn can do if it does not end the search. -/
inductive Turned (next : Nat → List Nat) (t : CycleSearch) (v passed : Nat) (calls : List (Nat × Nat)) :
    CycleSearch → Prop where
  /-- The next edge leads to a new vertex. -/
  | enters {w : Nat} : (next v)[passed]? = some w → t.colour[w]? = some .white →
      Turned next t v passed calls (({ t with calls := (v, passed + 1) :: calls } : CycleSearch).enter w)
  /-- The next edge leads to a vertex that the search has left, or that does not exist. -/
  | passes {w : Nat} : (next v)[passed]? = some w → (∀ h : w < t.colour.size, t.colour[w] = .black) →
      Turned next t v passed calls { t with calls := (v, passed + 1) :: calls }
  /-- No edge is left. -/
  | leaves : (next v)[passed]? = none →
      Turned next t v passed calls { colour := t.colour.setIfInBounds v .black, calls }

variable {next : Nat → List Nat} {size : Nat} {t t' : CycleSearch} {v w passed : Nat} {calls : List (Nat × Nat)}

theorem turned_of_turn (h : t.turn next v passed calls = some t') : Turned next t v passed calls t' := by
  unfold turn at h
  split at h
  · next w hw =>
    dsimp only at h
    split at h
    · cases h
    · next hwhite =>
      obtain rfl := Option.some.inj h
      exact .enters hw hwhite
    · next hgrey hwhite =>
      obtain rfl := Option.some.inj h
      refine .passes hw fun hlt => ?_
      rw [Array.getElem?_eq_getElem hlt] at hgrey hwhite
      cases hcolour : t.colour[w] with
      | white => exact absurd (congrArg some hcolour) hwhite
      | grey => exact absurd (congrArg some hcolour) hgrey
      | black => rfl
  · next hnone =>
    obtain rfl := Option.some.inj h
    exact .leaves hnone

/-- An edge that ends the search leads to a grey vertex. -/
theorem grey_of_turn (h : t.turn next v passed calls = none) :
    ∃ w, (next v)[passed]? = some w ∧ t.colour[w]? = some .grey := by
  unfold turn at h
  split at h
  · next w hw =>
    dsimp only at h
    split at h
    · next hgrey => exact ⟨w, hw, hgrey⟩
    · cases h
    · cases h
  · cases h

theorem count_setIfInBounds_lt {colour : Array Colour} (h : colour[v]? = some .white) {c : Colour} (hc : c ≠ .white) :
    (colour.setIfInBounds v c).count .white < colour.count .white := by
  obtain ⟨hv, hwhite⟩ := Array.getElem?_eq_some_iff.1 h
  have hpos : 0 < colour.count .white := Array.count_pos_iff.2 (hwhite ▸ Array.getElem_mem hv)
  rw [Array.setIfInBounds, dif_pos hv, Array.count_set hv, hwhite, beq_self_eq_true, if_pos rfl,
    beq_eq_false_iff_ne.2 hc]
  exact Nat.sub_lt hpos Nat.one_pos

theorem count_setIfInBounds_le (colour : Array Colour) (v : Nat) {c : Colour} (hc : c ≠ .white) :
    (colour.setIfInBounds v c).count .white ≤ colour.count .white := by
  rw [Array.setIfInBounds]
  split
  · next hv =>
    rw [Array.count_set hv, beq_eq_false_iff_ne.2 hc]
    exact Nat.sub_le _ _
  · exact le_rfl

/-- A turn reaches one more vertex, or leaves less to do where the search is. -/
theorem measure_lt_of_turn (hcalls : t.calls = (v, passed) :: calls) (h : t.turn next v passed calls = some t') :
    Prod.Lex (· < ·) (· < ·) (t'.unreached, t'.pending next) (t.unreached, t.pending next) := by
  cases turned_of_turn h with
  | enters _ hwhite => exact .left _ _ (count_setIfInBounds_lt hwhite nofun)
  | passes hw _ =>
    have := (List.getElem?_eq_some_iff.1 hw).1
    refine Prod.Lex.right' _ le_rfl ?_
    simp only [pending, hcalls, List.map_cons, List.sum_cons]
    omega
  | leaves _ =>
    refine Prod.Lex.right' _ (count_setIfInBounds_le t.colour v nofun) ?_
    simp only [pending, hcalls, List.map_cons, List.sum_cons]
    omega

/-- Takes one turn after another until the search has left the vertex where it began, or until it ends at a cycle. -/
def run (next : Nat → List Nat) (t : CycleSearch) : Option CycleSearch :=
  match _hcalls : t.calls with
  | [] => some t
  | (v, passed) :: calls =>
    match _h : t.turn next v passed calls with
    | none => none
    | some t' => run next t'
termination_by (t.unreached, t.pending next)
decreasing_by exact measure_lt_of_turn _hcalls _h

/-- Searches from a vertex, unless it has been reached. -/
def visit (next : Nat → List Nat) (t : CycleSearch) (root : Nat) : Option CycleSearch :=
  if t.colour[root]? = some .white then (t.enter root).run next else some t

end CycleSearch

/-- Whether a graph has a cycle. -/
def hasCycle (next : Nat → List Nat) (size : Nat) : Bool :=
  ((List.range size).foldlM (CycleSearch.visit next) (.init size)).isNone

namespace CycleSearch

variable {next : Nat → List Nat} {size : Nat} {t t' : CycleSearch} {v w passed : Nat} {calls : List (Nat × Nat)}

/-! ### What holds at every turn -/

/-- The search has left the vertex. -/
def Black (t : CycleSearch) (v : Nat) : Prop := t.colour[v]? = some .black

/-- The edges that have been passed lead to vertices that are done with, or to the vertex above. -/
def Stands (next : Nat → List Nat) (size : Nat) : (Nat → Prop) → List (Nat × Nat) → Prop
  | _, [] => True
  | Done, (v, passed) :: calls =>
    (∀ w ∈ (next v).take passed, w < size → Done w) ∧ Stands next size (fun w => Done w ∨ w = v) calls

theorem Stands.mono {Done Done' : Nat → Prop} (h : Stands next size Done calls) (hdone : ∀ w, Done w → Done' w) :
    Stands next size Done' calls := by
  induction calls generalizing Done Done' with
  | nil => trivial
  | cons call calls ih => exact ⟨fun w hw hlt => hdone w (h.1 w hw hlt), ih h.2 fun w => .imp_left (hdone w)⟩

/-- One more edge is passed. -/
theorem Stands.pass {Done Done' : Nat → Prop} (h : Stands next size Done ((v, passed) :: calls))
    (hdone : ∀ w, Done w → Done' w) (hw : (next v)[passed]? = some w) (hend : w < size → Done' w) :
    Stands next size Done' ((v, passed + 1) :: calls) := by
  refine ⟨fun u hu hlt => ?_, (h.mono hdone).2⟩
  rw [List.take_add_one, hw, List.mem_append] at hu
  rcases hu with hu | hu
  · exact hdone u (h.1 u hu hlt)
  · obtain rfl : u = w := by simpa using hu
    exact hend hlt

/-- What holds of a search before and after each turn. -/
structure Sound (next : Nat → List Nat) (size : Nat) (t : CycleSearch) : Prop where
  size_eq : t.colour.size = size
  /-- The search is at the grey vertices. -/
  grey_iff : ∀ v, t.colour[v]? = some .grey ↔ v ∈ t.calls.map (·.1)
  /-- Each vertex where the search is leads to those above it. -/
  leads : (t.calls.map (·.1)).Pairwise fun w v => w ≠ v ∧ Reaches next size v w
  stands : Stands next size t.Black t.calls
  /-- Edges from black vertices lead to black ones. -/
  closed : ∀ {v w : Nat}, t.Black v → Edge next size v w → t.Black w
  /-- No cycle goes through a black vertex. -/
  acyclic : ∀ {v w : Nat}, t.Black v → Edge next size v w → ¬ Reaches next size w v

theorem sound_init (next : Nat → List Nat) (size : Nat) : Sound next size (init size) := by
  have hwhite : ∀ (v : Nat) (c : Colour), (init size).colour[v]? = some c → c = .white := by
    intro v c h
    rw [init, Array.getElem?_replicate] at h
    split at h
    · exact (Option.some.inj h).symm
    · cases h
  refine ⟨Array.size_replicate, fun v => ⟨fun h => ?_, nofun⟩, .nil, trivial, fun h => ?_, fun h => ?_⟩
  · cases hwhite v _ h
  · cases hwhite _ _ h
  · cases hwhite _ _ h

/-- No vertex becomes black when one is reached. -/
theorem black_enter_iff (hwhite : t.colour[w]? = some .white) : (t.enter w).Black v ↔ t.Black v := by
  rw [Black, Black, enter, Array.getElem?_setIfInBounds]
  split
  · next heq =>
    subst heq
    simp [hwhite]
  · rfl

namespace Sound

theorem reaches_black (h : Sound next size t) (hv : t.Black v) (hreaches : Reaches next size v w) : t.Black w := by
  induction hreaches with
  | refl => exact hv
  | tail _ e ih => exact h.closed ih e

/-- What leads to the vertex on top is where the search is. -/
theorem reaches_top (h : Sound next size t) (hcalls : t.calls = (v, passed) :: calls) (hw : t.colour[w]? = some .grey) :
    Reaches next size w v := by
  have hleads := h.leads
  have hmem := (h.grey_iff w).1 hw
  rw [hcalls, List.map_cons] at hleads hmem
  rcases List.mem_cons.1 hmem with rfl | hmem
  · exact .refl
  · exact ((List.pairwise_cons.1 hleads).1 w hmem).2

/-- The search stays where it is, and more edges have been passed. -/
theorem pass (h : Sound next size t) {calls : List (Nat × Nat)} (hcalls : calls.map (·.1) = t.calls.map (·.1))
    (hstands : Stands next size t.Black calls) : Sound next size { t with calls } where
  size_eq := h.size_eq
  grey_iff v := hcalls ▸ h.grey_iff v
  leads := hcalls ▸ h.leads
  stands := hstands
  closed := h.closed
  acyclic := h.acyclic

/-- A new vertex is reached. -/
theorem enter (h : Sound next size t) {calls : List (Nat × Nat)} (hcalls : calls.map (·.1) = t.calls.map (·.1))
    (hstands : Stands next size (fun v => t.Black v ∨ v = w) calls) (hwhite : t.colour[w]? = some .white)
    (hleads : ∀ v ∈ calls.map (·.1), Reaches next size v w) :
    Sound next size (({ t with calls } : CycleSearch).enter w) := by
  have hblack : ∀ {v : Nat}, (({ t with calls } : CycleSearch).enter w).Black v ↔ t.Black v := black_enter_iff hwhite
  have hnew : w ∉ calls.map (·.1) := by
    rw [hcalls, ← h.grey_iff, hwhite]
    nofun
  refine ⟨(Array.size_setIfInBounds ..).trans h.size_eq, fun v => ?_, ?_, ?_, fun hv e => ?_, fun hv => ?_⟩
  · rw [CycleSearch.enter, Array.getElem?_setIfInBounds, List.map_cons, List.mem_cons, hcalls, ← h.grey_iff]
    split
    · next heq =>
      subst heq
      have := (Array.getElem?_eq_some_iff.1 hwhite).1
      simp [this]
    · next hne => simp [Ne.symm hne]
  · refine List.pairwise_cons.2 ⟨fun v hv => ⟨?_, hleads v hv⟩, hcalls ▸ h.leads⟩
    rintro rfl
    exact hnew hv
  · exact ⟨by simp, hstands.mono fun v => .imp_left hblack.2⟩
  · exact hblack.2 (h.closed (hblack.1 hv) e)
  · exact h.acyclic (hblack.1 hv)

/-- The search leaves a vertex. A cycle through it would come back from a black vertex. -/
theorem leave (h : Sound next size t) (hcalls : t.calls = (v, passed) :: calls) (hnone : (next v)[passed]? = none) :
    Sound next size { colour := t.colour.setIfInBounds v .black, calls } := by
  have hgrey : t.colour[v]? = some .grey := (h.grey_iff v).2 (by simp [hcalls])
  have hlt := (Array.getElem?_eq_some_iff.1 hgrey).1
  have hblack : ∀ {w : Nat}, ({ colour := t.colour.setIfInBounds v .black, calls } : CycleSearch).Black w ↔
      t.Black w ∨ w = v := by
    intro w
    rw [Black, Black, Array.getElem?_setIfInBounds]
    split
    · next heq => simp [← heq, hlt]
    · next hne => simp [Ne.symm hne]
  have hstands := h.stands
  have hleads := h.leads
  rw [hcalls] at hstands hleads
  have hedges : ∀ {w : Nat}, Edge next size v w → t.Black w := fun e =>
    hstands.1 _ (by rw [List.take_of_length_le (List.getElem?_eq_none_iff.1 hnone)]; exact e.1) e.2
  refine ⟨(Array.size_setIfInBounds ..).trans h.size_eq, fun w => ?_, (List.pairwise_cons.1 hleads).2,
    hstands.2.mono fun w => hblack.2, fun hw e => ?_, fun hw e hreaches => ?_⟩
  · have hiff := h.grey_iff w
    rw [hcalls, List.map_cons, List.mem_cons] at hiff
    rw [Array.getElem?_setIfInBounds]
    split
    · next heq =>
      subst heq
      have hnot : v ∉ calls.map (·.1) := fun hmem => ((List.pairwise_cons.1 hleads).1 v hmem).1 rfl
      simp [hnot]
    · next hne => simp [hiff, Ne.symm hne]
  · exact hblack.2 (.inl ((hblack.1 hw).elim (fun hw => h.closed hw e) fun heq => hedges (heq ▸ e)))
  · rcases hblack.1 hw with hw | rfl
    · exact h.acyclic hw e hreaches
    · cases hgrey.symm.trans (h.reaches_black (hedges e) hreaches)

end Sound

/-! ### What comes of a search -/

/-- Some vertex reaches itself. -/
def Cycle (next : Nat → List Nat) (size : Nat) : Prop := ∃ v w, Edge next size v w ∧ Reaches next size w v

/-- A turn ends the search at a cycle, or what holds before it holds after it. -/
theorem Sound.turn (h : Sound next size t) (hcalls : t.calls = (v, passed) :: calls) :
    (t.turn next v passed calls = none ∧ Cycle next size) ∨
      ∃ t', t.turn next v passed calls = some t' ∧ Sound next size t' := by
  cases hturn : t.turn next v passed calls with
  | none =>
    obtain ⟨w, hw, hgrey⟩ := grey_of_turn hturn
    have hlt := h.size_eq ▸ (Array.getElem?_eq_some_iff.1 hgrey).1
    exact .inl ⟨rfl, v, w, ⟨List.mem_of_getElem? hw, hlt⟩, h.reaches_top hcalls hgrey⟩
  | some t' =>
    refine .inr ⟨t', rfl, ?_⟩
    have hstands := h.stands
    rw [hcalls] at hstands
    cases turned_of_turn hturn with
    | @enters w hw hwhite =>
      have e : Edge next size v w :=
        ⟨List.mem_of_getElem? hw, h.size_eq ▸ (Array.getElem?_eq_some_iff.1 hwhite).1⟩
      refine h.enter (by rw [hcalls]; rfl) (hstands.pass (fun _ => .inl) hw fun _ => .inr rfl) hwhite fun u hu => ?_
      have hleads := h.leads
      rw [hcalls, List.map_cons] at hleads
      rcases List.mem_cons.1 hu with rfl | hu
      · exact .single e
      · exact ((List.pairwise_cons.1 hleads).1 u hu).2.tail e
    | passes hw hblack =>
      refine h.pass (by rw [hcalls]; rfl) (hstands.pass (fun _ => id) hw fun hlt => ?_)
      have hlt := h.size_eq.symm ▸ hlt
      exact (Array.getElem?_eq_getElem hlt).trans (congrArg some (hblack hlt))
    | leaves hnone => exact h.leave hcalls hnone

theorem run_of_nil (h : t.calls = []) : t.run next = some t := by
  unfold run
  split
  · rfl
  · next hcons => simp [h] at hcons

theorem run_of_cons (hcalls : t.calls = (v, passed) :: calls) :
    t.run next = (t.turn next v passed calls).bind (·.run next) := by
  rw [run]
  split
  · next hnil => simp [hcalls] at hnil
  · next hcons =>
    obtain ⟨hv, rfl⟩ := List.cons.inj (hcalls.symm.trans hcons)
    obtain ⟨rfl, rfl⟩ := Prod.mk.inj hv
    split
    · next hnone => rw [hnone]; rfl
    · next hsome => rw [hsome]; rfl

/-- No vertex is forgotten. -/
theorem white_of_turn {u : Nat} (h : t.turn next v passed calls = some t') (hwhite : t'.colour[u]? = some .white) :
    t.colour[u]? = some .white := by
  have hset : ∀ (w : Nat) (c : Colour), c ≠ .white → (t.colour.setIfInBounds w c)[u]? = some .white →
      t.colour[u]? = some .white := by
    intro w c hc hu
    rw [Array.getElem?_setIfInBounds] at hu
    split at hu
    · split at hu
      · exact absurd (Option.some.inj hu) hc
      · cases hu
    · exact hu
  cases turned_of_turn h with
  | @enters w => exact hset w .grey nofun hwhite
  | passes => exact hwhite
  | leaves => exact hset v .black nofun hwhite

/-- The search ends at a cycle, or it comes back to where it began. -/
theorem Sound.run (h : Sound next size t) :
    (t.run next = none ∧ Cycle next size) ∨ ∃ t', t.run next = some t' ∧ Sound next size t' ∧ t'.calls = [] ∧
      ∀ u : Nat, t'.colour[u]? = some .white → t.colour[u]? = some .white := by
  induction t using run.induct next with
  | case1 t hcalls => exact .inr ⟨t, run_of_nil hcalls, h, hcalls, fun _ => id⟩
  | case2 t v passed calls hcalls hnone =>
    obtain ⟨-, hcycle⟩ | ⟨t', ht', -⟩ := h.turn hcalls
    · exact .inl ⟨by rw [run_of_cons hcalls, hnone]; rfl, hcycle⟩
    · cases hnone.symm.trans ht'
  | case3 t v passed calls hcalls t' ht' ih =>
    obtain ⟨hnone, -⟩ | ⟨t'', ht'', hsound⟩ := h.turn hcalls
    · cases ht'.symm.trans hnone
    obtain rfl := Option.some.inj (ht'.symm.trans ht'')
    rw [run_of_cons hcalls, ht', Option.bind_some]
    obtain hcycle | ⟨t'', hrun, hsound, hnil, hwhite⟩ := ih hsound
    · exact .inl hcycle
    · exact .inr ⟨t'', hrun, hsound, hnil, fun u hu => white_of_turn ht' (hwhite u hu)⟩

/-- After a search from some vertices that ends at no cycle, none of them is white. -/
theorem Sound.foldlM_visit (h : Sound next size t) (hnil : t.calls = []) (roots : List Nat) :
    (roots.foldlM (visit next) t = none ∧ Cycle next size) ∨
      ∃ t', roots.foldlM (visit next) t = some t' ∧ Sound next size t' ∧ t'.calls = [] ∧
        (∀ u : Nat, t'.colour[u]? = some .white → t.colour[u]? = some .white) ∧
        ∀ root ∈ roots, t'.colour[root]? ≠ some .white := by
  induction roots generalizing t with
  | nil => exact .inr ⟨t, rfl, h, hnil, fun _ => id, nofun⟩
  | cons root roots ih =>
    have hvisit : (visit next t root = none ∧ Cycle next size) ∨ ∃ t', visit next t root = some t' ∧
        Sound next size t' ∧ t'.calls = [] ∧ (∀ u : Nat, t'.colour[u]? = some .white → t.colour[u]? = some .white) ∧
        t'.colour[root]? ≠ some .white := by
      by_cases hwhite : t.colour[root]? = some .white
      · have henter : Sound next size (t.enter root) :=
          h.enter rfl (by rw [hnil]; trivial) hwhite (by rw [hnil]; nofun)
        have hkeep : ∀ u : Nat, (t.enter root).colour[u]? = some .white → u ≠ root ∧ t.colour[u]? = some .white := by
          intro u hu
          rw [CycleSearch.enter, Array.getElem?_setIfInBounds] at hu
          split at hu
          · split at hu <;> cases hu
          · next hne => exact ⟨Ne.symm hne, hu⟩
        rw [visit, if_pos hwhite]
        obtain hcycle | ⟨t', hrun, hsound, hcalls, hmono⟩ := henter.run
        · exact .inl hcycle
        · exact .inr ⟨t', hrun, hsound, hcalls, fun u hu => (hkeep u (hmono u hu)).2,
            fun hroot => (hkeep root (hmono root hroot)).1 rfl⟩
      · rw [visit, if_neg hwhite]
        exact .inr ⟨t, rfl, h, hnil, fun _ => id, hwhite⟩
    rw [List.foldlM_cons]
    obtain ⟨hnone, hcycle⟩ | ⟨t', ht', hsound, hcalls, hmono, hroot⟩ := hvisit
    · exact .inl ⟨by rw [hnone]; rfl, hcycle⟩
    rw [ht']
    obtain hcycle | ⟨t'', hfold, hsound, hcalls, hmono', hroots⟩ := ih hsound hcalls
    · exact .inl hcycle
    · exact .inr ⟨t'', hfold, hsound, hcalls, fun u hu => hmono u (hmono' u hu),
        List.forall_mem_cons.2 ⟨fun hwhite => hroot (hmono' root hwhite), hroots⟩⟩

end CycleSearch

/-- The search finds out whether some vertex reaches itself. -/
theorem hasCycle_iff {next : Nat → List Nat} {size : Nat} :
    hasCycle next size = true ↔ ∃ v w, Edge next size v w ∧ Reaches next size w v := by
  rw [hasCycle]
  obtain ⟨hnone, hcycle⟩ | ⟨t, ht, hsound, hcalls, -, hroots⟩ :=
    (CycleSearch.sound_init next size).foldlM_visit rfl (List.range size)
  · rw [hnone]
    exact iff_of_true rfl hcycle
  · rw [ht]
    refine iff_of_false nofun ?_
    rintro ⟨v, w, e, hreaches⟩
    have hv := hreaches.lt_size e.2
    -- every vertex has been left
    have hlt : v < t.colour.size := hsound.size_eq.symm ▸ hv
    have hget : t.colour[v]? = some t.colour[v] := Array.getElem?_eq_getElem hlt
    refine hsound.acyclic (v := v) ?_ e hreaches
    rw [CycleSearch.Black, hget]
    cases hcolour : t.colour[v] with
    | white => exact absurd (hget.trans (congrArg some hcolour)) (hroots v (List.mem_range.2 hv))
    | grey =>
      have hmem := (hsound.grey_iff v).1 (hget.trans (congrArg some hcolour))
      simp [hcalls] at hmem
    | black => rfl

end Transducer.Graph
