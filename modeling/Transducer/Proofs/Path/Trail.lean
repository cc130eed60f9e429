import Mathlib
import Transducer.Path.Beam

/-!
# Ways through a composition

A beam search keeps for each composite state that it admits what the way to it costs and the last arc of that way. A
`Trail` has all of the way. What is admitted is `Recorded` where every composite state has a trail to it that goes on
from the one to the composite state before it. This stays so as more is admitted, since nothing is admitted twice
(`Recorded.admitAll`), and going back from a composite state gives all that its trail has come along
(`Recorded.along_retrace`), however far it is: a trail has fewer arcs than there are composite states that are admitted.
-/

namespace Transducer

/-- A way through a composition, and what it costs. -/
structure Trail (W : Type) where
  cost : W
  /-- The composite state at the end. -/
  state : Nat
  /-- The composite states before it, the last one first. -/
  passed : List Nat
  /-- The arcs, the last one first. -/
  arcs : List (Arc W)

namespace Trail

variable {W : Type} [Weight W]

/-- The way one arc further. -/
def extend (trail : Trail W) (arc : Arc W) : Trail W where
  cost := trail.cost * arc.weight
  state := arc.target
  passed := trail.state :: trail.passed
  arcs := arc :: trail.arcs

/-- The path along an accepting way, with its weight. -/
def toPath (trail : Trail W) (weight : W) : BeamPath W :=
  .along weight ((trail.state :: trail.passed).reverse, trail.arcs.reverse)

end Trail

variable {W : Type} {admitted : Std.HashMap Nat (Admitted W)}

/-! ### Going back -/

/-- Going back from a composite state until there is nothing before it. -/
inductive Retraces (admitted : Std.HashMap Nat (Admitted W)) :
    Nat → List Nat → List (Arc W) → List Nat × List (Arc W) → Prop where
  | done {id : Nat} {states : List Nat} {arcs : List (Arc W)} :
      admitted[id]?.bind (·.back) = none → Retraces admitted id states arcs (states, arcs)
  | back {id source : Nat} {arc : Arc W} {states : List Nat} {arcs : List (Arc W)} {way : List Nat × List (Arc W)} :
      admitted[id]?.bind (·.back) = some (source, arc) →
      Retraces admitted source (source :: states) (arc :: arcs) way → Retraces admitted id states arcs way

variable [Weight W] {way way' : Nat → Trail W} {id source bound : Nat} {entry : Admitted W}

/-- What is kept of each composite state that is admitted is what its trail costs and how it ends. -/
structure Recorded (admitted : Std.HashMap Nat (Admitted W)) (way : Nat → Trail W) : Prop where
  state_eq : ∀ id ∈ admitted, (way id).state = id
  cost_eq : ∀ id entry, admitted[id]? = some entry → (way id).cost = entry.cost
  start : ∀ id ∈ admitted, admitted[id]?.bind (·.back) = none → (way id).passed = [] ∧ (way id).arcs = []
  extend : ∀ id source arc, admitted[id]?.bind (·.back) = some (source, arc) →
    source ∈ admitted ∧ way id = (way source).extend arc
  length_lt : ∀ id ∈ admitted, (way id).arcs.length < admitted.size

namespace Recorded

/-- Going back from a composite state gives all that its trail has come along, if the bound allows for its arcs. -/
theorem retraces_of_le (h : Recorded admitted way) (hid : id ∈ admitted) (hbound : (way id).arcs.length ≤ bound)
    (states : List Nat) (arcs : List (Arc W)) :
    Retraces admitted id states arcs (retrace admitted bound id states arcs) ∧
      retrace admitted bound id states arcs = ((way id).passed.reverse ++ states, (way id).arcs.reverse ++ arcs) := by
  induction bound generalizing id states arcs with
  | zero =>
    cases hback : admitted[id]?.bind (·.back) with
    | none =>
      obtain ⟨hpassed, harcs⟩ := h.start id hid hback
      exact ⟨.done hback, by simp [retrace, hpassed, harcs]⟩
    | some back =>
      rw [(h.extend id back.1 back.2 hback).2] at hbound
      exact absurd hbound (Nat.not_succ_le_zero _)
  | succ bound ih =>
    cases hback : admitted[id]?.bind (·.back) with
    | none =>
      obtain ⟨hpassed, harcs⟩ := h.start id hid hback
      simp only [retrace, hback, hpassed, harcs]
      exact ⟨.done hback, rfl⟩
    | some back =>
      obtain ⟨source, arc⟩ := back
      obtain ⟨hsource, hway⟩ := h.extend id source arc hback
      rw [hway] at hbound ⊢
      obtain ⟨hretraces, heq⟩ := ih hsource (Nat.le_of_succ_le_succ hbound) (source :: states) (arc :: arcs)
      simp only [retrace, hback]
      refine ⟨.back hback hretraces, heq.trans ?_⟩
      simp [Trail.extend, h.state_eq source hsource]

/-- The best path is the one along the trail to its final state. -/
theorem along_retrace (h : Recorded admitted way) (hid : id ∈ admitted) (weight : W) :
    BeamPath.along weight (retrace admitted admitted.size id [id] []) = (way id).toPath weight := by
  rw [(h.retraces_of_le hid (h.length_lt id hid).le [id] []).2, Trail.toPath, List.reverse_cons, h.state_eq id hid,
    List.append_nil]

/-! ### Admitting -/

end Recorded

namespace Approach

variable {approach : Approach W}

/-- The trail of the composite state that the approach leads to. -/
def trail (way : Nat → Trail W) (approach : Approach W) : Trail W := (way approach.source).extend approach.arc

/-- The approach comes from a composite state that has been admitted, and costs what its trail does. -/
structure Leaves (admitted : Std.HashMap Nat (Admitted W)) (way : Nat → Trail W) (approach : Approach W) : Prop where
  source_mem : approach.source ∈ admitted
  cost_eq : approach.cost = (approach.trail way).cost

end Approach

namespace Recorded

omit [Weight W] in
/-- To admit a composite state changes no trail to another one. -/
theorem update_of_mem {admitted : Std.HashMap Nat (Admitted W)} {target : Nat} (hnew : target ∉ admitted)
    (way : Nat → Trail W) (trail : Trail W) : ∀ id ∈ admitted, Function.update way target trail id = way id := by
  rintro id hid
  refine Function.update_of_ne ?_ ..
  rintro rfl
  exact hnew hid

/-- A composite state that has not been admitted is admitted with the way to it. -/
theorem insert (h : Recorded admitted way) {approach : Approach W} (hleaves : approach.Leaves admitted way)
    (hnew : approach.arc.target ∉ admitted) :
    Recorded (admitted.insert approach.arc.target approach.admitted)
      (Function.update way approach.arc.target (approach.trail way)) := by
  have hcases : ∀ id ∈ admitted.insert approach.arc.target approach.admitted,
      id = approach.arc.target ∨ id ∈ admitted :=
    fun id hid => (Std.HashMap.mem_insert.1 hid).imp_left fun heq => (eq_of_beq heq).symm
  have hway := update_of_mem hnew way (approach.trail way)
  have hget : ∀ id ∈ admitted, (admitted.insert approach.arc.target approach.admitted)[id]? = admitted[id]? := by
    intro id hid
    refine Std.HashMap.getElem?_insert.trans (if_neg fun heq => hnew ?_)
    exact eq_of_beq heq ▸ hid
  refine ⟨fun id hid => ?_, fun id entry hentry => ?_, fun id hid hback => ?_, fun id source arc hback => ?_,
    fun id hid => ?_⟩
  · rcases hcases id hid with rfl | hid
    · rw [Function.update_self]
      rfl
    · rw [hway id hid, h.state_eq id hid]
  · rcases hcases id (Std.HashMap.mem_iff_isSome_getElem?.2 (hentry ▸ rfl)) with rfl | hid
    · obtain rfl := Option.some.inj (Std.HashMap.getElem?_insert_self.symm.trans hentry)
      rw [Function.update_self]
      exact hleaves.cost_eq.symm
    · rw [hway id hid]
      exact h.cost_eq id entry ((hget id hid).symm.trans hentry)
  · rcases hcases id hid with rfl | hid
    · rw [Std.HashMap.getElem?_insert_self] at hback
      cases hback
    · rw [hway id hid]
      exact h.start id hid (hget id hid ▸ hback)
  · obtain ⟨entry, hentry, -⟩ := Option.bind_eq_some_iff.1 hback
    rcases hcases id (Std.HashMap.mem_iff_isSome_getElem?.2 (hentry ▸ rfl)) with rfl | hid
    · rw [Std.HashMap.getElem?_insert_self] at hback
      obtain ⟨rfl, rfl⟩ := Prod.mk.inj (Option.some.inj hback)
      rw [Function.update_self, hway _ hleaves.source_mem]
      exact ⟨Std.HashMap.mem_insert.2 (.inr hleaves.source_mem), rfl⟩
    · obtain ⟨hsource, hextend⟩ := h.extend id source arc (hget id hid ▸ hback)
      rw [hway id hid, hway source hsource]
      exact ⟨Std.HashMap.mem_insert.2 (.inr hsource), hextend⟩
  · rw [Std.HashMap.size_insert, if_neg hnew]
    rcases hcases id hid with rfl | hid
    · rw [Function.update_self]
      exact Nat.succ_lt_succ (h.length_lt approach.source hleaves.source_mem)
    · rw [hway id hid]
      exact (h.length_lt id hid).trans (Nat.lt_succ_self _)

variable {chosen : List (Approach W)}

/-- The composite states that some approaches lead to are admitted, if none of them is admitted twice. What has been
admitted before is kept as it is. -/
theorem admitAll (h : Recorded admitted way) (hleaves : ∀ approach ∈ chosen, approach.Leaves admitted way)
    (hnodup : (chosen.map (·.arc.target)).Nodup) (hnew : ∀ approach ∈ chosen, approach.arc.target ∉ admitted) :
    ∃ way', Recorded (admitAll admitted chosen) way' ∧ (∀ id ∈ admitted, way' id = way id) ∧
      (∀ approach ∈ chosen, way' approach.arc.target = approach.trail way) := by
  induction chosen generalizing admitted way with
  | nil => exact ⟨way, h, fun _ _ => rfl, nofun⟩
  | cons approach chosen ih =>
    obtain ⟨hfirst, hrest⟩ := List.forall_mem_cons.1 hleaves
    obtain ⟨hfresh, hfreshRest⟩ := List.forall_mem_cons.1 hnew
    obtain ⟨hother, hnodup⟩ := List.nodup_cons.1 hnodup
    have hway := update_of_mem hfresh way (approach.trail way)
    have htrail : ∀ other ∈ chosen,
        other.trail (Function.update way approach.arc.target (approach.trail way)) = other.trail way := by
      intro other hmem
      rw [Approach.trail, hway _ (hrest other hmem).source_mem, Approach.trail]
    obtain ⟨way', hrecorded, hold, hchosen⟩ := ih (h.insert hfirst hfresh)
      (fun other hmem => ⟨Std.HashMap.mem_insert.2 (.inr (hrest other hmem).source_mem),
        (hrest other hmem).cost_eq.trans (by rw [htrail other hmem])⟩) hnodup
      (fun other hmem hmem' => (Std.HashMap.mem_insert.1 hmem').elim
        (fun heq => hother (List.mem_map.2 ⟨other, hmem, (eq_of_beq heq).symm⟩)) (hfreshRest other hmem))
    refine ⟨way', hrecorded, fun id hid => ?_, List.forall_mem_cons.2 ⟨?_, fun other hmem => ?_⟩⟩
    · exact (hold id (Std.HashMap.mem_insert.2 (.inr hid))).trans (hway id hid)
    · rw [hold _ (Std.HashMap.mem_insert.2 (.inl (beq_self_eq_true _))), Function.update_self]
    · exact (hchosen other hmem).trans (htrail other hmem)

end Recorded

omit [Weight W] in
theorem mem_admitAll {chosen : List (Approach W)} :
    id ∈ admitAll admitted chosen ↔ id ∈ admitted ∨ id ∈ chosen.map (·.arc.target) := by
  induction chosen generalizing admitted with
  | nil => simp [admitAll]
  | cons approach chosen ih =>
    rw [admitAll, List.foldl_cons, ← admitAll, ih, Std.HashMap.mem_insert, beq_iff_eq, List.map_cons, List.mem_cons]
    tauto

end Transducer
