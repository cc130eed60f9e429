import Mathlib
import Transducer.Automaton.Closure
import Transducer.Automaton.EpsilonRemoval
import Transducer.Automaton.Relabel
import Transducer.Path.Text
import Transducer.Proofs.Binary.Parts
import Transducer.Proofs.Except
import Transducer.Proofs.Property.Cache

/-!
# Changes keep what is known up to date

The cache of an automaton is current if it takes nothing for decided, or everything, as it is. Every change
either drops what was known or leaves the states and the start as they are, so it leaves a current cache
(`Change.keeps_edit`), also if it is refused halfway. The steps inside of a change are taken together by
`Keeps`.
-/

namespace Transducer

/-! ### Current caches -/

/-- The cache takes nothing for decided, or everything, as the facts are. -/
def PropertyCache.Current (cache : PropertyCache) (facts : PropertySet) : Prop :=
  cache = {} ∨ cache = { known := .all, value := facts }

namespace PropertySet

@[simp] theorem inter_all (s : PropertySet) : s.inter all = s :=
  ext_bits (BitVec.and_allOnes ..)

@[simp] theorem inter_none (s : PropertySet) : s.inter none = none :=
  ext_bits (BitVec.and_zero ..)

@[simp] theorem inter_self (s : PropertySet) : s.inter s = s :=
  ext_bits (BitVec.and_self ..)

@[simp] theorem none_inter (s : PropertySet) : none.inter s = none :=
  ext_bits (BitVec.zero_and ..)

@[simp] theorem none_union (s : PropertySet) : none.union s = s :=
  ext_bits (BitVec.zero_or ..)

@[simp] theorem union_none (s : PropertySet) : s.union none = s :=
  ext_bits (BitVec.or_zero ..)

@[simp] theorem union_self (s : PropertySet) : s.union s = s :=
  ext_bits (BitVec.or_self ..)

end PropertySet

namespace PropertyCache

variable {cache other : PropertyCache} {facts : PropertySet}

theorem Current.sound (h : cache.Current facts) : cache.Sound facts := by
  rcases h with rfl | rfl
  · exact sound_empty facts
  · rfl

theorem Current.query (h : cache.Current facts) (mask : PropertySet) (compute : Bool) :
    (cache.query mask compute fun _ => facts).2.Current facts := by
  unfold PropertyCache.query
  split
  · exact h
  · exact .inr rfl

/-- A query that may not find out anything gives all of the answer or none of it. -/
theorem Current.query_false (h : cache.Current facts) (mask : PropertySet) (fresh : Unit → PropertySet) :
    (cache.query mask false fresh).1 = facts.inter mask ∨ (cache.query mask false fresh).1 = .none := by
  have hquery : cache.query mask false fresh = ((cache.value.inter cache.known).inter mask, cache) := by
    simp [PropertyCache.query]
  rw [hquery]
  rcases h with rfl | rfl
  · right
    simp
  · left
    simp

theorem Current.merge (h : cache.Current facts) (h' : other.Current facts) :
    (cache.merge other).Current facts := by
  rcases h with rfl | rfl <;> rcases h' with rfl | rfl
  · left
    simp [PropertyCache.merge]
  · right
    simp [PropertyCache.merge]
  · right
    simp [PropertyCache.merge]
  · right
    simp [PropertyCache.merge]

end PropertyCache

/-! ### Single changes -/

namespace Automaton

section

variable {W : Type} {a b c : Automaton W}

/-- What was known is dropped, or the states and the start are as they were. -/
def Renewed (a b : Automaton W) : Prop :=
  b.cache = {} ∨ b.cache = a.cache ∧ b.states = a.states ∧ b.start = a.start

namespace Renewed

theorem refl (a : Automaton W) : Renewed a a := .inr ⟨rfl, rfl, rfl⟩

theorem trans (h : Renewed a b) (h' : Renewed b c) : Renewed a c := by
  rcases h' with hempty | ⟨hcache, hstates, hstart⟩
  · exact .inl hempty
  · rcases h with hempty | ⟨hcache', hstates', hstart'⟩
    · exact .inl (hcache.trans hempty)
    · exact .inr ⟨hcache.trans hcache', hstates.trans hstates', hstart.trans hstart'⟩

end Renewed

theorem renewed_mapStates (a : Automaton W) (f : State W → State W) : Renewed a (a.mapStates f) := by
  unfold Automaton.mapStates
  split
  · exact .refl a
  · exact .inl rfl

theorem renewed_withSymbols (a : Automaton W) (side : Side) (table : Option SymbolTable) :
    Renewed a (a.withSymbols side table) :=
  .inr ⟨cache_withSymbols a side table, by cases side <;> rfl, by cases side <;> rfl⟩

theorem renewed_trim (a : Automaton W) : Renewed a a.trim := by
  unfold Automaton.trim
  dsimp only
  split
  · exact .refl a
  · exact .inl rfl

theorem renewed_project (a : Automaton W) (side : Side) : Renewed a (a.project side) :=
  (renewed_mapStates a _).trans (renewed_withSymbols _ _ _)

theorem renewed_sortArcs (a : Automaton W) (side : Side) : Renewed a (a.sortArcs side) :=
  renewed_mapStates a _

theorem renewed_rekey {target : SymbolTable} {input output : Bool} (h : a.rekey target input output = .ok b) :
    Renewed a b := by
  obtain ⟨isource, -, h⟩ := bind_eq_ok.1 h
  obtain ⟨osource, -, h⟩ := bind_eq_ok.1 h
  obtain ⟨states, -, h⟩ := bind_eq_ok.1 h
  obtain rfl := Except.ok.inj h
  have hrelabelled : Renewed a
      (if states.isEmpty then a else { a with states := states.toArray, cache := {} }) := by
    split
    · exact .refl a
    · exact .inl rfl
  cases input <;> cases output
  · exact hrelabelled
  · exact hrelabelled.trans (renewed_withSymbols _ .output (some target))
  · exact hrelabelled.trans (renewed_withSymbols _ .input (some target))
  · exact (hrelabelled.trans (renewed_withSymbols _ .input (some target))).trans
      (renewed_withSymbols _ .output (some target))

end

variable {W : Type} [Weight W] {a b : Automaton W}

/-- What the automaton knows of itself is nothing, or everything. -/
def CacheCurrent (a : Automaton W) : Prop := a.cache.Current a.facts

theorem cacheCurrent_of_eq_empty (h : a.cache = {}) : a.CacheCurrent := .inl h

/-- The facts depend on the states and the start only. -/
theorem facts_congr (hstates : b.states = a.states) (hstart : b.start = a.start) : b.facts = a.facts := by
  obtain ⟨states, start, _, _, _⟩ := a
  obtain ⟨_, _, _, _, _⟩ := b
  obtain rfl := hstates
  obtain rfl := hstart
  refine congrArg PropertySet.ofDecision (funext fun p => ?_)
  cases p <;> rfl

/-- What holds of a cache and the facts still holds, if it does of a cache that holds nothing. -/
theorem Renewed.of_cache {P : PropertyCache → PropertySet → Prop} (hempty : ∀ facts, P {} facts) (hr : Renewed a b)
    (h : P a.cache a.facts) : P b.cache b.facts := by
  rcases hr with hcache | ⟨hcache, hstates, hstart⟩
  · rw [hcache]
    exact hempty _
  · rw [hcache, facts_congr hstates hstart]
    exact h

theorem renewed_closure (a : Automaton W) (repetition : Repetition) : Renewed a (a.closure repetition) := by
  have hloop : ∀ start, Renewed a (a.loopBack start) := by
    intro start
    unfold Automaton.loopBack
    split
    · exact .refl a
    · exact renewed_mapStates a _
  unfold Automaton.closure
  split
  · exact .refl a
  · exact .inl rfl
  · exact hloop _
  · exact .inl rfl

namespace CacheCurrent

theorem of_renewed (h : a.CacheCurrent) (hr : Renewed a b) : b.CacheCurrent :=
  hr.of_cache (P := PropertyCache.Current) (fun _ => .inl rfl) h

theorem properties (h : a.CacheCurrent) (mask : PropertySet) (compute : Bool) :
    (a.properties mask compute).2.CacheCurrent :=
  h.query mask compute

theorem learn (h : a.CacheCurrent) {cache : PropertyCache} (hcache : cache.Current a.facts) :
    (a.learn cache).CacheCurrent :=
  h.merge hcache

end CacheCurrent

/-- To add a path changes the last state of it, or the start. -/
theorem cache_addPath (a : Automaton W) (ilabels olabels : List Label) (weight : W) :
    (a.addPath ilabels olabels weight).2.cache = {} := by
  unfold addPath
  dsimp only
  split <;> rfl

/-- What is stored of an automaton does not include what is known of it. -/
theorem cache_of_ofBytes [Costed W] {bytes : List UInt8} (h : ofBytes bytes = .ok a) : a.cache = {} :=
  Binary.of_ofBytes (P := fun a : Automaton W => a.cache = {})
    (.bind fun _ => .unless (.bind fun _ => .bind fun _ => .bind fun _ =>
      .unless (.bind fun _ => .bind fun _ => .unless (.bind fun _ => .bind fun _ => Binary.gives_pure rfl)))) h

end Automaton

namespace Edit

variable {W : Type} {P : Automaton W → Prop}

theorem keeps_requireState (s : Nat) : Keeps P (requireState s : Edit W Unit) := by
  intro a ha
  unfold stateAfter requireState
  by_cases hs : s < a.size
  · rw [if_pos hs]
    exact ha
  · rw [if_neg hs]
    exact ha

variable [Weight W]

theorem keeps_change (f : Automaton W → Automaton W) : Keeps Automaton.CacheCurrent (change f) :=
  fun _ _ => Automaton.cacheCurrent_of_eq_empty rfl

theorem keeps_changeState (s : Nat) (f : State W → State W) :
    Keeps Automaton.CacheCurrent (Edit.changeState s f) :=
  (keeps_requireState s).bind fun _ => keeps_change _

theorem keeps_setArcs (s : Nat) (arcs : Array (Arc W)) : Keeps Automaton.CacheCurrent (setArcs s arcs) :=
  (keeps_requireState s).bind fun _ =>
    (Keeps.forM fun arc : Arc W => keeps_requireState arc.target).bind fun _ => keeps_changeState s _

theorem keeps_setArc (s index : Nat) (arc : Arc W) : Keeps Automaton.CacheCurrent (setArc s index arc) := by
  refine keeps_get.bind fun a => ?_
  split
  · exact keeps_throw _
  · exact keeps_changeState s _

theorem keeps_setSymbols (side : Side) (table : Option SymbolTable) :
    Keeps Automaton.CacheCurrent (setSymbols side table : Edit W Unit) :=
  keeps_modify fun a h => h.of_renewed (a.renewed_withSymbols side table)

theorem keeps_rekey (target : SymbolTable) (input output : Bool) :
    Keeps Automaton.CacheCurrent (rekey target input output : Edit W Unit) := by
  intro a ha
  unfold stateAfter rekey
  cases hrekey : a.rekey target input output with
  | ok b => exact ha.of_renewed (Automaton.renewed_rekey hrekey)
  | error e => exact ha

theorem keeps_addStates (count : Nat) : Keeps Automaton.CacheCurrent (addStates count : Edit W (Nat × Nat)) := by
  intro a ha
  unfold stateAfter addStates
  by_cases hcount : count = 0
  · simpa [hcount] using ha
  · simpa [hcount] using Automaton.cacheCurrent_of_eq_empty rfl

theorem keeps_removeEpsilons {D : Type} [Tolerance W D] (config : EpsilonRemoval D) :
    Keeps Automaton.CacheCurrent (removeEpsilons config : Edit W Unit) := by
  refine keeps_get.bind fun a => ?_
  split
  · dsimp only
    split
    · exact keeps_throw _
    · refine (Keeps.forM fun s => ?_).bind fun _ => ?_
      · exact (keeps_setArcs s _).bind fun _ => keeps_changeState s _
      · split
        · exact keeps_modify fun a h => h.of_renewed a.renewed_trim
        · exact keeps_pure _
  · exact keeps_pure _

end Edit

/-! ### All changes -/

/-- The changes of an automaton. -/
inductive Change (W D : Type) where
  | addState
  | addStates (count : Nat)
  | reserveStates (count : Nat)
  | setStart (s : Nat)
  | setFinal (s : Nat) (weight : W)
  | deleteFinal (s : Nat)
  | addArc (s : Nat) (arc : Arc W)
  | setArc (s index : Nat) (arc : Arc W)
  | editArcs (s : Nat) (f : Array (Arc W) → Array (Arc W))
  | setArcs (s : Nat) (arcs : Array (Arc W))
  | reserveArcs (s count : Nat)
  | deleteArcs (s : Nat)
  | deleteStates (deleted : List Nat)
  | deleteAll
  | setSymbols (side : Side) (table : Option SymbolTable)
  | takeSymbols (side : Side)
  | trim
  | closure (repetition : Repetition)
  | project (side : Side)
  | sortArcs (side : Side)
  | rekey (target : SymbolTable) (input output : Bool)
  | removeEpsilons (config : EpsilonRemoval D)
  | addPath (ilabels olabels : List Label) (weight : W)
  | addText (text : String)
  | addChars (text : String)
  | addTextPair (input output : String) (weight : W)
  | read (bytes : List UInt8)

variable {W D : Type} [Weight W] [Costed W] [Tolerance W D]

/-- What a change does. Room for more states is not part of an automaton, so to make it changes nothing. To
read an automaton in place of another one changes nothing if the bytes store none. -/
def Change.edit : Change W D → Edit W Unit
  | addState => do let _ ← Edit.addState
  | addStates count => do let _ ← Edit.addStates count
  | reserveStates _ => pure ()
  | setStart s => Edit.setStart s
  | setFinal s weight => Edit.setFinal s weight
  | deleteFinal s => Edit.deleteFinal s
  | addArc s arc => Edit.addArc s arc
  | setArc s index arc => Edit.setArc s index arc
  | editArcs s f => Edit.changeState s fun state => { state with arcs := f state.arcs }
  | setArcs s arcs => Edit.setArcs s arcs
  | reserveArcs s _ => Edit.reserveArcs s
  | deleteArcs s => Edit.deleteArcs s
  | deleteStates deleted => Edit.deleteStates deleted
  | deleteAll => Edit.deleteAll
  | setSymbols side table => Edit.setSymbols side table
  | takeSymbols side => do let _ ← Edit.takeSymbols side
  | trim => modify (·.trim)
  | closure repetition => modify (·.closure repetition)
  | project side => modify (·.project side)
  | sortArcs side => modify (·.sortArcs side)
  | rekey target input output => Edit.rekey target input output
  | removeEpsilons config => Edit.removeEpsilons config
  | addPath ilabels olabels weight => modify fun a => (a.addPath ilabels olabels weight).2
  | addText text => modify fun a => (a.addText text).2
  | addChars text => modify fun a => (a.addChars text).2
  | addTextPair input output weight => modify fun a => (a.addTextPair input output weight).2
  | read bytes =>
    match Automaton.ofBytes bytes with
    | .ok a => modify fun _ => a
    | .error e => throw e

/-- No change leaves anything in the cache that is out of date. -/
theorem Change.keeps_edit (change : Change W D) :
    Keeps Automaton.CacheCurrent change.edit := by
  have hdropped : ∀ f : Automaton W → Automaton W, (∀ a, (f a).cache = {}) →
      Keeps Automaton.CacheCurrent (modify f : Edit W Unit) :=
    fun f h => keeps_modify fun a _ => Automaton.cacheCurrent_of_eq_empty (h a)
  cases change with
  | addState => exact fun _ _ => Automaton.cacheCurrent_of_eq_empty rfl
  | addStates count => exact (Edit.keeps_addStates count).bind fun _ => keeps_pure _
  | reserveStates count => exact keeps_pure _
  | setStart s => exact (Edit.keeps_requireState s).bind fun _ => Edit.keeps_change _
  | setFinal s weight => exact Edit.keeps_changeState s _
  | deleteFinal s => exact Edit.keeps_changeState s _
  | addArc s arc => exact (Edit.keeps_requireState arc.target).bind fun _ => Edit.keeps_changeState s _
  | setArc s index arc => exact Edit.keeps_setArc s index arc
  | editArcs s f => exact Edit.keeps_changeState s _
  | setArcs s arcs => exact Edit.keeps_setArcs s arcs
  | reserveArcs s count => exact Edit.keeps_changeState s _
  | deleteArcs s => exact Edit.keeps_changeState s _
  | deleteStates deleted =>
    exact (Keeps.forM fun s => Edit.keeps_requireState s).bind fun _ => Edit.keeps_change _
  | deleteAll => exact Edit.keeps_change _
  | setSymbols side table => exact Edit.keeps_setSymbols side table
  | takeSymbols side =>
    exact (keeps_get.bind fun _ => (Edit.keeps_setSymbols side none).bind fun _ => keeps_pure _).bind
      fun _ => keeps_pure _
  | trim => exact keeps_modify fun a h => h.of_renewed a.renewed_trim
  | closure repetition => exact keeps_modify fun a h => h.of_renewed (a.renewed_closure repetition)
  | project side => exact keeps_modify fun a h => h.of_renewed (a.renewed_project side)
  | sortArcs side => exact keeps_modify fun a h => h.of_renewed (a.renewed_sortArcs side)
  | rekey target input output => exact Edit.keeps_rekey target input output
  | removeEpsilons config => exact Edit.keeps_removeEpsilons config
  | addPath ilabels olabels weight => exact hdropped _ fun a => a.cache_addPath ilabels olabels weight
  | addText text => exact hdropped _ fun a => a.cache_addPath _ _ _
  | addChars text => exact hdropped _ fun a => a.cache_addPath _ _ _
  | addTextPair input output weight => exact hdropped _ fun a => a.cache_addPath _ _ _
  | read bytes =>
    simp only [Change.edit]
    split
    · next b hb => exact hdropped _ fun _ => Automaton.cache_of_ofBytes hb
    · exact keeps_throw _

end Transducer
