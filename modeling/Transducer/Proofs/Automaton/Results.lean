import Mathlib
import Transducer.Path.Best
import Transducer.Proofs.Automaton.Bypass
import Transducer.Proofs.Automaton.Standard
import Transducer.Proofs.Composition.Exploration
import Transducer.Proofs.Composition.Operands

/-!
# Results of algorithms

What epsilon removal, the search for best paths and composition build meets the standard of what it is built
from, if that standard is closed.

In each case all that is needed is where the weights and the labels come from. The weights that epsilon removal
passes on are sums of products of weights of arcs. The arcs of every candidate of the search are arcs of the
automaton. An arc of a composition without layers is made of an arc of each operand, or of one arc and an implicit
arc, whose outer label is epsilon.
-/

namespace Transducer

variable {W : Type} {std : Standard W} {a r : Automaton W}

/-! ### Epsilon removal -/

namespace EpsilonGraph

theorem mem_of_getD_eq_some {sums : Array (Option W)} {c : Nat} {weight : W}
    (h : sums.getD c none = some weight) : some weight ∈ sums := by
  rw [Array.getD_eq_getD_getElem?] at h
  cases hc : sums[c]? with
  | none =>
    rw [hc] at h
    cases h
  | some sum =>
    rw [hc] at h
    exact h ▸ Array.mem_of_getElem? hc

theorem mem_or_of_mem_modify {α : Type} {xs : Array α} {i : Nat} {f : α → α} {x : α} (h : x ∈ xs.modify i f) :
    x ∈ xs ∨ ∃ y ∈ xs, x = f y := by
  obtain ⟨k, hk⟩ := Array.getElem?_of_mem h
  rw [Array.getElem?_modify] at hk
  split at hk
  · obtain ⟨y, hy, rfl⟩ := Option.map_eq_some_iff.1 hk
    exact .inr ⟨y, Array.mem_of_getElem? hy, rfl⟩
  · exact .inl (Array.mem_of_getElem? hk)

variable [Weight W] {g : EpsilonGraph W} (hstd : std.Closed)
include hstd

theorem weight_of_plus_eq_some {old : Option W} {weight sum : W} (hold : ∀ w, old = some w → std.weight w)
    (hweight : std.weight weight) (h : plus old weight = some sum) : std.weight sum := by
  obtain rfl := Option.some.inj h
  split
  · next w => exact hstd.weight_add (hold w rfl) hweight
  · exact hweight

variable (h : g.automaton.Meets std)
include h

/-- What a component passes on is made of its sum and of weights of arcs. -/
theorem weight_of_mem_pass {sums : Array (Option W)} (hsums : ∀ w, some w ∈ sums → std.weight w) (source : Nat) :
    ∀ w, some w ∈ g.pass sums source → std.weight w := by
  unfold pass
  split
  · exact hsums
  · next weight hweight =>
    have hsource := hsums weight (mem_of_getD_eq_some hweight)
    refine List.foldlRecOn (motive := fun sums => ∀ w, some w ∈ sums → std.weight w) (g.crossings source) _ hsums
      fun sums hsums x hx w hw => ?_
    obtain ⟨s, -, arc, harc, -, rfl⟩ := mem_crossings.1 hx
    have hpassed := hstd.weight_mul hsource (h.arc (mem_arcs.1 harc).1).weight
    rcases mem_or_of_mem_modify hw with hw | ⟨old, hold, heq⟩
    · exact hsums w hw
    · exact weight_of_plus_eq_some hstd (fun v hv => hsums v (hv ▸ hold)) hpassed heq.symm

theorem weight_of_mem_closure {root s : Nat} {weight : W} (hmem : (s, weight) ∈ g.closure root) :
    std.weight weight := by
  have hsums : ∀ w, some w ∈ g.distances root → std.weight w := by
    refine List.foldlRecOn (motive := fun sums => ∀ w, some w ∈ sums → std.weight w)
      (List.range (root + 1)).reverse g.pass (fun w hw => ?_)
      fun sums hsums source _ => weight_of_mem_pass hstd h hsums source
    rcases Array.mem_or_eq_of_mem_setIfInBounds hw with hw | hw
    · exact nomatch (Array.mem_replicate.1 hw).2
    · exact Option.some.inj hw ▸ hstd.weight_one
  obtain ⟨c, -, hmem⟩ := List.mem_flatMap.1 hmem
  split at hmem
  · cases hmem
  · next sum hsum =>
    obtain ⟨t, -, heq⟩ := List.mem_map.1 hmem
    obtain ⟨-, rfl⟩ := Prod.mk.inj heq
    exact hsums _ (mem_of_getD_eq_some hsum)

/-- What a state is replaced with has arcs that meet the standard, and a sum of products as its weight. -/
theorem meets_replacement (root : Nat) :
    (∀ arc ∈ (g.replacement root).arcs, arc.Meets std g.automaton.size) ∧
      ∀ w, (g.replacement root).final = some w → std.weight w := by
  constructor
  · intro arc harc
    obtain ⟨s, weight, hmem, old, hold, -, -, rfl⟩ := mem_arcs_replacement.1 harc
    have hmeets := h.arc hold
    exact ⟨hmeets.target_lt, hstd.weight_mul (weight_of_mem_closure hstd h hmem) hmeets.weight, hmeets.label⟩
  · rw [final_replacement]
    refine List.foldlRecOn (motive := fun sum => ∀ w, sum = some w → std.weight w) (g.finals root) plus nofun
      fun sum hsum weight hweight w hw => ?_
    obtain ⟨⟨s, v⟩, hmem, hproduct⟩ := List.mem_filterMap.1 hweight
    obtain ⟨final, hfinal, rfl⟩ := Option.map_eq_some_iff.1 hproduct
    exact weight_of_plus_eq_some hstd hsum
      (hstd.weight_mul (weight_of_mem_closure hstd h hmem) (hstd.weight_of_final (h.final hfinal))) hw

end EpsilonGraph

namespace Automaton.Meets

variable [Weight W]

theorem bypass (h : a.Meets std) (hstd : std.Closed) : a.bypass.Meets std := by
  refine ⟨fun hs => ?_, fun state hstate => ?_⟩
  · rw [size_bypass]
    exact h.start_lt hs
  · rw [size_bypass]
    obtain ⟨s, -, rfl⟩ := Array.mem_map.1 hstate
    obtain ⟨harcs, hfinal⟩ := EpsilonGraph.meets_replacement (g := .of a) hstd h ((EpsilonGraph.of a).component s)
    refine State.Meets.withFinal ((State.Meets.default std a.size).setArcs harcs) (hstd.final_of_weight ?_)
    cases heq : ((EpsilonGraph.of a).replacement ((EpsilonGraph.of a).component s)).final with
    | none => exact hstd.weight_zero
    | some w => exact hfinal w heq

theorem removeEpsilons {D : Type} [Tolerance W D] (h : a.Meets std) (hstd : std.Closed)
    (config : EpsilonRemoval D) : (stateAfter (Edit.removeEpsilons config) a).Meets std := by
  obtain heq | heq | heq := Edit.stateAfter_removeEpsilons (fun harc => (h.arc harc).target_lt) config
  · rw [heq]
    exact h
  · rw [heq]
    exact h.bypass hstd
  · rw [heq]
    exact (h.bypass hstd).trim

end Automaton.Meets

/-! ### Best paths -/

namespace BestSearch

/-- The arcs of the candidate are arcs of the automaton. -/
def Within (a : Automaton W) (c : Candidate W) : Prop := ∀ arc ∈ c.arcs, ∃ s, arc ∈ a.arcsAt s

theorem within_of_arcs_eq_nil {c : Candidate W} (h : c.arcs = []) : Within a c := by
  intro arc harc
  rw [h] at harc
  cases harc

theorem within_extensions [Weight W] {backward : Array W} {c d : Candidate W} (h : Within a c)
    (hd : d ∈ extensions a backward c) : Within a d := by
  rcases List.mem_append.1 hd with hd | hd
  · obtain ⟨weight, -, rfl⟩ := List.mem_map.1 hd
    exact h
  · obtain ⟨arc, harc, heq⟩ := List.mem_filterMap.1 hd
    dsimp only at heq
    split at heq
    · cases heq
    · obtain rfl := Option.some.inj heq
      intro other hother
      rcases List.mem_cons.1 hother with rfl | hother
      · exact ⟨c.state, Array.mem_toList_iff.1 harc⟩
      · exact h other hother

/-- All candidates that wait or have been found are within the automaton. -/
structure Confined (a : Automaton W) (search : BestSearch W) : Prop where
  queue : ∀ entry ∈ search.queue.toList, Within a entry.1
  found : ∀ c ∈ search.found, Within a c

variable [Ranked W]

theorem Confined.enqueue {search : BestSearch W} (h : Confined a search) {c : Candidate W} (hc : Within a c) :
    Confined a (search.enqueue c) := by
  refine ⟨fun entry hentry => ?_, h.found⟩
  rcases List.mem_cons.1 ((Heap.toList_push precedes _ search.queue).mem_iff.1 hentry) with rfl | hentry
  · exact hc
  · exact h.queue entry hentry

theorem Confined.run [Weight W] {search : BestSearch W} (h : Confined a search) {backward : Array W}
    {count bound : Nat} : ∀ c ∈ run a backward count bound search, Within a c := by
  have hfound : ∀ {search : BestSearch W}, Confined a search → ∀ c ∈ search.found.reverse, Within a c :=
    fun h c hc => h.found c (List.mem_reverse.1 hc)
  induction bound generalizing search with
  | zero => exact hfound h
  | succ bound ih =>
    unfold BestSearch.run
    split
    · exact hfound h
    · next c i queue hpop =>
      have hperm := Heap.toList_of_pop? hpop
      have hc : Within a c := h.queue _ (hperm.mem_iff.2 List.mem_cons_self)
      have hrest : ∀ entry ∈ queue.toList, Within a entry.1 := fun entry hentry =>
        h.queue entry (hperm.mem_iff.2 (List.mem_cons_of_mem _ hentry))
      dsimp only
      split
      · have hcomplete : Confined a { search with queue, found := c :: search.found } := by
          refine ⟨hrest, fun d hd => ?_⟩
          rcases List.mem_cons.1 hd with rfl | hd
          · exact hc
          · exact h.found d hd
        split
        · exact hfound hcomplete
        · exact ih hcomplete
      · split
        · exact ih ⟨hrest, h.found⟩
        · have hextended : Confined a
              ((extensions a backward c).foldl BestSearch.enqueue { search with queue }) :=
            List.foldlRecOn (motive := Confined a) _ _ ⟨hrest, h.found⟩ fun search hsearch d hd =>
              hsearch.enqueue (within_extensions hc hd)
          exact ih ⟨hextended.queue, hextended.found⟩

end BestSearch

namespace Automaton

theorem symbols_addChain (a : Automaton W) (s : Nat) (steps : List (Label × Label × W)) :
    (a.addChain s steps).2.symbols = a.symbols := by
  induction steps generalizing a s with
  | nil => rfl
  | cons x steps ih =>
    refine (ih _ _).trans (funext fun side => ?_)
    cases side <;> rfl

/-- The automaton has a first state, which further paths can be hung off, meets the standard, has the tables of
the other one, and knows nothing of itself. -/
structure Hangs (std : Standard W) (a r : Automaton W) : Prop where
  zero_lt : 0 < r.size
  meets : r.Meets std
  symbols_eq : r.symbols = a.symbols
  cache_eq : r.cache = {}

variable [Weight W]

theorem Hangs.addBest (hr : Hangs std a r) (h : a.Meets std) (hstd : std.Closed) {path : Candidate W}
    (hpath : BestSearch.Within a path) : Hangs std a (a.addBest r path) := by
  have hsteps : ∀ x ∈ path.arcs.reverse.map fun arc => (arc.ilabel, arc.olabel, arc.weight),
      std.label .input x.1 ∧ std.label .output x.2.1 ∧ std.weight x.2.2 := by
    intro x hx
    obtain ⟨arc, harc, rfl⟩ := List.mem_map.1 hx
    obtain ⟨s, hs⟩ := hpath arc (List.mem_reverse.1 harc)
    have hmeets := h.arc hs
    exact ⟨hmeets.label .input, hmeets.label .output, hmeets.weight⟩
  obtain ⟨hchain, hle, -⟩ := hr.meets.addChain hr.zero_lt hsteps
  refine ⟨?_, hchain.withFinal ?_, ?_, rfl⟩
  · rw [Automaton.addBest, size_changeState]
    exact hr.zero_lt.trans_le hle
  · cases heq : a.final? path.state with
    | none => exact hstd.final_of_weight hstd.weight_zero
    | some w => exact fun _ => h.final heq
  · rw [← hr.symbols_eq, ← symbols_addChain r 0]
    exact funext fun side => by cases side <;> rfl

theorem within_of_mem_bestFrom [Ranked W] {start : Nat} {backward : Array W} {count : Nat} {path : Candidate W}
    (hpath : path ∈ a.bestFrom start backward count) : BestSearch.Within a path := by
  have hempty : BestSearch.Confined a { extended := Array.replicate a.size 0 } :=
    ⟨fun _ h => absurd h List.not_mem_nil, fun _ h => absurd h List.not_mem_nil⟩
  exact (hempty.enqueue (BestSearch.within_of_arcs_eq_nil rfl)).run path hpath

/-- The automaton of the best paths meets the standard of the automaton that they are paths of, has its tables,
and knows nothing of itself. -/
theorem meets_bestPaths {D : Type} [Ranked W] [Tolerance W D] (h : a.Meets std) (hstd : std.Closed) {count : Nat}
    {bound : D} {steps : Nat} (hr : a.bestPaths count bound steps = some r) :
    r.Meets std ∧ r.symbols = a.symbols ∧ r.cache = {} := by
  let nothing : Automaton W := { inputSymbols := a.inputSymbols, outputSymbols := a.outputSymbols }
  have hsymbols : nothing.symbols = a.symbols := funext fun side => by cases side <;> rfl
  have hnothing : nothing.Meets std ∧ nothing.symbols = a.symbols ∧ nothing.cache = {} :=
    ⟨.of_states_eq_empty rfl rfl, hsymbols, rfl⟩
  have hroot : Hangs std a { nothing with states := #[{}], start := some 0 } := by
    refine ⟨Nat.zero_lt_one, ⟨fun hs => ?_, fun state hstate => ?_⟩, ?_, rfl⟩
    · obtain rfl := Option.some.inj hs
      exact Nat.zero_lt_one
    · obtain rfl := Array.mem_singleton.1 hstate
      exact .default std _
    · exact funext fun side => by cases side <;> rfl
  have hfan : ∀ {start : Nat} {backward : Array W} {count : Nat}, Hangs std a
      ((a.bestFrom start backward count).foldl a.addBest { nothing with states := #[{}], start := some 0 }) :=
    List.foldlRecOn (motive := Hangs std a) _ a.addBest hroot fun result hresult path hpath =>
      hresult.addBest h hstd (within_of_mem_bestFrom hpath)
  unfold bestPaths at hr
  split at hr
  · obtain rfl := Option.some.inj hr
    exact hnothing
  · obtain rfl := Option.some.inj hr
    exact hnothing
  · obtain ⟨backward, -, rfl⟩ := Option.map_eq_some_iff.1 hr
    split
    · exact hnothing
    · exact ⟨hfan.meets, hfan.symbols_eq, hfan.cache_eq⟩

end Automaton

/-! ### Composition -/

namespace Composition

variable [Weight W] {c : Composition W} {place : Place}

/-- The arc is one of the state, or the implicit one, which is free and has no label on the given side. -/
def Taken (a : Automaton W) (s : Nat) (side : Side) (arc : Arc W) : Prop :=
  arc ∈ a.arcsAt s ∨ arc.label side = epsilon ∧ arc.weight = 1

theorem Taken.of_loopArc {m : Matcher W} {side : Side} (hside : m.side = some side) (a : Automaton W) (s : Nat) :
    Taken a s side.other (m.loopArc s) := by
  right
  unfold Matcher.loopArc Matcher.matched
  rw [hside]
  cases side <;> exact ⟨rfl, rfl⟩

theorem Taken.label {arc : Arc W} {side : Side} {s : Nat} (h : Taken a s side arc) (ha : a.Meets std)
    (hepsilon : std.label side epsilon) : std.label side (arc.label side) := by
  rcases h with h | ⟨hlabel, -⟩
  · exact (ha.arc h).label side
  · rw [hlabel]
    exact hepsilon

theorem Taken.weight {arc : Arc W} {side : Side} {s : Nat} (h : Taken a s side arc) (ha : a.Meets std)
    (hone : std.weight 1) : std.weight arc.weight := by
  rcases h with h | ⟨-, hweight⟩
  · exact (ha.arc h).weight
  · rw [hweight]
    exact hone

/-- The operands are looked up without layers, and each that is asked is asked by its inner side. -/
structure Exact (c : Composition W) : Prop where
  left_layers : c.left.layers = []
  right_layers : c.right.layers = []
  left_side : c.plan.operand = .right → c.left.side = some .output
  right_side : c.plan.operand = .left → c.right.side = some .input

theorem exact_of_build {opts : Options} {operands : Automaton W × Automaton W}
    (h : build opts operands = .ok c operands') (hl : opts.left.layers = []) (hr : opts.right.layers = []) :
    c.Exact := by
  obtain ⟨hplan, -, hleft, hright⟩ := parts_of_build h
  obtain ⟨hlside, hllayers⟩ := Matcher.config_of_build hleft
  obtain ⟨hrside, hrlayers⟩ := Matcher.config_of_build hright
  obtain ⟨hls, hrs⟩ := Options.side_of_plan hplan
  exact ⟨hllayers.trans hl, hrlayers.trans hr, fun h => hlside.trans (hls h), fun h => hrside.trans (hrs h)⟩

/-- A step takes an arc of each operand, or an arc of one and the implicit one of the other. -/
theorem Expands.exists_taken {expansion : Expansion W} (h : c.Expands place expansion) (hc : c.Exact)
    {step : Step W} (hstep : step ∈ expansion.steps) :
    ∃ l r : Arc W, step.content = (l.ilabel, r.olabel, l.weight * r.weight) ∧
      Taken c.left.automaton place.left .input l ∧ Taken c.right.automaton place.right .output r := by
  obtain ⟨-, operand, pairs, hlisted, hpairs, hsteps⟩ := h.spec
  obtain ⟨l, r, turn, hmem, -, rfl⟩ := hsteps step hstep
  obtain rfl := Except.ok.inj ((hlisted 0).symm.trans (listed_eq hc.left_layers hc.right_layers 0 place))
  refine ⟨l, r, rfl, ?_⟩
  have hpair := paired_of_mem_pairs hpairs hmem
  cases hoperand : c.plan.operand with
  | left =>
    rw [hoperand] at hpair
    obtain ⟨hl, found, hfound, hr⟩ := hpair
    refine ⟨?_, ?_⟩
    · rcases hl with rfl | hl
      · exact .inr ⟨rfl, rfl⟩
      · exact .inl hl
    · rcases Matcher.mem_of_find hc.right_layers hfound hr with rfl | hr
      · exact .of_loopArc (hc.right_side hoperand) _ _
      · exact .inl hr
  | right =>
    rw [hoperand] at hpair
    obtain ⟨hr, found, hfound, hl⟩ := hpair
    refine ⟨?_, ?_⟩
    · rcases Matcher.mem_of_find hc.left_layers hfound hl with rfl | hl
      · exact .of_loopArc (hc.left_side hoperand) _ _
      · exact .inl hl
    · rcases hr with rfl | hr
      · exact .inr ⟨rfl, rfl⟩
      · exact .inl hr

/-- The composition as a whole has on each side what may stand on the outer side of that operand. -/
theorem Completes.meets {places : Array Place} {left right : Side → Label → Prop} (h : Completes c r places)
    (hc : c.Exact) (ha : c.left.automaton.Meets (std.relabel left)) (hb : c.right.automaton.Meets (std.relabel right))
    (hleft : left .input = std.label .input) (hright : right .output = std.label .output) (hstd : std.Closed) :
    r.Meets std := by
  have hp := h.toPresents
  refine Automaton.meets_iff.2 ⟨h.wellFormed.start_lt, fun {s} arc harc => ?_, fun {s w} hw => ?_⟩
  · obtain ⟨place, hid⟩ := hp.exists_place (Automaton.lt_size_of_mem harc)
    obtain ⟨expansion, hexpands, -, harcs⟩ := hp.expanded hid
    obtain ⟨step, hstep, hn⟩ := exists_of_mem_right harcs (Array.mem_toList_iff.2 harc)
    obtain ⟨l, r, hcontent, hl, hr⟩ := hexpands.exists_taken hc hstep
    obtain ⟨hi, hcontent⟩ := Prod.mk.inj (hn.1.trans hcontent)
    obtain ⟨ho, hweight⟩ := Prod.mk.inj hcontent
    have hlweight : (std.relabel left).weight l.weight := hl.weight ha hstd.weight_one
    have hrweight : (std.relabel right).weight r.weight := hr.weight hb hstd.weight_one
    have hilabel : left .input l.ilabel := hl.label ha (hleft ▸ hstd.label_epsilon .input : left .input epsilon)
    have holabel : right .output r.olabel := hr.label hb (hright ▸ hstd.label_epsilon .output : right .output epsilon)
    refine ⟨hp.target_lt harc, ?_, fun side => ?_⟩
    · rw [hweight]
      exact hstd.weight_mul hlweight hrweight
    · cases side with
      | input =>
        rw [Arc.label, hi, ← hleft]
        exact hilabel
      | output =>
        rw [Arc.label, ho, ← hright]
        exact holabel
  · obtain ⟨place, hid⟩ := hp.exists_place (Automaton.lt_size_of_final? hw)
    obtain ⟨expansion, hexpands, hfinal, -⟩ := hp.expanded hid
    rw [hfinal, hexpands.spec.1] at hw
    have hzero := isZero_finalWeight hw
    unfold finalWeight at hw
    split at hw
    · next u v hu hv =>
      split at hw
      · cases hw
      · obtain rfl := Option.some.inj hw
        exact hstd.final_of_weight (hstd.weight_mul (hstd.weight_of_final (ha.final hu))
          (hstd.weight_of_final (hb.final hv))) hzero
    · cases hw

end Composition

end Transducer
