import Mathlib
import Transducer.Path.Text
import Transducer.Proofs.Except
import Transducer.Proofs.Path.FanPaths
import Transducer.Proofs.Text.Bytes
import Transducer.Proofs.Weight.Costed

/-!
# Texts read back

A path that is added to an automaton without states makes it a chain, and the walk along a chain finds the labels of
one side in order, without epsilon. The side that was filled up is read as if it had not been.

Read as bytes or as characters, these labels are the text that was added. Only the character zero is lost: its label
is epsilon, and no other character has a byte zero (`read_added`).
-/

namespace Transducer

/-- The one of two things that belongs to a side. -/
def Side.pick {α : Type} (input output : α) : Side → α
  | .input => input
  | .output => output

namespace Automaton

/-! ### Labels side by side -/

/-- What fills up the shorter side does not count. -/
theorem filter_zipLabels (ilabels olabels : List Label) :
    ((zipLabels ilabels olabels).map (·.1)).filter (· != epsilon) = ilabels.filter (· != epsilon) ∧
      ((zipLabels ilabels olabels).map (·.2)).filter (· != epsilon) = olabels.filter (· != epsilon) := by
  induction ilabels generalizing olabels with
  | nil => simp [zipLabels, Function.comp_def]
  | cons i ilabels ih =>
    cases olabels with
    | nil => simp [zipLabels, Function.comp_def]
    | cons o olabels =>
      obtain ⟨hinput, houtput⟩ := ih olabels
      constructor
      · show (i :: (zipLabels ilabels olabels).map (·.1)).filter _ = _
        rw [List.filter_cons, List.filter_cons, hinput]
      · show (o :: (zipLabels ilabels olabels).map (·.2)).filter _ = _
        rw [List.filter_cons, List.filter_cons, houtput]

/-! ### Along a chain -/

variable {W : Type} {a : Automaton W} {arcs : List (Arc W)}

/-- At each state of a chain there is just one way to go. -/
theorem walk_chain {final : W} {t bound : Nat} {visited : List Nat} (h : a.StatesAt t (chain final t arcs))
    (hbound : arcs.length < bound) (hvisited : ∀ s ∈ visited, s < t) (side : Side) :
    a.walk side bound visited t = .ok (spell side arcs) := by
  have hfresh : ∀ {t : Nat} {visited : List Nat}, (∀ s ∈ visited, s < t) → ¬ visited.contains t = true :=
    fun hvisited ht => Nat.lt_irrefl _ (hvisited _ (List.contains_iff_mem.1 ht))
  induction arcs generalizing t bound visited with
  | nil =>
    obtain ⟨bound, rfl⟩ := Nat.exists_eq_add_of_lt hbound
    rw [walk, if_neg (hfresh hvisited), findState, h.head]
    rfl
  | cons arc arcs ih =>
    obtain ⟨bound, rfl⟩ := Nat.exists_eq_add_of_lt hbound
    -- a chain is numbered upwards, so the next state has not been visited
    have hrest : a.walk side ((arc :: arcs).length + bound) (t :: visited) (t + 1) = .ok (spell side arcs) := by
      refine ih h.tail (by simp; omega) fun s hs => ?_
      rcases List.mem_cons.1 hs with rfl | hs
      · exact Nat.lt_succ_self s
      · exact Nat.lt_succ_of_lt (hvisited s hs)
    have hlabel : ({ arc with target := t + 1 } : Arc W).label side = arc.label side := by cases side <;> rfl
    rw [walk, if_neg (hfresh hvisited), findState, h.head]
    show (a.walk side ((arc :: arcs).length + bound) (t :: visited) (t + 1) >>= fun rest => pure _) = _
    rw [hrest, hlabel]
    by_cases hepsilon : arc.label side = epsilon
    · rw [spell_cons_of_eq side hepsilon]
      exact congrArg Except.ok (if_pos hepsilon)
    · rw [spell_cons_of_ne side hepsilon]
      exact congrArg Except.ok (if_neg hepsilon)

/-- An automaton that is a chain can be read. -/
theorem readLabels_of_chain {final : W} (hstart : a.start = some 0) (hstates : a.states = (chain final 0 arcs).toArray)
    (side : Side) : a.readLabels side = .ok (spell side arcs) := by
  have hsize : a.size = arcs.length + 1 := by rw [size, hstates, List.size_toArray, length_chain]
  have hchain : a.StatesAt 0 (chain final 0 arcs) := by
    intro i _
    rw [hstates, Nat.zero_add]
    exact List.getElem?_toArray
  rw [readLabels, hstart]
  have hvisited : ∀ s ∈ ([] : List Nat), s < 0 := by simp
  exact walk_chain hchain (by omega) hvisited side

variable [Weight W]

/-- The arcs of a path that carries these labels. -/
def strand (ilabels olabels : List Label) : List (Arc W) :=
  (zipLabels ilabels olabels).map fun (i, o) => ⟨i, o, 1, 0⟩

theorem spell_strand (ilabels olabels : List Label) (side : Side) :
    spell side (strand ilabels olabels : List (Arc W)) =
      (side.pick ilabels olabels).filter (· != epsilon) := by
  rw [spell, strand, List.map_map]
  cases side with
  | input => exact (filter_zipLabels ilabels olabels).1
  | output => exact (filter_zipLabels ilabels olabels).2

omit [Weight W] in
theorem ensureStart_of_empty (hstates : a.states = #[]) (hstart : a.start = none) :
    a.ensureStart = (0, { a with states := #[{}], start := some 0, cache := {} }) := by
  rw [ensureStart, hstart, pushState, size, hstates]
  rfl

/-- The first path that is added to an automaton without states makes it a chain. -/
theorem addPath_of_empty (hstates : a.states = #[]) (hstart : a.start = none) (ilabels olabels : List Label)
    {weight : W} (hweight : isZero weight = false) :
    (a.addPath ilabels olabels weight).2 =
      { a with
        states := (chain weight 0 (strand ilabels olabels)).toArray
        start := some 0
        cache := {} } := by
  have hcontent : (strand ilabels olabels : List (Arc W)).map Arc.content =
      (zipLabels ilabels olabels).map fun (i, o) => (i, o, 1) := by
    rw [strand, List.map_map]
    rfl
  have hstates' : ({ a with states := #[{}], start := some 0, cache := {} } : Automaton W).states =
      ([] ++ [({} : State W)]).toArray := rfl
  have hchain := addChain_withFinal hweight (strand ilabels olabels) hstates'
  rw [hcontent] at hchain
  rw [addPath, ensureStart_of_empty hstates hstart]
  cases hzip : zipLabels ilabels olabels with
  | nil => rwa [hzip] at hchain
  | cons labels rest => rwa [hzip] at hchain

/-- The labels of such a path are read back. -/
theorem readLabels_addPath (hstates : a.states = #[]) (hstart : a.start = none) (ilabels olabels : List Label)
    {weight : W} (hweight : isZero weight = false) (side : Side) :
    (a.addPath ilabels olabels weight).2.readLabels side =
      .ok ((side.pick ilabels olabels).filter (· != epsilon)) := by
  rw [addPath_of_empty hstates hstart ilabels olabels hweight, ← spell_strand (W := W)]
  exact readLabels_of_chain rfl rfl side

end Automaton

/-! ### Texts -/

/-- The text without the character zero. -/
def withoutNul (text : String) : String := String.ofList (text.toList.filter (· ≠ '\x00'))

/-- What does not stand for epsilon has another label. -/
theorem filter_map_label {α : Type} [DecidableEq α] {label : α → Label} {nothing : α}
    (h : ∀ x, label x = epsilon ↔ x = nothing) (l : List α) :
    (l.map label).filter (· != epsilon) = (l.filter (· ≠ nothing)).map label := by
  rw [List.filter_map]
  refine congrArg _ (List.filter_congr fun x _ => ?_)
  rw [Bool.eq_iff_iff, Function.comp_apply, bne_iff_ne, decide_eq_true_iff]
  exact not_congr (h x)

theorem byteOf_toUInt32 (byte : UInt8) : byteOf byte.toUInt32 = .ok byte := by
  have hlt : byte.toUInt32 < 256 := by
    rw [UInt32.lt_iff_toNat_lt, UInt8.toNat_toUInt32]
    exact byte.toNat_lt
  rw [byteOf, if_pos hlt, UInt8.toUInt8_toUInt32]

theorem charOf_val (c : Char) : charOf c.val = .ok c := dif_pos c.valid

theorem textOfBytes_byteLabels (text : String) :
    textOfBytes ((byteLabels text).filter (· != epsilon)) = .ok (withoutNul text) := by
  have hzero : ∀ byte : UInt8, byte.toUInt32 = epsilon ↔ byte = 0 := fun _ => UInt8.toUInt32_inj (b := 0)
  have hbytes : (Text.encode text).filter (· ≠ 0) = Text.encode (withoutNul text) :=
    Text.filter_encode (c := '\x00') (by decide) text
  rw [textOfBytes, byteLabels, filter_map_label hzero, hbytes]
  refine bind_eq_ok.2 ⟨_, mapM_map_eq_ok byteOf_toUInt32 _, ?_⟩
  rw [Text.decode?_encode]
  rfl

theorem textOfChars_charLabels (text : String) :
    textOfChars ((charLabels text).filter (· != epsilon)) = .ok (withoutNul text) := by
  have hzero : ∀ c : Char, c.val = epsilon ↔ c = '\x00' := fun _ => Char.val_inj (d := '\x00')
  rw [textOfChars, charLabels, filter_map_label hzero, mapM_map_eq_ok charOf_val]
  rfl

namespace Automaton

variable {W : Type} {a : Automaton W} [Weight W] [ProperOne W]

/-- A text that is added to an automaton without states is read back, but for the character zero. So are the two texts
of a pair, each on its own side. -/
theorem read_added (hstates : a.states = #[]) (hstart : a.start = none) (text other : String) {weight : W}
    (hweight : isZero weight = false) :
    (∀ side, (a.addText text).2.readText side = .ok (withoutNul text)) ∧
      (a.addChars text).2.readChars .input = .ok (withoutNul text) ∧
      (a.addTextPair text other weight).2.readText .input = .ok (withoutNul text) ∧
      (a.addTextPair text other weight).2.readText .output = .ok (withoutNul other) := by
  have hone : isZero (1 : W) = false := ProperOne.isZero_one
  refine ⟨fun side => ?_, ?_, ?_, ?_⟩
  · rw [readText, addText, readLabels_addPath hstates hstart _ _ hone]
    cases side <;> exact textOfBytes_byteLabels text
  · rw [readChars, addChars, readLabels_addPath hstates hstart _ _ hone]
    exact textOfChars_charLabels text
  · rw [readText, addTextPair, readLabels_addPath hstates hstart _ _ hweight]
    exact textOfBytes_byteLabels text
  · rw [readText, addTextPair, readLabels_addPath hstates hstart _ _ hweight]
    exact textOfBytes_byteLabels other

/-- The character after the zero takes two bytes, so the pair has sides of different lengths. -/
theorem read_added_accent :
    (∀ side, ((empty : Automaton Tropical).addText "h\x00é").2.readText side = .ok "hé") ∧
      ((empty : Automaton Tropical).addChars "h\x00é").2.readChars .input = .ok "hé" ∧
      ((empty : Automaton Tropical).addTextPair "h\x00é" "e" 1).2.readText .input = .ok "hé" ∧
      ((empty : Automaton Tropical).addTextPair "h\x00é" "e" 1).2.readText .output = .ok "e" := by
  have hinput : withoutNul "h\x00é" = "hé" := by decide +kernel
  have houtput : withoutNul "e" = "e" := by decide +kernel
  have hread := read_added (a := (empty : Automaton Tropical)) rfl rfl "h\x00é" "e"
    (show isZero (1 : Tropical) = false by decide)
  rwa [hinput, houtput] at hread

end Automaton

end Transducer
