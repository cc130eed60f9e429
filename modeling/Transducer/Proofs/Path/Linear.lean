import Mathlib
import Transducer.Path.Text
import Transducer.Proofs.Except
import Transducer.Proofs.Path.Accepting
import Transducer.Weight.Tropical

/-!
# Linear automata

To read the labels of an automaton is to walk through it from its start as long as there is just one way to go
(`Walks`). No state is visited twice, so the walk ends. Either it meets an obstacle, or the states that can be reached
from the start are strung on one thread (`Strung`) and all of them have been visited; the thread is then the only
accepting path (`readLabels_outcome`).

The labels that are read need not be those of a text. Whether they are is decided by the labels alone
(`exists_textOfBytes_iff`, `exists_textOfChars_iff`).
-/

namespace Transducer

/-! ### Labels of texts -/

theorem byteOf_eq_ok_iff {label : Label} {byte : UInt8} :
    byteOf label = .ok byte ↔ label < 256 ∧ byte = label.toUInt8 := by
  unfold byteOf
  split
  · next h => simp [h, eq_comm]
  · next h => simp [h]

/-- Labels are read as bytes if they are bytes of a text. -/
theorem exists_textOfBytes_iff {labels : List Label} :
    (∃ text, textOfBytes labels = .ok text) ↔
      (∀ label ∈ labels, label < 256) ∧ (labels.map (·.toUInt8)).toByteArray.IsValidUTF8 := by
  have hbytes : ∀ bytes, labels.mapM byteOf = .ok bytes ↔
      (∀ label ∈ labels, label < 256) ∧ bytes = labels.map (·.toUInt8) := by
    intro bytes
    simp only [mapM_eq_ok_iff, byteOf_eq_ok_iff]
    rw [List.forall₂_and_left, eq_comm, ← List.forall₂_eq_eq_eq, List.forall₂_map_left_iff]
    simp only [eq_comm]
  have hdecode : ∀ bytes : List UInt8, (∃ text, Text.decode? bytes = some text) ↔ bytes.toByteArray.IsValidUTF8 := by
    intro bytes
    unfold Text.decode? String.fromUTF8?
    split
    · next h => simp [h]
    · next h => simp [h]
  constructor
  · rintro ⟨text, h⟩
    obtain ⟨bytes, hmap, h⟩ := bind_eq_ok.1 h
    obtain ⟨hlt, rfl⟩ := (hbytes bytes).1 hmap
    refine ⟨hlt, (hdecode _).1 ?_⟩
    split at h
    · next text heq => exact ⟨text, heq⟩
    · cases h
  · rintro ⟨hlt, hvalid⟩
    obtain ⟨text, htext⟩ := (hdecode _).2 hvalid
    refine ⟨text, bind_eq_ok.2 ⟨_, (hbytes _).2 ⟨hlt, rfl⟩, ?_⟩⟩
    rw [htext]
    rfl

theorem exists_textOfChars_iff {labels : List Label} :
    (∃ text, textOfChars labels = .ok text) ↔ ∀ label ∈ labels, label.isValidChar := by
  constructor
  · rintro ⟨text, h⟩ label hlabel
    obtain ⟨cs, hcs, -⟩ := map_eq_ok.1 h
    obtain ⟨c, -, hc⟩ := exists_of_mem_left (mapM_eq_ok_iff.1 hcs) hlabel
    by_contra hinvalid
    rw [charOf, dif_neg hinvalid] at hc
    cases hc
  · intro h
    cases hcs : labels.mapM charOf with
    | ok cs => exact ⟨String.ofList cs, by rw [textOfChars, hcs]; rfl⟩
    | error e =>
      obtain ⟨_, label, hlabel, hc, -⟩ := mapM_eq_error_iff.1 hcs
      rw [charOf, dif_pos (h label (List.mem_of_getElem? hlabel))] at hc
      cases hc

namespace Automaton

variable {W : Type} {a : Automaton W} {visited trail : List Nat} {s : Nat} {outcome : Except Obstacle (List (Arc W))}

/-! ### Walks -/

/-- A walk from a state on. Beside it stand the states that have been visited before, those that are visited from here
on, and how the walk ends: with the arcs it has followed, or at an obstacle. -/
inductive Walks (a : Automaton W) : List Nat → Nat → List Nat → Except Obstacle (List (Arc W)) → Prop where
  /-- The state has been visited before. -/
  | back {visited : List Nat} {s : Nat} : s ∈ visited → Walks a visited s [] (.error (.cycle s))
  /-- The state is final and has no arcs. -/
  | arrive {visited : List Nat} {s : Nat} : s ∉ visited → a.arcsAt s = #[] → (a.final? s).isSome = true →
      Walks a visited s [s] (.ok [])
  /-- The state is not final and has no arcs. -/
  | strand {visited : List Nat} {s : Nat} : s ∉ visited → a.arcsAt s = #[] → a.final? s = none →
      Walks a visited s [s] (.error (.deadEnd s))
  /-- The state has several arcs, or is final and has some. -/
  | fork {visited : List Nat} {s : Nat} : s ∉ visited → a.arcsAt s ≠ #[] →
      1 < (a.arcsAt s).size ∨ (a.final? s).isSome = true →
      Walks a visited s [s] (.error (.branch s (a.arcsAt s).size (a.final? s).isSome))
  /-- The state is not final and has one arc. -/
  | follow {visited trail : List Nat} {s : Nat} {arc : Arc W} {outcome : Except Obstacle (List (Arc W))} :
      s ∉ visited → a.arcsAt s = #[arc] → a.final? s = none → Walks a (s :: visited) arc.target trail outcome →
      Walks a visited s (s :: trail) (outcome.map (arc :: ·))

/-- What a walk that ends like this reads on one side. -/
def report (side : Side) : Except Obstacle (List (Arc W)) → Except Error (List Label)
  | .ok arcs => .ok (spell side arcs)
  | .error obstacle => .error (.ambiguousPath obstacle)

theorem report_map_cons (side : Side) (arc : Arc W) (outcome : Except Obstacle (List (Arc W))) :
    report side (outcome.map (arc :: ·)) = (report side outcome >>= fun rest =>
      return if arc.label side = epsilon then rest else arc.label side :: rest) := by
  cases outcome with
  | error obstacle => rfl
  | ok arcs =>
    show Except.ok (spell side (arc :: arcs)) = Except.ok _
    by_cases h : arc.label side = epsilon
    · rw [spell_cons_of_eq side h, if_pos h]
    · rw [spell_cons_of_ne side h, if_neg h]

theorem findState_eq_ok (hs : s < a.size) : a.findState s = .ok ⟨a.final? s, a.arcsAt s⟩ := by
  have hget : a.states[s]? = some a.states[s] := Array.getElem?_eq_getElem hs
  rw [findState, final?, arcsAt, hget]
  rfl

theorem walk_succ (side : Side) (bound : Nat) (hs : s < a.size) (hnew : s ∉ visited) :
    a.walk side (bound + 1) visited s = match (a.arcsAt s).toList, (a.final? s).isSome with
      | [], true => .ok []
      | [], false => .error (.ambiguousPath (.deadEnd s))
      | [arc], false => a.walk side bound (s :: visited) arc.target >>= fun rest =>
          return if arc.label side = epsilon then rest else arc.label side :: rest
      | arcs, final => .error (.ambiguousPath (.branch s arcs.length final)) := by
  rw [walk, if_neg (by simpa using hnew), findState_eq_ok hs]
  rfl

/-- A walk within the automaton is not stopped by the bound, since no state is visited twice. -/
theorem exists_walks (htarget : ∀ {s : Nat} {arc : Arc W}, arc ∈ a.arcsAt s → arc.target < a.size) (side : Side)
    (bound : Nat) (hs : s < a.size) (hnodup : visited.Nodup) (hvisited : ∀ t ∈ visited, t < a.size)
    (hbound : a.size < bound + visited.length) :
    ∃ trail outcome, a.Walks visited s trail outcome ∧ a.walk side bound visited s = report side outcome := by
  induction bound generalizing visited s with
  | zero =>
    have hlen := length_le_size hnodup hvisited
    omega
  | succ bound ih =>
    by_cases hmem : s ∈ visited
    · exact ⟨_, _, .back hmem, by rw [walk, if_pos (List.contains_iff_mem.2 hmem)]; rfl⟩
    · rw [walk_succ side bound hs hmem]
      rcases harcs : (a.arcsAt s).toList with _ | ⟨arc, _ | ⟨other, rest⟩⟩
      · have hempty : a.arcsAt s = #[] := Array.toList_eq_nil_iff.1 harcs
        cases hfinal : a.final? s with
        | none => exact ⟨_, _, .strand hmem hempty hfinal, rfl⟩
        | some weight => exact ⟨_, _, .arrive hmem hempty (by rw [hfinal]; rfl), rfl⟩
      · have hsingle : a.arcsAt s = #[arc] := Array.toList_inj.1 harcs
        cases hfinal : a.final? s with
        | some weight =>
          have hne : a.arcsAt s ≠ #[] := by simp [hsingle]
          have hfork := Walks.fork hmem hne (.inr (by rw [hfinal]; rfl))
          rw [hsingle, hfinal] at hfork
          exact ⟨_, _, hfork, rfl⟩
        | none =>
          obtain ⟨trail, outcome, hrest, heq⟩ := ih (htarget (hsingle ▸ Array.mem_singleton.2 rfl))
            (List.nodup_cons.2 ⟨hmem, hnodup⟩) (List.forall_mem_cons.2 ⟨hs, hvisited⟩)
            (by rw [List.length_cons]; omega)
          refine ⟨_, _, .follow hmem hsingle hfinal hrest, ?_⟩
          rw [report_map_cons, ← heq]
          rfl
      · have hsize : (a.arcsAt s).size = rest.length + 2 := by
          rw [← Array.length_toList, harcs]
          rfl
        have hne : a.arcsAt s ≠ #[] := by
          intro hempty
          rw [hempty] at hsize
          cases hsize
        have hfork := Walks.fork hmem hne (.inl (by omega))
        rw [hsize] at hfork
        exact ⟨_, _, hfork, rfl⟩

/-- A walk visits no state twice, and none that has been visited before. -/
theorem Walks.nodup (h : a.Walks visited s trail outcome) : trail.Nodup ∧ ∀ t ∈ trail, t ∉ visited := by
  induction h with
  | back => exact ⟨List.nodup_nil, nofun⟩
  | arrive hnew | strand hnew | fork hnew =>
    exact ⟨List.nodup_singleton _, fun t ht => List.mem_singleton.1 ht ▸ hnew⟩
  | follow hnew _ _ _ ih =>
    refine ⟨List.nodup_cons.2 ⟨fun hmem => ih.2 _ hmem List.mem_cons_self, ih.1⟩, fun t ht => ?_⟩
    rcases List.mem_cons.1 ht with rfl | ht
    · exact hnew
    · exact fun hmem => ih.2 t ht (List.mem_cons_of_mem _ hmem)

theorem Walks.lt_size (htarget : ∀ {s : Nat} {arc : Arc W}, arc ∈ a.arcsAt s → arc.target < a.size)
    (h : a.Walks visited s trail outcome) (hs : s < a.size) : ∀ t ∈ trail, t < a.size := by
  induction h with
  | back => exact nofun
  | arrive | strand | fork => exact fun t ht => List.mem_singleton.1 ht ▸ hs
  | follow _ harcs _ _ ih =>
    exact List.forall_mem_cons.2 ⟨hs, ih (htarget (harcs ▸ Array.mem_singleton.2 rfl))⟩

/-! ### Threads -/

/-- From the state on, the states are strung on a thread: each has one arc, which leads to the next one, and is not
final, but the last one is final and has no arcs. -/
inductive Strung (a : Automaton W) : Nat → List Nat → List (Arc W) → Prop where
  | last {s : Nat} : (a.final? s).isSome = true → a.arcsAt s = #[] → Strung a s [s] []
  | next {s : Nat} {arc : Arc W} {states : List Nat} {arcs : List (Arc W)} : a.final? s = none → a.arcsAt s = #[arc] →
      Strung a arc.target states arcs → Strung a s (s :: states) (arc :: arcs)

variable {states : List Nat} {arcs : List (Arc W)}

/-- A walk that comes to an end has followed a thread. -/
theorem Walks.strung (h : a.Walks visited s trail outcome) (houtcome : outcome = .ok arcs) : a.Strung s trail arcs := by
  induction h generalizing arcs with
  | back | strand | fork => cases houtcome
  | arrive _ harcs hfinal =>
    cases houtcome
    exact .last hfinal harcs
  | follow _ harcs hfinal _ ih =>
    obtain ⟨rest, hrest, rfl⟩ := map_eq_ok.1 houtcome
    exact .next hfinal harcs (ih hrest)

/-- A thread is followed to its end. -/
theorem Strung.outcome_eq (h : a.Strung s states arcs) (hnodup : states.Nodup) (hvisited : ∀ t ∈ states, t ∉ visited)
    (hwalks : a.Walks visited s trail outcome) : outcome = .ok arcs := by
  induction h generalizing visited trail outcome with
  | last hfinal harcs =>
    cases hwalks with
    | back hmem => exact absurd hmem (hvisited _ List.mem_cons_self)
    | arrive => rfl
    | strand _ _ hnone => simp [hnone] at hfinal
    | fork _ hne => exact absurd harcs hne
    | follow _ hsingle => simp [harcs] at hsingle
  | next hnone harcs _ ih =>
    obtain ⟨hnew, hnodup⟩ := List.nodup_cons.1 hnodup
    cases hwalks with
    | back hmem => exact absurd hmem (hvisited _ List.mem_cons_self)
    | arrive _ _ hfinal => simp [hnone] at hfinal
    | strand _ hempty => simp [harcs] at hempty
    | fork _ _ hfork => simp [harcs, hnone] at hfork
    | follow _ hsingle _ hrest =>
      obtain rfl : _ = _ := by simpa [harcs] using hsingle
      rw [ih hnodup (fun t ht hmem => ?_) hrest]
      · rfl
      · rcases List.mem_cons.1 hmem with rfl | hmem
        · exact hnew ht
        · exact hvisited t (List.mem_cons_of_mem _ ht) hmem

/-- The thread is a way to a final state. -/
theorem Strung.exists_way (h : a.Strung s states arcs) :
    ∃ t, a.Way s (List.replicate arcs.length 0) arcs t ∧ (a.final? t).isSome = true := by
  induction h with
  | last hfinal => exact ⟨_, .nil _, hfinal⟩
  | next _ harcs _ ih =>
    obtain ⟨t, hway, hfinal⟩ := ih
    exact ⟨t, .cons (by rw [harcs]; rfl) hway, hfinal⟩

theorem eq_of_getElem?_arcsAt {arc other : Arc W} {i : Nat} (harcs : a.arcsAt s = #[arc])
    (hi : (a.arcsAt s)[i]? = some other) : i = 0 ∧ other = arc := by
  obtain ⟨hlt, rfl⟩ := Array.getElem?_eq_some_iff.1 hi
  simp only [harcs, List.size_toArray, List.length_singleton, Nat.lt_one_iff] at hlt
  subst hlt
  simp [harcs]

/-- No other way leads to a final state. -/
theorem Strung.places_eq (h : a.Strung s states arcs) {places : List Nat} {others : List (Arc W)} {t : Nat}
    (hway : a.Way s places others t) (ht : (a.final? t).isSome = true) :
    places = List.replicate arcs.length 0 := by
  induction h generalizing places others with
  | last _ harcs =>
    cases hway with
    | nil => rfl
    | cons hi => simp [harcs] at hi
  | next hnone harcs _ ih =>
    cases hway with
    | nil => simp [hnone] at ht
    | cons hi hway =>
      obtain ⟨rfl, rfl⟩ := eq_of_getElem?_arcsAt harcs hi
      rw [ih hway, List.length_cons, List.replicate_succ]

/-- What can be reached is on the thread. -/
theorem Strung.mem_iff (h : a.Strung s states arcs) {t : Nat} :
    (∃ places others, a.Way s places others t) ↔ t ∈ states := by
  induction h with
  | last _ harcs =>
    rw [List.mem_singleton]
    constructor
    · rintro ⟨_, _, _ | hi⟩
      · rfl
      · simp [harcs] at hi
    · rintro rfl
      exact ⟨_, _, .nil _⟩
  | next _ harcs _ ih =>
    rw [List.mem_cons, ← ih]
    constructor
    · rintro ⟨_, _, _ | ⟨hi, hway⟩⟩
      · exact .inl rfl
      · obtain ⟨rfl, rfl⟩ := eq_of_getElem?_arcsAt harcs hi
        exact .inr ⟨_, _, hway⟩
    · rintro (rfl | ⟨_, _, hway⟩)
      · exact ⟨_, _, .nil _⟩
      · exact ⟨_, _, .cons (i := 0) (by rw [harcs]; rfl) hway⟩

/-- A thread from the start is the only accepting path. -/
theorem Strung.exists_unique_path (h : a.Strung s states arcs) (hstart : a.start = some s) :
    ∃ p : AcceptingPath a, (∀ q, q = p) ∧ p.arcs = arcs := by
  obtain ⟨t, hway, hfinal⟩ := h.exists_way
  obtain ⟨final, hfinal⟩ := Option.isSome_iff_exists.1 hfinal
  refine ⟨⟨s, _, arcs, t, final, hstart, hway, hfinal⟩, fun q => AcceptingPath.ext_places ?_, rfl⟩
  have hq := q.way
  rw [q.first_eq hstart] at hq
  exact h.places_eq hq (by rw [q.final_eq]; rfl)

/-! ### Reading -/

/-- The labels are read as a walk through the automaton finds them. -/
theorem exists_walks_readLabels (h : a.Confined) (hstart : a.start = some s) (side : Side) :
    ∃ trail outcome, a.Walks [] s trail outcome ∧ trail.length ≤ a.size ∧
      a.readLabels side = report side outcome := by
  obtain ⟨trail, outcome, hwalks, heq⟩ := exists_walks h.target_lt side (a.size + 1) (h.start_lt hstart)
    List.nodup_nil nofun (Nat.lt_succ_self _)
  refine ⟨trail, outcome, hwalks, ?_, by rw [readLabels, hstart]; exact heq⟩
  exact length_le_size hwalks.nodup.1 (hwalks.lt_size h.target_lt (h.start_lt hstart))

/-- Labels are read if and only if the states that can be reached are strung on a thread. -/
theorem readLabels_eq_ok_iff (h : a.Confined) {side : Side} {labels : List Label} :
    a.readLabels side = .ok labels ↔ ∃ start states arcs, a.start = some start ∧ a.Strung start states arcs ∧
      states.Nodup ∧ spell side arcs = labels := by
  constructor
  · intro hread
    cases hstart : a.start with
    | none =>
      rw [readLabels, hstart] at hread
      cases hread
    | some start =>
      obtain ⟨trail, outcome, hwalks, -, heq⟩ := exists_walks_readLabels h hstart side
      cases outcome with
      | error obstacle => cases heq.symm.trans hread
      | ok arcs =>
        exact ⟨start, trail, arcs, rfl, hwalks.strung rfl, hwalks.nodup.1, Except.ok.inj (heq.symm.trans hread)⟩
  · rintro ⟨start, states, arcs, hstart, hstrung, hnodup, rfl⟩
    obtain ⟨trail, outcome, hwalks, -, heq⟩ := exists_walks_readLabels h hstart side
    rw [heq, hstrung.outcome_eq hnodup (fun _ _ => List.not_mem_nil) hwalks]
    rfl

/-- The walk that reads the labels of one side visits each state at most once, and then it ends. It finds labels if
and only if the states that can be reached from the start are strung on a thread. The thread is then the only
accepting path, the labels are those on it, and they decide whether they are the bytes or the characters of a text.
Otherwise there is more or less than one way to go somewhere, and the automaton is refused for that. -/
theorem readLabels_outcome (h : a.Confined) (side : Side) :
    (∀ start, a.start = some start → ∃ trail outcome, a.Walks [] start trail outcome ∧ trail.Nodup ∧
      trail.length ≤ a.size ∧ a.readLabels side = report side outcome) ∧
    ((∃ labels, a.readLabels side = .ok labels) ↔ ∃ start states arcs, a.start = some start ∧
      a.Strung start states arcs ∧ states.Nodup ∧
      ∀ s, (∃ places others, a.Way start places others s) ↔ s ∈ states) ∧
    (∀ labels, a.readLabels side = .ok labels →
      (∃ p : AcceptingPath a, (∀ q, q = p) ∧ p.labels side = labels) ∧
      ((∃ text, a.readText side = .ok text) ↔
        (∀ label ∈ labels, label < 256) ∧ (labels.map (·.toUInt8)).toByteArray.IsValidUTF8) ∧
      ((∃ text, a.readChars side = .ok text) ↔ ∀ label ∈ labels, label.isValidChar)) ∧
    ((∀ labels, a.readLabels side ≠ .ok labels) →
      ∃ obstacle, a.readLabels side = .error (.ambiguousPath obstacle)) := by
  refine ⟨fun start hstart => ?_, ?_, fun labels hread => ⟨?_, ?_, ?_⟩, fun hread => ?_⟩
  · obtain ⟨trail, outcome, hwalks, hlength, heq⟩ := exists_walks_readLabels h hstart side
    exact ⟨trail, outcome, hwalks, hwalks.nodup.1, hlength, heq⟩
  · simp only [readLabels_eq_ok_iff h]
    constructor
    · rintro ⟨-, start, states, arcs, hstart, hstrung, hnodup, -⟩
      exact ⟨start, states, arcs, hstart, hstrung, hnodup, fun s => hstrung.mem_iff⟩
    · rintro ⟨start, states, arcs, hstart, hstrung, hnodup, -⟩
      exact ⟨_, start, states, arcs, hstart, hstrung, hnodup, rfl⟩
  · obtain ⟨start, states, arcs, hstart, hstrung, -, rfl⟩ := (readLabels_eq_ok_iff h).1 hread
    obtain ⟨p, hunique, rfl⟩ := hstrung.exists_unique_path hstart
    exact ⟨p, hunique, rfl⟩
  · rw [readText, hread]
    exact exists_textOfBytes_iff
  · rw [readChars, hread]
    exact exists_textOfChars_iff
  · cases hstart : a.start with
    | none => exact ⟨.noStart, by rw [readLabels, hstart]⟩
    | some start =>
      obtain ⟨trail, outcome, -, -, heq⟩ := exists_walks_readLabels h hstart side
      cases outcome with
      | ok arcs => exact absurd heq (hread _)
      | error obstacle => exact ⟨obstacle, heq⟩

/-- An automaton with a thread that jumps to and fro, and a state beside it that nothing leads to. -/
def byway : Automaton Tropical where
  states := #[{ arcs := #[⟨0xC3, 0xD800, 1, 3⟩] }, { final := some 1, arcs := #[⟨7, 7, 1, 1⟩, ⟨7, 7, 1, 4⟩] },
    { arcs := #[⟨104, 104, ⟨⟨0x40000000⟩⟩, 0⟩] }, { arcs := #[⟨0xA9, epsilon, 1, 4⟩] }, { final := some 1 }]
  start := some 2

/-- What is written is a letter and a surrogate, which is no character. -/
theorem readLabels_outcome_byway :
    (∃ start states arcs, byway.start = some start ∧ byway.Strung start states arcs ∧ states.Nodup ∧
      ∀ s, (∃ places others, byway.Way start places others s) ↔ s ∈ states) ∧
    (∃ p : AcceptingPath byway, (∀ q, q = p) ∧ p.labels .output = [104, 0xD800]) ∧
    ¬ ∃ text, byway.readChars .output = .ok text := by
  have hread : byway.readLabels .output = .ok [104, 0xD800] := by rfl
  obtain ⟨-, hlinear, hfound, -⟩ := readLabels_outcome (a := byway) (by decide) .output
  obtain ⟨hpath, -, hchars⟩ := hfound _ hread
  exact ⟨hlinear.1 ⟨_, hread⟩, hpath, fun htext => absurd (hchars.1 htext 0xD800 (by simp)) (by decide +kernel)⟩

end Automaton

end Transducer
