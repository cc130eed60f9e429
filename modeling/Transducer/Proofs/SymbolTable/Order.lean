import Mathlib
import Transducer.Proofs.SymbolTable.History

/-!
# Lines in any order

The order of the lines has no part in the table that is read, nor have blank lines and lines that are there more than
once (`ofText_eq_of_lined`). All that counts is which bindings the lines hold. A table that is read holds just these
(`Compact.of_read`), it can be read whenever they are one-to-one (`Compact.exists_read`), and they determine the rest of
it: the version is their number, and the available key is the lowest one that covers them (`Compact.ext`).
-/

namespace Transducer.SymbolTable

open Text

variable {table table' : SymbolTable} {symbol : String} {key : Label} {entry : Label × String}

/-! ### Tables that only their bindings determine -/

/-- The table has as many versions as bindings, and no lower available key would cover them. -/
structure Compact (table : SymbolTable) : Prop extends Sound table where
  version_eq : table.version = table.entries.length
  availableKey_eq : table.availableKey = 0 ∨ ∃ entry ∈ table.entries, table.availableKey = nextKey entry.1

theorem compact_empty (name : String) : (empty name).Compact := ⟨sound_empty name, rfl, .inl rfl⟩

theorem Compact.availableKey_le (h : table.Compact) (h' : table'.Sound)
    (hentries : ∀ entry ∈ table.entries, entry ∈ table'.entries) : table.availableKey ≤ table'.availableKey := by
  obtain hzero | ⟨entry, hentry, heq⟩ := h.availableKey_eq
  · rw [hzero]
    simp [UInt32.le_iff_toNat_le]
  · rw [heq]
    exact (h'.covers entry (hentries entry hentry)).nextKey_le

/-- Such tables are the same if they have the same name and the same bindings. -/
theorem Compact.ext (h : table.Compact) (h' : table'.Compact) (hname : table.name = table'.name)
    (hentries : ∀ entry, entry ∈ table.entries ↔ entry ∈ table'.entries) : table = table' := by
  have hsame : table.entries = table'.entries := by
    have : Std.Irrefl fun entry other : Label × String => entry.1 < other.1 := ⟨fun _ => UInt32.lt_irrefl _⟩
    have : Std.Antisymm fun entry other : Label × String => entry.1 < other.1 :=
      ⟨fun _ _ hlt hgt => absurd hgt (UInt32.lt_asymm hlt)⟩
    exact (List.pairwise_map.1 h.ascending).eq_of_mem_iff (List.pairwise_map.1 h'.ascending) hentries
  have havailable : table.availableKey = table'.availableKey :=
    UInt32.le_antisymm (h.availableKey_le h'.toSound fun entry => (hentries entry).1)
      (h'.availableKey_le h.toSound fun entry => (hentries entry).2)
  have hversion : table.version = table'.version := by rw [h.version_eq, h'.version_eq, hsame]
  cases table
  cases table'
  simp_all

/-- In a sound table, symbols and keys belong to each other. -/
theorem Sound.fst_eq_iff (h : table.Sound) {other : Label × String} (hentry : entry ∈ table.entries)
    (hother : other ∈ table.entries) : entry.1 = other.1 ↔ entry.2 = other.2 := by
  have hkeys : (table.entries.map (·.1)).Nodup := h.ascending.imp UInt32.ne_of_lt
  constructor
  · intro heq
    rw [List.inj_on_of_nodup_map hkeys hentry hother heq]
  · intro heq
    rw [List.inj_on_of_nodup_map h.nodup hentry hother heq]

/-- A symbol and a key can be bound to each other if neither of them is bound to something else. -/
theorem Sound.exists_addWithKey (h : table.Sound)
    (hfits : ∀ entry ∈ table.entries, entry.1 = key ↔ entry.2 = symbol) :
    ∃ result, table.addWithKey symbol key = .ok result := by
  by_cases hmem : (key, symbol) ∈ table.entries
  · exact ⟨_, addWithKey_of_bound (h.key?_eq_some_iff.2 hmem)⟩
  · have hfree : ∀ entry ∈ table.entries, entry.1 ≠ key ∧ entry.2 ≠ symbol := by
      rintro ⟨other, text⟩ hentry
      have hiff := hfits _ hentry
      constructor
      · rintro rfl
        exact hmem (hiff.1 rfl ▸ hentry)
      · rintro rfl
        exact hmem (hiff.2 rfl ▸ hentry)
    refine ⟨_, addWithKey_eq (fun hsymbol => ?_) fun hkey => ?_⟩
    · obtain ⟨entry, hentry, heq⟩ := List.mem_map.1 hsymbol
      exact (hfree entry hentry).2 heq
    · obtain ⟨entry, hentry, heq⟩ := List.mem_map.1 hkey
      exact (hfree entry hentry).1 heq

/-- The table has one binding more, unless it had it before. -/
theorem Sound.mem_entries_of_addWithKey (h : table.Sound) {result : Label × SymbolTable}
    (hadd : table.addWithKey symbol key = .ok result) :
    entry ∈ result.2.entries ↔ entry ∈ table.entries ∨ entry = (key, symbol) := by
  obtain ⟨hbound, rfl⟩ | ⟨-, -, rfl⟩ := addWithKey_cases hadd
  · exact ⟨.inl, fun hentry => hentry.elim id fun heq => heq ▸ h.key?_eq_some_iff.1 hbound⟩
  · rw [(entries_bind_perm table symbol key).mem_iff, List.mem_cons, or_comm]

theorem Compact.addWithKey (h : table.Compact) {result : Label × SymbolTable}
    (hadd : table.addWithKey symbol key = .ok result) : result.2.Compact ∧ result.2.name = table.name := by
  have hsound := h.toSound.addWithKey hadd
  obtain ⟨-, rfl⟩ | ⟨-, -, rfl⟩ := addWithKey_cases hadd
  · exact ⟨h, rfl⟩
  · have hperm := entries_bind_perm table symbol key
    refine ⟨⟨hsound, ?_, ?_⟩, rfl⟩
    · rw [version_bind, hperm.length_eq, List.length_cons, h.version_eq]
    · show ite _ _ _ = _ ∨ ∃ entry ∈ _, ite _ _ _ = _
      split
      · refine h.availableKey_eq.imp_right ?_
        rintro ⟨entry, hentry, heq⟩
        exact ⟨entry, hperm.mem_iff.2 (List.mem_cons_of_mem _ hentry), heq⟩
      · exact .inr ⟨_, hperm.mem_iff.2 List.mem_cons_self, rfl⟩

/-! ### What lines hold -/

/-- A line of blanks only. -/
def Blank (line : String) : Prop := ∀ c ∈ line.toList, isBlank c = true

/-- The line holds the binding and nothing else. -/
def Holds (line : String) (entry : Label × String) : Prop :=
  ∃ field, fields line.toList = [entry.2.toList, field] ∧ parseKey? field = some entry.1

theorem Holds.unique {line : String} {other : Label × String} (h : Holds line entry) (h' : Holds line other) :
    entry = other := by
  obtain ⟨field, hfields, hkey⟩ := h
  obtain ⟨field', hfields', hkey'⟩ := h'
  obtain ⟨hsymbol, hfield⟩ : entry.2.toList = other.2.toList ∧ field = field' := by
    simpa using hfields.symm.trans hfields'
  subst hfield
  exact Prod.ext (Option.some.inj (hkey.symm.trans hkey')) (String.toList_inj.1 hsymbol)

theorem Blank.not_holds {line : String} (h : Blank line) : ¬Holds line entry := by
  rintro ⟨field, hfields, -⟩
  cases (fields_eq_nil_iff.2 h).symm.trans hfields

/-- A line is read if it is blank, or if it holds a binding that can be added. -/
theorem addLine_eq_ok_iff {number : Nat} {line : String} :
    table.addLine number line = .ok table' ↔ (Blank line ∧ table' = table) ∨
      ∃ entry result, Holds line entry ∧ table.addWithKey entry.2 entry.1 = .ok result ∧ table' = result.2 := by
  have hfields : fields (dropEnd (fun c => c == '\r' || c == '\n') line.toList) = fields line.toList := by
    refine fields_dropEnd (fun c hc => ?_) _
    rcases Bool.or_eq_true_iff.1 hc with hc | hc <;> (obtain rfl := eq_of_beq hc; rfl)
  unfold addLine Blank Holds
  dsimp only
  rw [hfields, ← fields_eq_nil_iff]
  split
  · next hnil =>
    constructor
    · intro h
      exact .inl ⟨hnil, (Except.ok.inj h).symm⟩
    · rintro (⟨-, rfl⟩ | ⟨entry, result, ⟨field, heq, -⟩, -⟩)
      · rfl
      · cases hnil.symm.trans heq
  · next symbol field htwo =>
    constructor
    · intro h
      split at h
      · next key hkey =>
        obtain ⟨result, hadd, rfl⟩ := map_eq_ok.1 h
        exact .inr ⟨(key, String.ofList symbol), result, ⟨field, by simpa using htwo, hkey⟩, hadd, rfl⟩
      · cases h
    · rintro (⟨hnil, -⟩ | ⟨entry, result, ⟨field', heq, hkey⟩, hadd, rfl⟩)
      · cases hnil.symm.trans htwo
      · obtain ⟨rfl, rfl⟩ : symbol = entry.2.toList ∧ field = field' := by simpa using htwo.symm.trans heq
        rw [hkey, String.ofList_toList]
        exact map_eq_ok.2 ⟨result, hadd, rfl⟩
  · next hne htwo =>
    constructor
    · exact nofun
    · rintro (⟨hnil, -⟩ | ⟨entry, result, ⟨field, heq, -⟩, -⟩)
      · exact absurd hnil hne
      · exact absurd heq (htwo _ _)

/-! ### Reading lines -/

section

variable {lines : List (String × Nat)}

/-- The table that is read from some lines holds what they hold, beside what was there before. -/
theorem Compact.of_read (h : table.Compact)
    (hread : lines.foldlM (fun table line => table.addLine line.2 line.1) table = .ok table') :
    table'.Compact ∧ table'.name = table.name ∧ (∀ line ∈ lines, Blank line.1 ∨ ∃ entry, Holds line.1 entry) ∧
      ∀ entry, entry ∈ table'.entries ↔ entry ∈ table.entries ∨ ∃ line ∈ lines, Holds line.1 entry := by
  induction lines generalizing table with
  | nil =>
    obtain rfl := Except.ok.inj hread
    exact ⟨h, rfl, nofun, fun entry => by simp⟩
  | cons line lines ih =>
    rw [List.foldlM_cons] at hread
    obtain ⟨next, hline, hrest⟩ := bind_eq_ok.1 hread
    rcases addLine_eq_ok_iff.1 hline with ⟨hblank, rfl⟩ | ⟨entry, result, hholds, hadd, rfl⟩
    · obtain ⟨hcompact, hname, hlines, hentries⟩ := ih h hrest
      refine ⟨hcompact, hname, List.forall_mem_cons.2 ⟨.inl hblank, hlines⟩, fun entry => ?_⟩
      simp only [hentries, List.mem_cons, exists_eq_or_imp, hblank.not_holds, false_or]
    · obtain ⟨hnext, hsame⟩ := h.addWithKey hadd
      obtain ⟨hcompact, hname, hlines, hentries⟩ := ih hnext hrest
      refine ⟨hcompact, hname.trans hsame, List.forall_mem_cons.2 ⟨.inr ⟨entry, hholds⟩, hlines⟩, fun other => ?_⟩
      have hother : other = (entry.1, entry.2) ↔ Holds line.1 other :=
        ⟨fun heq => heq ▸ hholds, fun hother => hother.unique hholds⟩
      rw [hentries, h.toSound.mem_entries_of_addWithKey hadd, hother, or_assoc]
      simp only [List.mem_cons, exists_eq_or_imp]

/-- Lines that are blank or hold a binding of some sound table are read, if what was there before is bound in that
table as well. -/
theorem Compact.exists_read (h : table.Compact) {whole : SymbolTable} (hwhole : whole.Sound)
    (htable : ∀ entry ∈ table.entries, entry ∈ whole.entries)
    (hlines : ∀ line ∈ lines, Blank line.1 ∨ ∃ entry ∈ whole.entries, Holds line.1 entry) :
    ∃ table', lines.foldlM (fun table line => table.addLine line.2 line.1) table = .ok table' := by
  induction lines generalizing table with
  | nil => exact ⟨table, rfl⟩
  | cons line lines ih =>
    rw [List.forall_mem_cons] at hlines
    simp only [List.foldlM_cons, bind_eq_ok]
    rcases hlines.1 with hblank | ⟨entry, hentry, hholds⟩
    · obtain ⟨table', hread⟩ := ih h htable hlines.2
      exact ⟨table', table, addLine_eq_ok_iff.2 (.inl ⟨hblank, rfl⟩), hread⟩
    · obtain ⟨result, hadd⟩ := h.toSound.exists_addWithKey fun other hother =>
        hwhole.fst_eq_iff (htable other hother) hentry
      have hnext : ∀ other ∈ result.2.entries, other ∈ whole.entries := by
        intro other hother
        rcases (h.toSound.mem_entries_of_addWithKey hadd).1 hother with hother | rfl
        · exact htable other hother
        · exact hentry
      obtain ⟨table', hread⟩ := ih (h.addWithKey hadd).1 hnext hlines.2
      exact ⟨table', result.2, addLine_eq_ok_iff.2 (.inr ⟨entry, result, hholds, hadd, rfl⟩), hread⟩

end

variable {name : String} {lines others : List String}

theorem mem_zipIdx_fst {line : String} (lines : List String) : (∃ i, (line, i) ∈ lines.zipIdx 1) ↔ line ∈ lines := by
  conv_rhs => rw [← List.zipIdx_map_fst 1 lines, List.mem_map]
  exact ⟨fun ⟨_, hi⟩ => ⟨_, hi, rfl⟩, fun ⟨⟨_, i⟩, hi, heq⟩ => ⟨i, heq ▸ hi⟩⟩

theorem of_ofLines (hread : ofLines name lines = .ok table) : table.Compact ∧ table.name = name ∧
    (∀ line ∈ lines, Blank line ∨ ∃ entry, Holds line entry) ∧
      ∀ entry, entry ∈ table.entries ↔ ∃ line ∈ lines, Holds line entry := by
  obtain ⟨hcompact, hname, hlines, hentries⟩ := (compact_empty name).of_read hread
  refine ⟨hcompact, hname, fun line hline => ?_, fun entry => ?_⟩
  · obtain ⟨i, hi⟩ := (mem_zipIdx_fst lines).2 hline
    exact hlines _ hi
  · simp [hentries, empty, ← mem_zipIdx_fst lines]

theorem exists_ofLines {whole : SymbolTable} (hwhole : whole.Sound)
    (hlines : ∀ line ∈ lines, Blank line ∨ ∃ entry ∈ whole.entries, Holds line entry) :
    ∃ table, ofLines name lines = .ok table :=
  (compact_empty name).exists_read hwhole nofun fun line hline =>
    hlines line.1 ((mem_zipIdx_fst lines).1 ⟨line.2, hline⟩)

/-- Lists of lines that have the same lines, blank ones left aside, are read as the same table. -/
theorem ofLines_eq_of_mem_iff (hread : ofLines name lines = .ok table)
    (hlines : ∀ line, ¬Blank line → (line ∈ lines ↔ line ∈ others)) : ofLines name others = .ok table := by
  obtain ⟨hcompact, hname, hheld, hentries⟩ := of_ofLines hread
  obtain ⟨table', hread'⟩ : ∃ table', ofLines name others = .ok table' := by
    refine exists_ofLines hcompact.toSound fun line hline => ?_
    by_cases hblank : Blank line
    · exact .inl hblank
    · have hmem := (hlines line hblank).2 hline
      obtain ⟨entry, hholds⟩ := (hheld line hmem).resolve_left hblank
      exact .inr ⟨entry, (hentries entry).2 ⟨line, hmem, hholds⟩, hholds⟩
  obtain ⟨hcompact', hname', -, hentries'⟩ := of_ofLines hread'
  rw [hread', hcompact'.ext hcompact (hname'.trans hname.symm) fun entry => ?_]
  rw [hentries, hentries']
  refine exists_congr fun line => and_congr_left fun hholds => ?_
  exact (hlines line fun hblank => hblank.not_holds hholds).symm

/-! ### Reading texts -/

/-- The text consists of these lines. The last one need not be terminated. -/
inductive Lined : List String → String → Prop where
  | terminated (lines : List String) : Lined lines (String.join (lines.map (· ++ "\n")))
  | unterminated (lines : List String) (last : String) :
      Lined (lines ++ [last]) (String.join (lines.map (· ++ "\n")) ++ last)

theorem encode_join_lines (lines : List String) :
    encode (String.join (lines.map (· ++ "\n"))) = (lines.map encode).flatMap (· ++ [10]) := by
  rw [encode_join, List.flatMap_map, List.flatMap_map]
  exact congrArg (lines.flatMap ·) (funext fun line => encode_append line "\n")

theorem not_mem_encode_of_not_mem {line : String} (h : '\n' ∉ line.toList) : 10 ∉ encode line := fun hmem =>
  h (mem_toList_of_mem_encode rfl (by decide) hmem)

/-- What is read of a text are its lines, but for an empty one at the end. -/
theorem Lined.exists_byteLines {lines : List String} {text : String} (h : Lined lines text)
    (hlines : ∀ line ∈ lines, '\n' ∉ line.toList) : ∃ read : List String, byteLines (encode text) = read.map encode ∧
      (∀ line ∈ read, line ∈ lines) ∧ ∀ line ∈ lines, line ∈ read ∨ Blank line := by
  have hbytes : ∀ lines : List String, (∀ line ∈ lines, '\n' ∉ line.toList) →
      ∀ line ∈ lines.map encode, 10 ∉ line := by
    intro lines hlines line hline
    obtain ⟨line, hmem, rfl⟩ := List.mem_map.1 hline
    exact not_mem_encode_of_not_mem (hlines line hmem)
  cases h with
  | terminated =>
    refine ⟨lines, ?_, fun _ => id, fun _ => .inl⟩
    rw [encode_join_lines, byteLines_flatMap (hbytes lines hlines)]
  | unterminated lines last =>
    rw [List.forall_mem_append, List.forall_mem_singleton] at hlines
    have hread := byteLines_flatMap_append (hbytes lines hlines.1) (not_mem_encode_of_not_mem hlines.2)
    rw [encode_append, encode_join_lines, hread]
    by_cases hlast : last = ""
    · subst hlast
      refine ⟨lines, if_pos rfl, fun _ => List.mem_append_left _, fun line hline => ?_⟩
      refine (List.mem_append.1 hline).imp_right fun hempty => ?_
      obtain rfl := List.mem_singleton.1 hempty
      exact nofun
    · refine ⟨lines ++ [last], ?_, fun _ => id, fun _ => .inl⟩
      rw [if_neg, List.map_append]
      · rfl
      · intro hempty
        have hdecode := decode?_encode last
        rw [hempty] at hdecode
        exact hlast (Option.some.inj hdecode).symm

/-- Texts whose lines can be read are read line by line. -/
theorem ofText_eq_ofLines {lines : List String} {text : String} (h : byteLines (encode text) = lines.map encode)
    (name : String) : ofText name text = ofLines name lines := by
  rw [ofText, ofBytes, h, ofLines, List.zipIdx_map, List.foldlM_map]
  simp only [Prod.map, decode?_encode]
  rfl

/-- A text that has the lines of another one, in any order and as often as it likes, and blank lines beside them, is
read as the same table. -/
theorem ofText_eq_of_lined {text other : String} (htext : Lined lines text) (hother : Lined others other)
    (hlines : ∀ line ∈ lines, '\n' ∉ line.toList) (hothers : ∀ line ∈ others, '\n' ∉ line.toList)
    (hkept : ∀ line ∈ lines, line ∈ others) (hadded : ∀ line ∈ others, line ∈ lines ∨ Blank line)
    (hread : ofText name text = .ok table) : ofText name other = .ok table := by
  obtain ⟨found, hbytes, hsub, hleft⟩ := htext.exists_byteLines hlines
  obtain ⟨found', hbytes', hsub', hleft'⟩ := hother.exists_byteLines hothers
  rw [ofText_eq_ofLines hbytes] at hread
  rw [ofText_eq_ofLines hbytes']
  refine ofLines_eq_of_mem_iff hread fun line hblank => ⟨fun hline => ?_, fun hline => ?_⟩
  · exact (hleft' line (hkept line (hsub line hline))).resolve_right hblank
  · have hmem := (hadded line (hsub' line hline)).resolve_right hblank
    exact (hleft line hmem).resolve_right hblank

/-- A table with the last key. -/
def outermost : SymbolTable :=
  { name := "t", entries := [(1, "a"), (lastKey, "ω")], availableKey := lastKey, version := 2 }

/-- The second text has the lines in another order, one of them twice and one of blanks, and does not end with a line
feed. -/
theorem ofText_eq_of_lined_outermost :
    ofText "t" "ω 4294967295\na\t+1\n" = .ok outermost ∧
      ofText "t" "a\t+1\n \r\nω 4294967295\na\t+1" = .ok outermost := by
  have htext : Lined ["ω 4294967295", "a\t+1"] "ω 4294967295\na\t+1\n" := .terminated _
  have hother : Lined ["a\t+1", " \r", "ω 4294967295", "a\t+1"] "a\t+1\n \r\nω 4294967295\na\t+1" :=
    .unterminated ["a\t+1", " \r", "ω 4294967295"] "a\t+1"
  have hread : ofText "t" "ω 4294967295\na\t+1\n" = .ok outermost := by rfl
  refine ⟨hread, ofText_eq_of_lined htext hother (by decide) (by decide) (by decide) ?_ hread⟩
  simp [Blank, isBlank]

end Transducer.SymbolTable
