import Axan.LaunchEntryWire.Export

/-!
# The interchange file as a TOML document

What `buildStartupSessionsToml` writes is read back by the TOML grammar: every pair of every
block, for strings without U+007F.

* `readLine_itemLine` — the line of a pair is read as the pair.
* `fileLines` — the lines of a file; `build_eq` says that the file is these.
* `readDocument_build` — the file is a document with the version and the tables of the entries,
  in order.
-/

namespace Axan.LaunchEntryWire

open Axan.Base

/-! ### Reading a line back -/

/-- An item whose text TOML reads: no U+007F in a string, and a height of the separators. -/
def Item.Plain : Item → Prop
  | .text s => del ∉ s
  | .number x => ∃ h, x = normalizeSeparatorHeight h
  | .flag => True
  | .names l => ∀ s ∈ l, del ∉ s

/-- A text without U+007F is written as a basic string of it. -/
theorem basicString_quoted {s : List Char} (h : del ∉ s) : Toml.BasicString (quoted s) s :=
  ⟨s.flatMap escaped, rfl, body_escaped h⟩

theorem newline_not_mem_quoted {s : List Char} (h : del ∉ s) : '\n' ∉ quoted s := by
  intro hn
  rw [quoted, List.mem_cons, List.mem_append, List.mem_singleton] at hn
  rcases hn with hn | hn | hn
  · exact absurd hn (by decide)
  · rcases (body_escaped h).plain_of_mem _ hn with ht | ht
    · exact absurd ht (by decide)
    · exact absurd ht.1 (by decide)
  · exact absurd hn (by decide)

/-- A number that reads back, as a value. -/
theorem readValue_fixed1 {x : Double} (h : readsBack x = true) :
    Toml.readValue (fixed1 x) = some (.float x) ∧ (fixed1 x).head? ≠ some ' ' ∧
      '\n' ∉ fixed1 x := by
  simp only [readsBack, Bool.and_eq_true, decide_eq_true_eq] at h
  obtain ⟨⟨⟨hdigit, hint⟩, hfloat⟩, hnl⟩ := h
  cases ht : fixed1 x with
  | nil =>
      rw [ht] at hdigit
      cases hdigit
  | cons c t =>
      rw [ht] at hdigit hint hfloat hnl
      have hc : c.isDigit = true := hdigit
      have hne : ∀ d : Char, d.isDigit = false → c ≠ d := by
        rintro d hd rfl
        rw [hd] at hc
        cases hc
      have htrue : c :: t ≠ "true".toList := fun he => hne 't' (by decide) (List.cons.inj he).1
      have hfalse : c :: t ≠ "false".toList := fun he => hne 'f' (by decide) (List.cons.inj he).1
      refine ⟨?_, ?_, hnl⟩
      · rw [Toml.readValue, if_neg (hne _ (by decide)), if_neg (hne _ (by decide)), if_neg htrue,
          if_neg hfalse, Toml.readNumber, hint, hfloat]
        rfl
      · intro he
        exact hne ' ' (by decide) (Option.some.inj he)

/-- So are the names of an array. -/
theorem names_forall₂ {l : List (List Char)} (h : ∀ s ∈ l, del ∉ s) :
    List.Forall₂ Toml.BasicString (l.map quoted) l := by
  rw [List.forall₂_map_left_iff]
  exact List.forall₂_same.mpr fun s hs => basicString_quoted (h s hs)

/-- The text of an item is read as its value. -/
theorem readValue_rhs {item : Item} (h : item.Plain) :
    Toml.readValue item.rhs = some item.value ∧ item.rhs.head? ≠ some ' ' := by
  cases item with
  | text s => exact ⟨Toml.readValue_basicString (basicString_quoted h), by simp [Item.rhs, quoted]⟩
  | number x =>
      obtain ⟨y, rfl⟩ := h
      have := readValue_fixed1 (readsBack_height y)
      exact ⟨this.1, this.2.1⟩
  | flag => exact ⟨rfl, by decide⟩
  | names l =>
      refine ⟨?_, by simp [Item.rhs]⟩
      cases l with
      | nil => rfl
      | cons s l => exact Toml.readValue_strings (names_forall₂ h) (by simp)

/-- Every value is written on one line. -/
theorem newline_not_mem_rhs {item : Item} (h : item.Plain) : '\n' ∉ item.rhs := by
  cases item with
  | text s => exact newline_not_mem_quoted h
  | number x =>
      obtain ⟨y, rfl⟩ := h
      exact (readValue_fixed1 (readsBack_height y)).2.2
  | flag => decide
  | names l =>
      intro hn
      rw [Item.rhs, List.mem_cons, List.mem_append] at hn
      rcases hn with hn | hn | hn
      · exact absurd hn (by decide)
      · rcases mem_intercalate hn with hn | ⟨t, ht, hn⟩
        · exact absurd hn (by decide)
        · obtain ⟨s, hs, rfl⟩ := List.mem_map.mp ht
          exact newline_not_mem_quoted (h s hs) hn
      · exact absurd hn (by decide)

/-- Every key is a bare one. -/
theorem key_plain (key : TomlKey) :
    key.text.toList.all Toml.bareKeyChar = true ∧ key.text.toList ≠ [] ∧ '\n' ∉ key.text.toList := by
  cases key <;> decide

/-- **The line of a pair is read as the pair.** -/
theorem readLine_itemLine {p : TomlKey × Item} (h : p.2.Plain) :
    Toml.readLine (itemLine p) = some (.pair p.1.text.toList p.2.value) := by
  obtain ⟨hv, hspace⟩ := readValue_rhs h
  obtain ⟨hbare, hne, -⟩ := key_plain p.1
  exact Toml.readLine_pair _ _ hbare hne hspace hv

/-- A pair is one line. -/
theorem newline_not_mem_itemLine {p : TomlKey × Item} (h : p.2.Plain) : '\n' ∉ itemLine p := by
  have hspaces : ∀ n, '\n' ∉ List.replicate n ' ' := by
    intro n hn
    exact absurd (List.mem_replicate.mp hn).2 (by decide)
  intro hn
  rw [itemLine, List.mem_append, List.mem_append, List.mem_cons, List.mem_append] at hn
  rcases hn with hn | hn | hn | hn | hn
  · exact (key_plain p.1).2.2 hn
  · exact hspaces _ hn
  · exact absurd hn (by decide)
  · exact hspaces _ hn
  · exact newline_not_mem_rhs h hn

/-! ### The document of a file -/

/-- The strings of an entry. -/
def Entry.texts (e : Entry) : List (List Char) :=
  [e.id, e.parentId, e.profile, e.profileName, e.name, e.directory, e.command, e.icon, e.color,
    e.colorTarget, e.kind, e.style, e.placement, e.hoist]

/-- No string of the entry holds U+007F. -/
def Entry.Plain (e : Entry) : Prop := ∀ s ∈ e.texts, del ∉ s

/-- The pairs of the table of an entry. -/
def pairsOf (e : Entry) : Toml.Table := (items e).map fun p => (p.1.text.toList, p.2.value)

/-- A hoist value without U+007F is plain. -/
theorem plain_hoistItem {hoist : List Char} (h : del ∉ hoist) : (hoistItem hoist).Plain := by
  rw [hoistItem]
  by_cases hn : hoist = "never".toList
  · rw [if_pos hn]
    exact h
  · rw [if_neg hn]
    intro s hs hdel
    have hjoin : [','].intercalate (hoist.splitOn ',') = hoist := List.intercalate_splitOn ','
    have hmem : s ∈ hoist.splitOn ',' := (List.mem_filter.mp hs).1
    rw [← hjoin] at h
    exact h (mem_intercalate_of_mem hmem hdel)

/-- An optional pair is that pair, if any. -/
theorem mem_optional {c : Bool} {key : TomlKey} {item : Item} {p : TomlKey × Item}
    (h : p ∈ optional c key item) : p = (key, item) := by
  rw [optional] at h
  cases c with
  | false => cases h
  | true => exact List.mem_singleton.mp h

/-- Every pair of a block is one TOML reads. -/
theorem plain_items {e : Entry} (h : e.Plain) {p : TomlKey × Item} (hp : p ∈ items e) :
    p.2.Plain := by
  have htext : ∀ s ∈ e.texts, (Item.text s).Plain := h
  have hkind : (Item.text kindSeparator).Plain := by
    show del ∉ kindSeparator
    decide
  rw [items] at hp
  cases hsep : e.isSeparator with
  | true =>
      rw [if_pos hsep] at hp
      simp only [separatorItems, List.mem_append, List.mem_cons, List.not_mem_nil, or_false] at hp
      rcases hp with (((((rfl | rfl | rfl) | hp) | hp) | hp) | hp) | hp
      · exact htext _ (by simp [Entry.texts])
      · exact htext _ (by simp [Entry.texts])
      · exact hkind
      · exact mem_optional hp ▸ htext _ (by simp [Entry.texts])
      · exact mem_optional hp ▸ ⟨_, rfl⟩
      · exact mem_optional hp ▸ htext _ (by simp [Entry.texts])
      · exact mem_optional hp ▸ htext _ (by simp [Entry.texts])
      · exact mem_optional hp ▸ trivial
  | false =>
      rw [if_neg (by simp [hsep])] at hp
      simp only [sessionItems, List.mem_append, List.mem_cons, List.not_mem_nil, or_false] at hp
      rcases hp with
        ((((((rfl | rfl) | hp) | hp) | (rfl | rfl | rfl | rfl)) | hp) | hp) | hp
      · exact htext _ (by simp [Entry.texts])
      · exact htext _ (by simp [Entry.texts])
      · exact mem_optional hp ▸ htext _ (by simp [Entry.texts])
      · exact mem_optional hp ▸ htext _ (by simp [Entry.texts])
      · exact htext _ (by simp [Entry.texts])
      · exact htext _ (by simp [Entry.texts])
      · exact htext _ (by simp [Entry.texts])
      · exact htext _ (by simp [Entry.texts])
      · exact mem_optional hp ▸ htext _ (by simp [Entry.texts])
      · exact mem_optional hp ▸ htext _ (by simp [Entry.texts])
      · exact mem_optional hp ▸ plain_hoistItem (h _ (by simp [Entry.texts]))

/-- All keys. -/
def allKeys : List TomlKey :=
  [.id, .parentId, .profile, .profileName, .name, .directory, .command, .icon, .color,
    .colorTarget, .kind, .style, .height, .placement, .collapsed, .hoist]

/-- The list has every key. -/
theorem mem_allKeys (key : TomlKey) : key ∈ allKeys := by
  cases key <;> decide

/-- Different keys have different texts. -/
theorem text_injective : Function.Injective fun key : TomlKey => key.text.toList := by
  have hnd : (allKeys.map fun key => key.text.toList).Nodup := by decide
  intro a b h
  exact List.inj_on_of_nodup_map hnd (mem_allKeys a) (mem_allKeys b) h

/-- An optional pair has its key at most. -/
theorem keys_optional (c : Bool) (key : TomlKey) (item : Item) :
    ((optional c key item).map Prod.fst).Sublist [key] := by
  rw [optional]
  cases c with
  | false => exact List.nil_sublist _
  | true => exact List.Sublist.refl _

/-- No key of a separator is written twice. -/
theorem nodup_keys_separatorItems (e : Entry) : ((separatorItems e).map Prod.fst).Nodup := by
  have hsub : ((separatorItems e).map Prod.fst).Sublist
      ([TomlKey.id, TomlKey.parentId, TomlKey.kind] ++ [TomlKey.style] ++ [TomlKey.height] ++
        [TomlKey.placement] ++ [TomlKey.name] ++ [TomlKey.collapsed]) := by
    simp only [separatorItems, List.map_append, List.map_cons, List.map_nil]
    refine List.Sublist.append ?_ (keys_optional _ _ _)
    refine List.Sublist.append ?_ (keys_optional _ _ _)
    refine List.Sublist.append ?_ (keys_optional _ _ _)
    refine List.Sublist.append ?_ (keys_optional _ _ _)
    exact List.Sublist.append (List.Sublist.refl _) (keys_optional _ _ _)
  exact hsub.nodup (by decide)

/-- Nor is one of a session. -/
theorem nodup_keys_sessionItems (e : Entry) : ((sessionItems e).map Prod.fst).Nodup := by
  have hsub : ((sessionItems e).map Prod.fst).Sublist
      ([TomlKey.id, TomlKey.parentId] ++ [TomlKey.profile] ++ [TomlKey.profileName] ++
        [TomlKey.name, TomlKey.directory, TomlKey.command, TomlKey.icon] ++ [TomlKey.color] ++
        [TomlKey.colorTarget] ++ [TomlKey.hoist]) := by
    simp only [sessionItems, List.map_append, List.map_cons, List.map_nil]
    refine List.Sublist.append ?_ (keys_optional _ _ _)
    refine List.Sublist.append ?_ (keys_optional _ _ _)
    refine List.Sublist.append ?_ (keys_optional _ _ _)
    refine List.Sublist.append ?_ (List.Sublist.refl _)
    refine List.Sublist.append ?_ (keys_optional _ _ _)
    exact List.Sublist.append (List.Sublist.refl _) (keys_optional _ _ _)
  exact hsub.nodup (by decide)

/-- No key is written twice in a block. -/
theorem nodup_keys_items (e : Entry) : ((items e).map Prod.fst).Nodup := by
  rw [items]
  by_cases hsep : e.isSeparator = true
  · rw [if_pos hsep]
    exact nodup_keys_separatorItems e
  · rw [if_neg hsep]
    exact nodup_keys_sessionItems e

theorem nodup_keys_pairsOf (e : Entry) : ((pairsOf e).map Prod.fst).Nodup := by
  have hkeys : (pairsOf e).map Prod.fst =
      ((items e).map Prod.fst).map fun k => k.text.toList := by
    rw [pairsOf, List.map_map, List.map_map]
    rfl
  rw [hkeys]
  exact (nodup_keys_items e).map text_injective

/-- The table of the version. -/
def metaPairs (version : ℕ) : Toml.Table :=
  [("axan-toml-version".toList, .integer version), ("exported-by".toList, .string "windows".toList)]

/-- The lines of the version. -/
def metaLines (version : ℕ) : List (List Char) :=
  ['[' :: ("meta".toList ++ [']']), "axan-toml-version".toList ++ (List.replicate 1 ' ' ++ '=' ::
      (List.replicate 1 ' ' ++ Nat.toDigits 10 version)),
    "exported-by".toList ++ (List.replicate 7 ' ' ++ '=' ::
      (List.replicate 1 ' ' ++ quoted "windows".toList)), []]

/-- The lines of a file. -/
def fileLines (entries : List Entry) : List (List Char) :=
  preamble.map String.toList ++ metaLines (tomlVersionFor entries) ++ entries.flatMap blockLines

/-- The version is 1 or 2. -/
theorem tomlVersionFor_cases (entries : List Entry) :
    tomlVersionFor entries = 1 ∨ tomlVersionFor entries = 2 := by
  induction entries with
  | nil => exact Or.inl rfl
  | cons e entries ih =>
      rw [tomlVersionFor]
      cases e.isSeparator with
      | true => exact Or.inr rfl
      | false => exact ih

/-- The lines of blocks are written block by block. -/
theorem unlines_flatMap {α : Type} (l : List α) (f : α → List (List Char)) :
    Toml.unlines (l.flatMap f) = l.flatMap fun a => Toml.unlines (f a) := List.flatMap_assoc

/-- **The file is the bytes of its lines.** -/
theorem build_eq (entries : List Entry) :
    buildStartupSessionsToml entries = utf8 (Toml.unlines (fileLines entries)) := by
  have hblocks : entries.flatMap toTomlBlock =
      utf8 (Toml.unlines (entries.flatMap blockLines)) := by
    rw [unlines_flatMap, utf8_flatMap]
    exact List.flatMap_congr fun e _ => toTomlBlock_eq e
  have hpre : (preamble.flatMap fun l => lit l ++ lit "\n") =
      utf8 (Toml.unlines (preamble.map String.toList)) := by
    rw [Toml.unlines, List.flatMap_map, utf8_flatMap]
    exact List.flatMap_congr fun l _ => (utf8_append _ _).symm
  rw [buildStartupSessionsToml, hblocks, hpre, fileLines, Toml.unlines_append, Toml.unlines_append,
    utf8_append, utf8_append]
  have hversion : lit "axan-toml-version = " =
      utf8 ("axan-toml-version".toList ++ (List.replicate 1 ' ' ++ '=' :: List.replicate 1 ' ')) := by
    decide
  have hmeta : lit "[meta]\n" = utf8 ('[' :: ("meta".toList ++ [']']) ++ ['\n']) := by decide
  have hby : lit "exported-by       = \"windows\"\n\n" =
      utf8 ("exported-by".toList ++ (List.replicate 7 ' ' ++ '=' ::
        (List.replicate 1 ' ' ++ quoted "windows".toList)) ++ ['\n'] ++ [] ++ ['\n']) := by
    decide
  have hnewline : lit "\n" = String.utf8EncodeChar '\n' := by decide
  rw [hversion, hby, hmeta, metaLines, hnewline]
  simp only [Toml.unlines, List.flatMap_cons, List.flatMap_nil, utf8_append, utf8_cons, utf8_nil,
    List.append_assoc, List.append_nil, List.nil_append, List.cons_append]

/-- The section of the version. -/
def metaSection (version : ℕ) : Toml.Section := ⟨false, "meta".toList, metaPairs version⟩

/-- The lines of the preamble are comments. -/
theorem readLine_comments : ∀ l ∈ preamble, Toml.readLine l.toList = some .blank := by
  have hall : (preamble.all fun l => (Toml.readLine l.toList).any Toml.Line.isBlank) =
      true := by decide
  intro l hl
  exact Toml.eq_blank_of_isBlank (List.all_eq_true.mp hall l hl)

/-- They are read as blank lines. -/
theorem readLines_comments :
    Toml.readLines (preamble.map String.toList) = some (List.replicate 5 .blank) :=
  Toml.readLines_map readLine_comments

/-- The header is read as its section. -/
theorem readLines_metaLines {version : ℕ} (h : version = 1 ∨ version = 2) :
    Toml.readLines (metaLines version) = some (Toml.sectionLines (metaSection version)) := by
  have hhead : Toml.readLine ('[' :: ("meta".toList ++ [']'])) =
      some (.header false "meta".toList) :=
    Toml.readLine_table (by decide) (by decide)
  have hwindows : (Item.text "windows".toList).Plain := by
    show del ∉ "windows".toList
    decide
  have hby : Toml.readLine ("exported-by".toList ++ (List.replicate 7 ' ' ++ '=' ::
      (List.replicate 1 ' ' ++ quoted "windows".toList))) =
      some (.pair "exported-by".toList (.string "windows".toList)) :=
    Toml.readLine_pair 7 1 (by decide) (by decide) (readValue_rhs hwindows).2
      (readValue_rhs hwindows).1
  have hversion : ∀ d : Char, ∀ n : ℕ, Toml.readValue [d] = some (.integer n) → d ≠ ' ' →
      Toml.readLine ("axan-toml-version".toList ++ (List.replicate 1 ' ' ++ '=' ::
        (List.replicate 1 ' ' ++ [d]))) = some (.pair "axan-toml-version".toList (.integer n)) := by
    intro d n hv hd
    exact Toml.readLine_pair 1 1 (by decide) (by decide) (by simpa using hd) hv
  have hlines : ∀ d : Char, ∀ n : ℕ, Nat.toDigits 10 n = [d] →
      Toml.readValue [d] = some (.integer n) → d ≠ ' ' →
      Toml.readLines (metaLines n) = some (Toml.sectionLines (metaSection n)) := by
    intro d n hn hv hd
    have hblank : Toml.readLine [] = some .blank := rfl
    rw [metaLines, hn]
    simp only [Toml.readLines, hhead, hversion d n hv hd, hby, hblank, Option.map_some]
    rfl
  rcases h with rfl | rfl
  · exact hlines '1' 1 rfl rfl (by decide)
  · exact hlines '2' 2 rfl rfl (by decide)

/-- The section of an entry. -/
def sectionOf (e : Entry) : Toml.Section := ⟨true, tomlTable.toList, pairsOf e⟩

/-- A block is read as its section. -/
theorem readLines_blockLines {e : Entry} (h : e.Plain) :
    Toml.readLines (blockLines e) = some (Toml.sectionLines (sectionOf e)) := by
  have hpairs : Toml.readLines ((items e).map itemLine) =
      some ((items e).map fun p => .pair p.1.text.toList p.2.value) :=
    Toml.readLines_map fun p hp => readLine_itemLine (plain_items h hp)
  have hbody : Toml.readLines ((items e).map itemLine ++ [[]]) =
      some (((items e).map fun p => .pair p.1.text.toList p.2.value) ++ [.blank]) :=
    Toml.readLines_append hpairs rfl
  have hhead : Toml.readLine ('[' :: '[' :: (tomlTable.toList ++ [']', ']'])) =
      some (.header true tomlTable.toList) :=
    Toml.readLine_arrayTable (by decide) (by decide)
  rw [blockLines, Toml.readLines, hhead]
  simp only [hbody, Option.map_some, Toml.sectionLines, sectionOf, pairsOf, List.map_map]
  rfl

theorem readLines_blocks {entries : List Entry} (h : ∀ e ∈ entries, e.Plain) :
    Toml.readLines (entries.flatMap blockLines) =
      some ((entries.map sectionOf).flatMap Toml.sectionLines) := by
  induction entries with
  | nil => rfl
  | cons e entries ih =>
      rw [List.flatMap_cons, List.map_cons, List.flatMap_cons]
      exact Toml.readLines_append (readLines_blockLines (h e List.mem_cons_self))
        (ih fun e' he' => h e' (List.mem_cons_of_mem _ he'))

/-- Every line of the file is one line. -/
theorem newline_not_mem_fileLines {entries : List Entry} (h : ∀ e ∈ entries, e.Plain) :
    ∀ l ∈ fileLines entries, '\n' ∉ l := by
  intro l hl
  rw [fileLines, List.mem_append, List.mem_append] at hl
  rcases hl with (hl | hl) | hl
  · have hall : ((preamble.map String.toList).all fun l => '\n' ∉ l) = true := by decide
    exact of_decide_eq_true (List.all_eq_true.mp hall l hl)
  · have hall : ((metaLines (tomlVersionFor entries)).all fun l => '\n' ∉ l) = true := by
      rcases tomlVersionFor_cases entries with hv | hv
      · rw [hv]
        decide
      · rw [hv]
        decide
    exact of_decide_eq_true (List.all_eq_true.mp hall l hl)
  · obtain ⟨e, he, hl⟩ := List.mem_flatMap.mp hl
    rw [blockLines, List.mem_cons, List.mem_append, List.mem_singleton] at hl
    rcases hl with rfl | hl | rfl
    · decide
    · obtain ⟨p, hp, rfl⟩ := List.mem_map.mp hl
      exact newline_not_mem_itemLine (plain_items (h e he) hp)
    · exact List.not_mem_nil

/-- The document of a file. -/
def documentOf (entries : List Entry) : Toml.Table :=
  ("meta".toList, .table (metaPairs (tomlVersionFor entries))) ::
    if entries.isEmpty then []
    else [(tomlTable.toList, .array (entries.map fun e => .table (pairsOf e)))]

/-- The sections make the document. -/
theorem addSections_documentOf (entries : List Entry) :
    Toml.addSections [] (metaSection (tomlVersionFor entries) :: entries.map sectionOf) =
      some (documentOf entries) := by
  have hmeta : Toml.addSection [] (metaSection (tomlVersionFor entries)) =
      some [("meta".toList, .table (metaPairs (tomlVersionFor entries)))] := by
    rw [Toml.addSection, if_pos]
    · rfl
    · show ["axan-toml-version".toList, "exported-by".toList].Nodup
      decide
  rw [Toml.addSections, hmeta]
  cases entries with
  | nil => rfl
  | cons e entries =>
      have hsections : (e :: entries).map sectionOf =
          ((e :: entries).map pairsOf).map fun t => ⟨true, tomlTable.toList, t⟩ := by
        rw [List.map_map]
        rfl
      have hlookup : List.lookup tomlTable.toList
          [("meta".toList, Toml.Value.table (metaPairs (tomlVersionFor (e :: entries))))] = none := by
        rw [List.lookup_cons, beq_false_of_ne (by decide)]
        rfl
      simp only [hsections]
      rw [Toml.addSections_array hlookup (by simp)]
      · rw [List.map_map]
        rfl
      · intro t ht
        obtain ⟨e', -, rfl⟩ := List.mem_map.mp ht
        exact nodup_keys_pairsOf e'

/-- The lines of a file, as they are read. -/
def fileLinesRead (entries : List Entry) : List Toml.Line :=
  List.replicate 5 Toml.Line.blank ++
    (Toml.sectionLines (metaSection (tomlVersionFor entries)) ++
      ((entries.map sectionOf).flatMap Toml.sectionLines ++ [Toml.Line.blank]))

/-- The parts of the file. -/
theorem fileLines_eq (entries : List Entry) :
    fileLines entries ++ [[]] = preamble.map String.toList ++
      (metaLines (tomlVersionFor entries) ++ (entries.flatMap blockLines ++ [[]])) := by
  rw [fileLines, List.append_assoc, List.append_assoc]

/-- The lines of the file are read. -/
theorem readLines_fileLines {entries : List Entry} (h : ∀ e ∈ entries, e.Plain) :
    Toml.readLines (fileLines entries ++ [[]]) = some (fileLinesRead entries) := by
  have hmeta := readLines_metaLines (tomlVersionFor_cases entries)
  have hblocks : Toml.readLines (entries.flatMap blockLines ++ [[]]) =
      some ((entries.map sectionOf).flatMap Toml.sectionLines ++ [Toml.Line.blank]) :=
    Toml.readLines_append (readLines_blocks h) rfl
  rw [fileLines_eq, fileLinesRead]
  exact Toml.readLines_append readLines_comments (Toml.readLines_append hmeta hblocks)

/-- They are grouped into the header and the blocks. -/
theorem group_fileLinesRead (entries : List Entry) :
    Toml.group (fileLinesRead entries) =
      ([], metaSection (tomlVersionFor entries) :: entries.map sectionOf) := by
  have hrest : Toml.group ((entries.map sectionOf).flatMap Toml.sectionLines ++
      [Toml.Line.blank]) = ([], entries.map sectionOf ++ []) :=
    Toml.group_sections (entries.map sectionOf) rfl
  rw [List.append_nil] at hrest
  rw [fileLinesRead, Toml.group_blanks, Toml.group_section _ (by rw [hrest]), hrest]

/-- **The file is a TOML document**, with the version and one table per entry, in order. -/
theorem readDocument_build {entries : List Entry} (h : ∀ e ∈ entries, e.Plain) :
    Toml.readDocument (Toml.unlines (fileLines entries)) = some (documentOf entries) := by
  rw [Toml.readDocument, Toml.splitOn_unlines (newline_not_mem_fileLines h), readLines_fileLines h]
  simp only [group_fileLinesRead]
  exact addSections_documentOf entries

end Axan.LaunchEntryWire
