import Axan.LinuxToml.Reapply

/-!
# Launch entries in the TOML file

`quote` of `profile-toml.cc` escapes the quotation mark, the backslash, the line feed and the tab,
and writes every other character as it is; `toml_quote_string` escapes all control characters. A
text that `quote` writes is a string of TOML exactly when it is `quotable`.

* `quotable_of_clean` — a control character that is written as it is stays in the file.
* `entriesKept_iff` — **when the launch entries survive the file**: every text that `quote` writes
  is quotable, and the profile had no entries when none are written.
-/

namespace Axan.LinuxToml

open Axan.Base Axan.Base.Settings

/-! ### Control characters in the file -/

/-- What `quote` writes does not start with a line feed. -/
theorem head?_quoted (s t : Text) : (s.flatMap quoteChar ++ '"' :: t).head? ≠ some '\n' := by
  cases s with
  | nil => simp
  | cons c s =>
      rw [List.flatMap_cons, List.append_assoc, quoteChar]
      split_ifs with h₁ h₂ h₃
      · simp
      · simp
      · simp
      · simpa using h₂

/-- A string whose quotes have no control character is quotable. -/
theorem quotable_of_clean_body {s t : Text}
    (h : Toml.clean (s.flatMap quoteChar ++ '"' :: t) = true) : quotable s = true := by
  induction s with
  | nil => rfl
  | cons c s ih =>
      rw [List.flatMap_cons, List.append_assoc] at h
      rw [quotable, List.all_cons, Bool.and_eq_true]
      refine ⟨?_, ih (Toml.clean_of_append h)⟩
      rw [quoteChar] at h
      split_ifs at h with h₁ h₂ h₃
      · rcases Bool.or_eq_true_iff.mp h₁ with h₁ | h₁ <;> rw [of_decide_eq_true h₁] <;> rfl
      · rw [h₂]
        rfl
      · rw [h₃]
        rfl
      · -- a carriage return would need a line feed behind it, which is escaped
        rw [List.singleton_append, Toml.clean, decide_eq_false (head?_quoted s t), decide_eq_false h₂]
          at h
        simp only [Bool.or_false, Bool.and_false, Bool.and_eq_true] at h
        rw [quotableChar, decide_eq_false h₂, Bool.false_or]
        exact h.1

/-- A text between other text of a document. -/
theorem quotable_of_clean {s t u : Text} (h : Toml.clean (t ++ (quote s ++ u)) = true) :
    quotable s = true := by
  have hsplit : t ++ (quote s ++ u) = (t ++ ['"']) ++ (s.flatMap quoteChar ++ '"' :: u) := by
    simp [quote]
  rw [hsplit] at h
  exact quotable_of_clean_body (Toml.clean_of_append h)

section Format

variable {print : Variant → Text} {uuid : Text} {p : Store profileSchema}

/-- The UUID has its line. -/
theorem uuidLine_mem : uuidLine uuid ∈ profileLines print uuid p := by
  rw [profileLines]
  exact List.mem_append_right _ (List.mem_cons_of_mem _ List.mem_cons_self)

/-- So has every field of an entry that is written. -/
theorem entryLine_mem {row : List Text} (hrow : row ∈ launchEntryRows p) {i : ℕ} (hi : i < 8)
    (hwritten : entryFieldWritten row i = true) : entryLine row i ∈ profileLines print uuid p := by
  have hne : (launchEntryRows p).isEmpty = false := by
    cases hrows : launchEntryRows p with
    | nil =>
        rw [hrows] at hrow
        cases hrow
    | cons row' rows => rfl
  have hentry : entryLine row i ∈ writeLaunchEntry row := by
    refine List.mem_cons_of_mem _ (List.mem_append_left _ ?_)
    exact List.mem_map_of_mem (List.mem_filter.mpr ⟨List.mem_range.mpr hi, hwritten⟩)
  have hmem : entryLine row i ∈ (launchEntryRows p).flatMap writeLaunchEntry :=
    List.mem_flatMap.mpr ⟨row, hrow, hentry⟩
  rw [profileLines, hne]
  refine List.mem_append_right _ (List.mem_cons_of_mem _ (List.mem_cons_of_mem _ ?_))
  exact List.mem_append_right _ (List.mem_cons_of_mem _ hmem)

/-- A field that is not written has nothing to escape. -/
theorem quotable_unwritten {row : List Text} {i : ℕ} (hi : i < 8)
    (hwritten : entryFieldWritten row i = false) : quotable (row.getD i []) = true := by
  unfold entryFieldWritten at hwritten
  split_ifs at hwritten with hfirst hcolor
  · subst hcolor
    rw [Bool.not_eq_false', List.isEmpty_iff] at hwritten
    rw [hwritten]
    rfl
  · obtain rfl : i = 7 := by omega
    rw [Bool.and_eq_false_iff, Bool.not_eq_false', List.isEmpty_iff, decide_eq_false_iff_not,
      not_not] at hwritten
    rcases hwritten with hwritten | hwritten <;> rw [hwritten] <;> decide

/-- A clean file has no text that `quote` cannot write. -/
theorem quotable_of_clean_file
    (h : Toml.clean (Toml.unlines (profileLines print uuid p)) = true) :
    quotable uuid = true ∧ QuotableEntries p := by
  constructor
  · obtain ⟨t, ht⟩ := Toml.exists_clean_of_mem uuidLine_mem h
    rw [uuidLine, List.append_assoc, List.append_assoc] at ht
    exact quotable_of_clean ht
  · intro row hrow s hs
    obtain ⟨i, hi, rfl⟩ := List.getElem_of_mem hs
    rw [(launchEntryRows_spec p row hrow).1] at hi
    rw [← List.getD_eq_getElem row []]
    cases hwritten : entryFieldWritten row i with
    | false => exact quotable_unwritten hi hwritten
    | true =>
        obtain ⟨t, ht⟩ := Toml.exists_clean_of_mem (entryLine_mem hrow hi hwritten) h
        rw [entryLine, List.append_assoc] at ht
        exact quotable_of_clean ht

/-! ### The launch entries -/

/-- The import went through, and the profile has the launch entries of `p`; a color target `both`
is empty. -/
def EntriesKept (r : Result) (uuid : Text) (p : Store profileSchema) : Prop :=
  r.error = none ∧
    launchEntryRows (r.dconf.profile uuid) = (launchEntryRows p).map bothAsEmpty

/-- **The launch entries survive the file exactly when `quote` can write its texts**, and the profile
had no entries when none are written. -/
theorem entriesKept_iff {parse : Bytes → Parsed}
    (hparse : Toml.AgreesWithFileReader TomlFile.root parse) (hrefuses : Toml.RefusesControls parse)
    (inPath : String) (d : Dconf) {text : Text} (htext : profileTomlExport print uuid p = some text) :
    (∃ file, parse (utf8 text) = .ok file) ∧
        EntriesKept (profileTomlImport inPath (parse (utf8 text)) d) uuid p ↔
      quotable uuid = true ∧ QuotableEntries p ∧
        (launchEntryRows p = [] → launchEntryRows (d.profile uuid) = []) := by
  have hlines : text = Toml.unlines (profileLines print uuid p) := by
    rw [profileTomlExport] at htext
    split_ifs at htext
    exact (Option.some.inj htext).symm
  have hrows (huuid : quotable uuid = true) (hentries : QuotableEntries p) :
      launchEntryRows ((profileTomlImport inPath (parse (utf8 text)) d).dconf.profile uuid) =
        if launchEntryRows p = [] then launchEntryRows (d.profile uuid)
        else (launchEntryRows p).map bothAsEmpty := by
    obtain ⟨tbl, hmap, -, hdconf⟩ := profileTomlImport_export hparse inPath huuid d hentries htext
    rw [hdconf]
    simp only [Function.update_self]
    exact reapplied_rows inPath (d.profile uuid) hmap
  constructor
  · rintro ⟨⟨file, hfile⟩, -, hkept⟩
    have hclean := hrefuses text file hfile
    rw [hlines] at hclean
    obtain ⟨huuid, hentries⟩ := quotable_of_clean_file hclean
    refine ⟨huuid, hentries, fun hempty => ?_⟩
    rw [hrows huuid hentries, if_pos hempty, hempty] at hkept
    exact hkept
  · rintro ⟨huuid, hentries, hnone⟩
    obtain ⟨file, -, hfile, -⟩ := parse_profileLines hparse print huuid hentries
    obtain ⟨-, -, hok, -⟩ := profileTomlImport_export hparse inPath huuid d hentries htext
    rw [← hlines] at hfile
    refine ⟨⟨file, hfile⟩, hok, ?_⟩
    rw [hrows huuid hentries]
    split_ifs with hempty
    · rw [hnone hempty, hempty]
      rfl
    · rfl

end Format

/-! ### A command of two lines, and a directory with an escape character -/

/-- The reader of the model refuses a control character. -/
theorem refusesControls_parseFile : Toml.RefusesControls parseFile := by
  intro t file h
  rw [parseFile, utf8Decode_utf8] at h
  simp only at h
  split at h
  · cases h
  · rename_i doc hdoc
    exact Toml.readFile_clean hdoc

/-- The default profile with one launch entry. -/
def entryProfile (row : List Text) : Store profileSchema :=
  defaultProfile.setValue kLaunchEntriesKey (.stringTuples [row])

/-- The profile of one row has that row. -/
theorem entryProfile_rows {row : List Text} (hlen : row.length = 8) (hnul : row.all nulFree = true) :
    launchEntryRows (entryProfile row) = [row] := by
  have hset := defaultProfile.setValue_self launchEntriesKey_mem (.stringTuples [row])
  have haccepts : launchEntriesKey.accepts (.stringTuples [row]) = true := by
    simp [KeySpec.accepts, launchEntriesKey, launchEntries, Variant.hasType, Range.accepts, hlen, hnul]
  rw [if_pos haccepts] at hset
  have hvalue : (entryProfile row).value kLaunchEntriesKey = .stringTuples [row] := hset
  rw [launchEntryRows, hvalue]

/-- An entry with this command in this directory. -/
def entryRow (directory command : Text) : List Text :=
  ["e1".toList, [], "build".toList, directory, command, [], [], "both".toList]

/-- The file of a profile with one entry. -/
def entryFile (row : List Text) : Text :=
  Toml.unlines (profileLines (fun _ => []) defaultUuid (entryProfile row))

/-- And it is exported as such. -/
theorem entryFile_eq (row : List Text) :
    profileTomlExport (fun _ => []) defaultUuid (entryProfile row) = some (entryFile row) :=
  if_neg (by decide)

/-- A command of two lines. -/
def makeRow : List Text := entryRow "/tmp".toList "cd src\n\tmake".toList

/-- A directory with U+001B in its name. -/
def escapeRow : List Text := entryRow ['/', 't', 'm', 'p', '/', Char.ofNat 0x1B] "make".toList

theorem makeRow_kept :
    (∃ file, parseFile (utf8 (entryFile makeRow)) = .ok file) ∧
      EntriesKept (profileTomlImport "p.toml" (parseFile (utf8 (entryFile makeRow)))
        (dconfWith defaultProfile)) defaultUuid (entryProfile makeRow) := by
  have hrows : launchEntryRows (entryProfile makeRow) = [makeRow] :=
    entryProfile_rows rfl (by decide)
  refine (entriesKept_iff agreesWithFileReader_parseFile refusesControls_parseFile "p.toml"
    (dconfWith defaultProfile) (entryFile_eq makeRow)).mpr ⟨by decide, ?_, ?_⟩
  · intro row hrow
    rw [hrows, List.mem_singleton] at hrow
    rw [hrow]
    decide
  · intro hempty
    rw [hrows] at hempty
    cases hempty

/-- A file with that directory does not parse. -/
theorem escapeRow_lost :
    profileTomlExport (fun _ => []) defaultUuid (entryProfile escapeRow) =
        some (entryFile escapeRow) ∧
      launchEntryRows (entryProfile escapeRow) = [escapeRow] ∧
      ¬ ((∃ file, parseFile (utf8 (entryFile escapeRow)) = .ok file) ∧
        EntriesKept (profileTomlImport "p.toml" (parseFile (utf8 (entryFile escapeRow)))
          (dconfWith defaultProfile)) defaultUuid (entryProfile escapeRow)) := by
  have hrows : launchEntryRows (entryProfile escapeRow) = [escapeRow] :=
    entryProfile_rows rfl (by decide)
  refine ⟨entryFile_eq escapeRow, hrows, ?_⟩
  rintro ⟨⟨file, hfile⟩, -⟩
  have hquotable := (quotable_of_clean_file (refusesControls_parseFile _ file hfile)).2 escapeRow
    (by rw [hrows]; exact List.mem_singleton_self _)
  revert hquotable
  decide

end Axan.LinuxToml
