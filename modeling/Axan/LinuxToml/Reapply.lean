import Axan.LinuxToml.Scalars

/-!
# Applying an exported profile again

The file that the export writes is read as one table (`readFile_profileLines`), and the import of
that table puts every key back that the file has. Two things are written as comments: a key of type
`ms` that is not set, and an empty list of launch entries. They keep what the profile had before.

* `profileTable` — the table of the file.
* `reapply_iff` — what the import leaves is the exported profile exactly when the profile had
  nothing where the file is silent.
-/

namespace Axan.LinuxToml

open Axan.Base Axan.Base.Settings

section Format

variable (print : Variant → Text)

/-! ### The keys of the profile -/

/-- The kinds of keys that are written as one line. -/
def exportable (k : KeySpec) : Bool :=
  match k.type with
  | .boolean => true
  | .integer .int32 => true
  | .double => k.range = .doubles 1 2
  | .string => true
  | .maybeString => true
  | .stringArray => true
  | _ => false

/-- Every key is exported, the launch entries apart. -/
theorem profile_exportable :
    ∀ k ∈ profileSchema.keys, k.name ≠ kLaunchEntriesKey → exportable k = true := by decide +kernel

/-- And its name is a bare key. -/
theorem profile_names :
    ∀ k ∈ profileSchema.keys, k.name.all Toml.bareKeyChar = true ∧ k.name ≠ [] := by
  decide +kernel

variable {print} {k : KeySpec} {v : Variant}

/-- The doubles of the keys are between one and two. -/
theorem double_of_accepts {x : Double} (hk : exportable k = true)
    (hv : k.accepts (.double x) = true) :
    k.type = .double ∧ ∃ q, x = .finite q ∧ 1 ≤ q ∧ q ≤ 2 := by
  obtain ⟨hty, hrange⟩ := Bool.and_eq_true_iff.mp hv
  cases htype : k.type with
  | double =>
      rw [exportable, htype] at hk
      rw [of_decide_eq_true hk] at hrange
      cases x with
      | finite q =>
          refine ⟨rfl, q, rfl, ?_⟩
          simpa [Range.accepts] using hrange
      | _ => cases hrange
  | _ =>
      rw [htype] at hty
      cases hty

/-- All but the doubles are written without loss. -/
theorem isPlain_of_exportable (hk : exportable k = true) (hdouble : k.type ≠ .double) :
    isPlain k.type = true ∧ k.type ≠ .maybeBoolean := by
  unfold exportable at hk
  cases htype : k.type with
  | double => exact absurd htype hdouble
  | integer t => cases t <;> simp_all [isPlain]
  | _ => simp_all [isPlain]

/-- A value is written, or it is a string that is not set. -/
theorem written_of_accepts (print : Variant → Text) (hk : exportable k = true)
    (hv : k.accepts v = true) :
    v = .maybeString none ∨ ∃ x, written print v = some x := by
  have hty : v.hasType k.type = true := (Bool.and_eq_true_iff.mp hv).1
  by_cases hdouble : k.type = .double
  · rw [hdouble] at hty
    cases v with
    | double x =>
        obtain ⟨-, q, rfl, hlo, hhi⟩ := double_of_accepts hk hv
        obtain ⟨x, hx⟩ := readWord_formatDouble hlo hhi
        exact Or.inr ⟨_, hx⟩
    | _ => cases hty
  · obtain ⟨hplain, hmaybe⟩ := isPlain_of_exportable hk hdouble
    cases hset : isSet v with
    | true =>
        obtain ⟨x, hx, -⟩ := written_of_plain print hplain hty hset
        exact Or.inr ⟨x, hx⟩
    | false =>
        rcases eq_of_not_isSet hset with rfl | rfl
        · exact Or.inl rfl
        · exact absurd (type_of_maybeBoolean hty) hmaybe

/-- A value the schema accepts can be written. -/
theorem writable_of_accepts (print : Variant → Text) (hk : exportable k = true)
    (hv : k.accepts v = true) : Writable print v := by
  rcases written_of_accepts print hk hv with rfl | hx
  · exact Or.inl rfl
  · exact Or.inr hx

/-- A value that is written is read as itself, unless it is a double. -/
theorem tomlToVariant_written (hk : exportable k = true) (hv : k.accepts v = true) {x : Toml.Value}
    (hx : written print v = some x) :
    ∃ y, tomlToVariant x k.type = some y ∧ (k.type ≠ .double → y = v) := by
  have hty : v.hasType k.type = true := (Bool.and_eq_true_iff.mp hv).1
  by_cases hdouble : k.type = .double
  · rw [hdouble] at hty ⊢
    cases v with
    | double y =>
        obtain ⟨-, q, rfl, hlo, hhi⟩ := double_of_accepts hk hv
        obtain ⟨z, hz⟩ := readWord_formatDouble hlo hhi
        obtain rfl := Option.some.inj (hz.symm.trans hx)
        exact ⟨_, rfl, fun h => absurd rfl h⟩
    | _ => cases hty
  · exact ⟨v, tomlToVariant_of_plain (isPlain_of_exportable hk hdouble).1 hty hx, fun _ => rfl⟩

/-! ### The table of the file -/

variable (print)

/-- The keys that are written, with their values. -/
def scalarPairs (profile : Store profileSchema) : Toml.Table :=
  (exportKeys profileSchema [kLaunchEntriesKey]).filterMap fun k =>
    (written print (profile.value k.name)).map fun x => (k.name, x)

/-- A field of a launch entry. -/
def entryPair (row : List Text) (i : ℕ) : Text × Toml.Value :=
  (kLaunchEntryFields.getD i [], .string (row.getD i []))

/-- The table of a launch entry. -/
def entryTable (row : List Text) : Toml.Table :=
  ((List.range 8).filter (entryFieldWritten row)).map (entryPair row)

/-- The table of the file. -/
def profileTable (uuid : Text) (profile : Store profileSchema) : Toml.Table :=
  Toml.nested kLaunchEntriesKey ((kUuidKey, .string uuid) :: scalarPairs print profile)
    ((launchEntryRows profile).map entryTable)

variable {print}

/-- The scalars are the table of the schema. -/
theorem scalarPairs_eq (print : Variant → Text) (profile : Store profileSchema) :
    scalarPairs print profile = schemaTable print [kLaunchEntriesKey] profile := rfl

/-- Only keys of the schema are written. -/
theorem mem_fst_scalarPairs {profile : Store profileSchema} {key : Text}
    (h : key ∈ (scalarPairs print profile).map Prod.fst) :
    ∃ k ∈ profileSchema.keys, k.name = key ∧ key ≠ kLaunchEntriesKey := by
  rw [scalarPairs_eq] at h
  obtain ⟨k, hk, hskip, rfl⟩ := mem_fst_schemaTable h
  exact ⟨k, hk, rfl, by simpa using hskip⟩

/-- The keys of the table. -/
theorem mem_fst_profileTable {uuid : Text} {profile : Store profileSchema} {key : Text}
    (h : key ∈ (profileTable print uuid profile).map Prod.fst) :
    key = kUuidKey ∨ ∃ k ∈ profileSchema.keys, k.name = key := by
  rw [profileTable, Toml.nested] at h
  split_ifs at h
  · rcases List.mem_cons.mp h with rfl | h
    · exact Or.inl rfl
    · obtain ⟨k, hk, hname, -⟩ := mem_fst_scalarPairs h
      exact Or.inr ⟨k, hk, hname⟩
  · rw [List.map_append, List.mem_append] at h
    rcases h with h | h
    · rcases List.mem_cons.mp h with rfl | h
      · exact Or.inl rfl
      · obtain ⟨k, hk, hname, -⟩ := mem_fst_scalarPairs h
        exact Or.inr ⟨k, hk, hname⟩
    · obtain rfl : key = kLaunchEntriesKey := by simpa using h
      exact Or.inr ⟨launchEntriesKey, launchEntriesKey_mem, rfl⟩

/-! ### Reading the file -/

def kProfileTable : Text := "profile".toList

/-- The names of the fields are bare keys. -/
theorem field_names :
    ∀ i < 8, (kLaunchEntryFields.getD i []).all Toml.bareKeyChar = true ∧
      kLaunchEntryFields.getD i [] ≠ [] := by decide

/-- A missing field is quotable too. -/
theorem quotable_getD {row : List Text} (h : ∀ t ∈ row, quotable t = true) (i : ℕ) :
    quotable (row.getD i []) = true := by
  rw [List.getD_eq_getElem?_getD]
  cases hi : row[i]? with
  | none => rfl
  | some t => exact h t (List.mem_of_getElem? hi)

/-- The line of a field is read back as its pair. -/
theorem entryLine_spec {row : List Text} (h : ∀ t ∈ row, quotable t = true) {i : ℕ}
    (hi : i < 8) :
    Toml.readFileLine (entryLine row i) = some (.pair (entryPair row i).1 (entryPair row i).2) ∧
      (entryLine row i).all Toml.commentChar = true := by
  obtain ⟨hkey, hne⟩ := field_names i hi
  have hquote := basicString_quote (quotable_getD h i)
  have hread := Toml.readValueRest_basicString hquote []
  rw [List.append_nil] at hread
  constructor
  · exact readFileLine_padRight 12 hkey hne hread rfl
  · rw [entryLine, List.all_append, List.all_append, commentChar_padRight hkey,
      commentChar_of_basicString hquote]
    decide

/-- The lines under the header of a launch entry. -/
def entryLines (t : Toml.Table) : List Toml.Line := t.map (fun kv => .pair kv.1 kv.2) ++ [.blank]

/-- A table of pairs has their lines. -/
theorem linesOf_pairs (t : Toml.Table) :
    Toml.LinesOf (t.map fun kv => Toml.Line.pair kv.1 kv.2) t := by
  constructor
  · intro x hx
    obtain ⟨kv, -, rfl⟩ := List.mem_map.mp hx
    rfl
  · rw [List.filterMap_map]
    exact List.filterMap_some

theorem linesOf_entryLines (t : Toml.Table) : Toml.LinesOf (entryLines t) t := by
  obtain ⟨hheader, hpairs⟩ := linesOf_pairs t
  constructor
  · intro x hx
    rcases List.mem_append.mp hx with hx | hx
    · exact hheader x hx
    · obtain rfl := List.mem_singleton.mp hx
      rfl
  · rw [entryLines, List.filterMap_append, hpairs]
    exact List.append_nil t

/-- The header of the launch entries. -/
def entriesHeader : Text := kProfileTable ++ '.' :: kLaunchEntriesKey

/-- An entry is read back with its header. -/
theorem writeLaunchEntry_spec {row : List Text} (h : ∀ t ∈ row, quotable t = true) :
    Toml.ReadAs (writeLaunchEntry row) (.header true entriesHeader :: entryLines (entryTable row)) ∧
      ∀ l ∈ writeLaunchEntry row, l.all Toml.commentChar = true := by
  have hline : ∀ i ∈ (List.range 8).filter (entryFieldWritten row), _ := fun i hi =>
    entryLine_spec h (List.mem_range.mp (List.mem_filter.mp hi).1)
  constructor
  · refine List.Forall₂.cons rfl ?_
    rw [entryLines, entryTable, List.map_map]
    refine Toml.ReadAs.append ?_ (.cons rfl .nil)
    exact Toml.readAs_map fun i hi => (hline i hi).1
  · intro l hl
    rcases List.mem_cons.mp hl with rfl | hl
    · decide
    · rcases List.mem_append.mp hl with hl | hl
      · obtain ⟨i, hi, rfl⟩ := List.mem_map.mp hl
        exact (hline i hi).2
      · obtain rfl := List.mem_singleton.mp hl
        rfl

/-- The line of the UUID is read back. -/
theorem uuidLine_spec {uuid : Text} (h : quotable uuid = true) :
    Toml.readFileLine (uuidLine uuid) = some (.pair kUuidKey (.string uuid)) ∧
      (uuidLine uuid).all Toml.commentChar = true := by
  have hquote := basicString_quote h
  have hkey : kUuidKey.all Toml.bareKeyChar = true := by decide
  have hread := Toml.readValueRest_basicString hquote
    "  # identity — re-import overwrites this UUID".toList
  constructor
  · rw [uuidLine, List.append_assoc]
    exact readFileLine_padRight 9 hkey (by decide) hread (by decide)
  · rw [uuidLine, List.all_append, List.all_append, List.all_append, commentChar_padRight hkey,
      commentChar_of_basicString hquote]
    decide

/-- Every key of a profile can be written. -/
theorem profile_writable (print : Variant → Text) (profile : Store profileSchema) :
    ∀ k ∈ profileSchema.keys, k.name ∉ [kLaunchEntriesKey] → KeyWritable print profile k := by
  intro k hk hskip
  have hexp := profile_exportable k hk (by simpa using hskip)
  obtain ⟨hbare, hne⟩ := profile_names k hk
  exact
    { bare := hbare
      nonempty := hne
      default := writable_of_accepts print hexp (profileSchema_defaults k hk)
      value := writable_of_accepts print hexp (profile.accepted k hk) }

/-- The launch entries have no control characters. -/
def ControlFreeEntries (profile : Store profileSchema) : Prop :=
  ∀ row ∈ launchEntryRows profile, ∀ t ∈ row, controlFree t = true

/-- The launch entries are texts that `quote` can write. -/
def QuotableEntries (profile : Store profileSchema) : Prop :=
  ∀ row ∈ launchEntryRows profile, ∀ t ∈ row, quotable t = true

/-- Entries without control characters are quotable. -/
theorem ControlFreeEntries.quotable {profile : Store profileSchema}
    (h : ControlFreeEntries profile) : QuotableEntries profile :=
  fun row hrow t ht => quotable_of_controlFree (h row hrow t ht)

/-- The end of the file. -/
theorem entries_spec {profile : Store profileSchema} (h : QuotableEntries profile) :
    Toml.ReadAs (if (launchEntryRows profile).isEmpty then ["# (no startup launch entries)".toList]
        else (launchEntryRows profile).flatMap writeLaunchEntry)
      ((if (launchEntryRows profile).isEmpty then [.blank] else []) ++
        Toml.tableLines entriesHeader entryLines ((launchEntryRows profile).map entryTable)) ∧
    ∀ l ∈ (if (launchEntryRows profile).isEmpty then ["# (no startup launch entries)".toList]
        else (launchEntryRows profile).flatMap writeLaunchEntry), l.all Toml.commentChar = true := by
  split_ifs with hempty
  · rw [List.isEmpty_iff.mp hempty]
    refine ⟨.cons rfl .nil, ?_⟩
    intro l hl
    obtain rfl := List.mem_singleton.mp hl
    decide
  · constructor
    · rw [List.nil_append, Toml.tableLines, List.flatMap_map]
      exact Toml.readAs_flatMap fun row hrow => (writeLaunchEntry_spec (h row hrow)).1
    · intro l hl
      obtain ⟨row, hrow, hl⟩ := List.mem_flatMap.mp hl
      exact (writeLaunchEntry_spec (h row hrow)).2 l hl

/-- No field is written twice. -/
theorem nodup_entryTable (row : List Text) : ((entryTable row).map Prod.fst).Nodup := by
  have hfields : ((List.range 8).map fun i => kLaunchEntryFields.getD i []).Nodup := by decide
  have hsub : ((entryTable row).map Prod.fst).Sublist
      ((List.range 8).map fun i => kLaunchEntryFields.getD i []) := by
    rw [entryTable, List.map_map]
    exact List.filter_sublist.map _
  exact hfields.sublist hsub

/-- Nor is a key of the profile. -/
theorem nodup_own (print : Variant → Text) (uuid : Text) (profile : Store profileSchema) :
    (((kUuidKey, .string uuid) :: scalarPairs print profile : Toml.Table).map Prod.fst).Nodup := by
  rw [List.map_cons, List.nodup_cons]
  refine ⟨?_, nodup_schemaTable⟩
  intro hmem
  obtain ⟨k, hk, hname, -⟩ := mem_fst_scalarPairs hmem
  exact profile_no_uuid k hk hname

/-- The launch entries are not among the scalars. -/
theorem lookup_own (print : Variant → Text) (uuid : Text) (profile : Store profileSchema) :
    ((kUuidKey, .string uuid) :: scalarPairs print profile : Toml.Table).lookup kLaunchEntriesKey =
      none := by
  apply lookup_eq_none
  intro hmem
  rcases List.mem_cons.mp hmem with h | h
  · exact absurd (show kLaunchEntriesKey = kUuidKey from h) (by decide)
  · obtain ⟨-, -, -, hne⟩ := mem_fst_scalarPairs h
    exact hne rfl

/-- The header is seven lines without content. -/
theorem emitHeader_spec :
    Toml.ReadAs (emitHeader "profile") (List.replicate 7 .blank) ∧
      ∀ l ∈ emitHeader "profile", l.all Toml.commentChar = true :=
  ⟨.cons rfl (.cons rfl (.cons rfl (.cons rfl (.cons rfl (.cons rfl (.cons rfl .nil)))))),
    by decide⟩

/-- No line holds a line feed. -/
theorem profileLines_plain (print : Variant → Text) {uuid : Text} (huuid : quotable uuid = true)
    {profile : Store profileSchema} (hentries : QuotableEntries profile) :
    ∀ l ∈ profileLines print uuid profile, '\n' ∉ l := by
  have hall : ∀ l ∈ profileLines print uuid profile, l.all Toml.commentChar = true := by
    intro l hl
    rw [profileLines] at hl
    simp only [List.mem_append, List.mem_cons] at hl
    rcases hl with hl | rfl | rfl | hl | rfl | hl
    · exact emitHeader_spec.2 l hl
    · decide
    · exact (uuidLine_spec huuid).2
    · exact (emitSchemaScalars_spec (profile_writable print profile)).2 l hl
    · rfl
    · exact (entries_spec hentries).2 l hl
  exact fun l hl => Toml.not_mem_of_all (by decide) (hall l hl)

/-- Blanks between the keys and the launch entries. -/
def blankLines (profile : Store profileSchema) : List Toml.Line :=
  .blank :: if (launchEntryRows profile).isEmpty then [.blank] else []

/-- The lines of `[profile]` itself: the identity, the keys, and blanks. -/
def ownLines (print : Variant → Text) (uuid : Text) (profile : Store profileSchema) :
    List Toml.Line :=
  .pair kUuidKey (.string uuid) ::
    ((exportKeys profileSchema [kLaunchEntriesKey]).map (fun k =>
      scalarLine print k (profile.value k.name)) ++ blankLines profile)

/-- The lines of the profile are those of its scalars. -/
theorem linesOf_ownLines (print : Variant → Text) (uuid : Text) (profile : Store profileSchema) :
    Toml.LinesOf (ownLines print uuid profile)
      ((kUuidKey, .string uuid) :: scalarPairs print profile) := by
  obtain ⟨hhead, hpairs⟩ := linesOf_scalarLines print [kLaunchEntriesKey] profile
  have hblank : Toml.LinesOf (blankLines profile) [] := by
    apply Toml.linesOf_blanks
    unfold blankLines
    split_ifs <;> simp
  constructor
  · intro x hx
    rcases List.mem_cons.mp hx with rfl | hx
    · rfl
    · rcases List.mem_append.mp hx with hx | hx
      · exact hhead x hx
      · exact hblank.1 x hx
  · have hpair : Toml.Line.pair? (.pair kUuidKey (.string uuid)) =
        some (kUuidKey, .string uuid) := rfl
    rw [ownLines, List.filterMap_cons_some hpair, List.filterMap_append, hpairs, hblank.2,
      List.append_nil, scalarPairs_eq]

/-- The whole file is read back line by line. -/
theorem readAs_profileLines (print : Variant → Text) {uuid : Text} (huuid : quotable uuid = true)
    {profile : Store profileSchema} (hentries : QuotableEntries profile) :
    Toml.ReadAs (profileLines print uuid profile ++ [[]]) (List.replicate 7 .blank ++
      .header false kProfileTable :: (ownLines print uuid profile ++
        (Toml.tableLines entriesHeader entryLines ((launchEntryRows profile).map entryTable) ++
          [.blank]))) := by
  have hempty : Toml.readFileLine [] = some .blank := rfl
  have htable : Toml.readFileLine "[profile]".toList = some (.header false kProfileTable) := rfl
  have hend := (entries_spec hentries).1.append (.cons hempty .nil)
  have hbody := (emitSchemaScalars_spec (profile_writable print profile)).1.append (List.Forall₂.cons hempty hend)
  have hfile := emitHeader_spec.1.append
    (List.Forall₂.cons htable (List.Forall₂.cons (uuidLine_spec huuid).1 hbody))
  simp only [profileLines, ownLines, blankLines, List.append_assoc, List.cons_append] at hfile ⊢
  exact hfile

/-- **The exported file is read as its table.** -/
theorem readFile_profileLines (print : Variant → Text) {uuid : Text} (huuid : quotable uuid = true)
    {profile : Store profileSchema} (hentries : QuotableEntries profile) :
    Toml.readFile (Toml.unlines (profileLines print uuid profile)) =
      some [(kProfileTable, .table (profileTable print uuid profile))] := by
  have hafter : ∀ t ∈ (launchEntryRows profile).map entryTable, Toml.LinesOf (entryLines t) t :=
    fun t _ => linesOf_entryLines t
  have hnodup : ∀ t ∈ (launchEntryRows profile).map entryTable, (t.map Prod.fst).Nodup := by
    intro t ht
    obtain ⟨row, -, rfl⟩ := List.mem_map.mp ht
    exact nodup_entryTable row
  exact Toml.readFile_nested (by decide) (by decide) (profileLines_plain print huuid hentries)
    (readAs_profileLines print huuid hentries) (by simp) (linesOf_ownLines print uuid profile)
    hafter hnodup (nodup_own print uuid profile) (lookup_own print uuid profile)

/-! ### The table as the import sees it -/

/-- Nested tables leave the other keys. -/
theorem lookup_nested_of_ne {name key : Text} (h : key ≠ name) (t : Toml.Table)
    (ts : List Toml.Table) : (Toml.nested name t ts).lookup key = t.lookup key := by
  unfold Toml.nested
  split_ifs
  · rfl
  · rw [List.lookup_append, lookup_cons_of_ne h, List.lookup_nil, Option.or_none]

/-- They stand under their own name, in the order of the file. -/
theorem lookup_nested_self {name : Text} {t : Toml.Table} (h : t.lookup name = none)
    (ts : List Toml.Table) :
    (Toml.nested name t ts).lookup name = if ts = [] then none else some (.array (ts.map .table)) := by
  unfold Toml.nested
  split_ifs
  · exact h
  · rw [Toml.lookup_append_self h]

section Table

variable (print) (uuid : Text) (profile : Store profileSchema)

/-- No key of the file has a NUL. -/
theorem nulFree_profileTable :
    ∀ key ∈ (profileTable print uuid profile).map Prod.fst, nulFree key = true := by
  intro key hkey
  rcases mem_fst_profileTable hkey with rfl | ⟨k, hk, rfl⟩
  · decide
  · exact nulFree_of_all (by decide) (profile_names k hk).1

/-- The UUID stands in the table. -/
theorem lookup_uuid :
    (profileTable print uuid profile).lookup kUuidKey = some (.string uuid) := by
  rw [profileTable, lookup_nested_of_ne (by decide), List.lookup_cons_self]

variable {k : KeySpec}

/-- So does every value that is written. -/
theorem lookup_profileTable (hk : k ∈ profileSchema.keys) (hname : k.name ≠ kLaunchEntriesKey) :
    (profileTable print uuid profile).lookup k.name = written print (profile.value k.name) := by
  rw [profileTable, lookup_nested_of_ne hname, lookup_cons_of_ne (profile_no_uuid k hk),
    scalarPairs_eq, lookup_schemaTable hk (by simpa using hname)]

/-- So do the launch entries, unless there are none. -/
theorem lookup_entries :
    (profileTable print uuid profile).lookup kLaunchEntriesKey =
      if launchEntryRows profile = [] then none
      else some (.array ((launchEntryRows profile).map fun row => .table (entryTable row))) := by
  rw [profileTable, lookup_nested_self (lookup_own print uuid profile), List.map_map]
  simp only [List.map_eq_nil_iff]
  rfl

end Table

section Parsed

-- the table of the file as a parser keeps it
variable {uuid : Text} {profile : Store profileSchema} {tbl : Toml.Table}
  (htbl : Toml.MapOf (profileTable print uuid profile) tbl)

include htbl

/-- What is read back aliases no key. -/
theorem unaliased_parsed : Unaliased profileSchema [kUuidKey, kLaunchEntriesKey] tbl :=
  unaliased_of_nulFree fun _ hkey =>
    nulFree_profileTable print uuid profile _ (htbl.mem_fst hkey)

theorem uuid_parsed : (tbl.lookup kUuidKey).bind asString = some uuid := by
  obtain ⟨v, hv, hsame⟩ := htbl.same.lookup_some (lookup_uuid print uuid profile)
  rw [hv, Option.bind_some, ← asString_same hsame]
  rfl

/-- The launch entries are an array of the tables that were written. -/
theorem entries_parsed {els : List Toml.Value}
    (hels : tbl.lookup kLaunchEntriesKey = some (.array els)) :
    launchEntryRows profile ≠ [] ∧
      List.Forall₂ (fun row el => ∃ t, el = .table t ∧ Toml.SameTable (entryTable row) t)
        (launchEntryRows profile) els := by
  obtain ⟨v, hv, hsame⟩ := htbl.same.exists_lookup hels
  rw [lookup_entries] at hv
  split_ifs at hv with hempty
  refine ⟨hempty, ?_⟩
  obtain rfl := Option.some.inj hv
  obtain ⟨els', heq, hall⟩ := hsame.exists_array
  obtain rfl := Toml.Value.array.inj heq
  rw [List.forall₂_map_left_iff] at hall
  exact hall.imp fun row el h => h.exists_table

/-- It has no bad entry. -/
theorem not_badLaunchEntry : ¬ BadLaunchEntry tbl := by
  rintro ⟨els, hels, el, hel, hbad⟩
  have hall := (entries_parsed htbl hels).2
  obtain ⟨i, hi, rfl⟩ := List.getElem_of_mem hel
  obtain ⟨t, ht, -⟩ := hall.get (i := i) (by rw [hall.length_eq]; exact hi) hi
  rw [List.get_eq_getElem] at ht
  rw [ht] at hbad
  cases hbad

variable {k : KeySpec}

/-- What the import reads of a key was written, and is of its kind. -/
theorem tomlToVariant_parsed {x : Toml.Value}
    (h : Read profileSchema [kUuidKey, kLaunchEntriesKey] tbl k x) :
    profile.value k.name ≠ .maybeString none ∧
      ∃ y, tomlToVariant x k.type = some y ∧ (k.type ≠ .double → y = profile.value k.name) := by
  obtain ⟨hk, hskip, hlookup⟩ := h
  have hname : k.name ≠ kLaunchEntriesKey := fun h => hskip (by simp [h])
  obtain ⟨z, hz, hsame⟩ := htbl.same.exists_lookup hlookup
  rw [lookup_profileTable print uuid profile hk hname] at hz
  rw [← tomlToVariant_same hsame]
  refine ⟨fun hnone => ?_, tomlToVariant_written (profile_exportable k hk hname)
    (profile.accepted k hk) hz⟩
  rw [hnone] at hz
  cases hz

/-- And no value of the wrong kind. -/
theorem scalarsOutcome_error (before : Store profileSchema) :
    (scalarsOutcome tbl before).error = none := by
  refine (importSchemaScalars_error_iff htbl.nodup (unaliased_parsed htbl) _ _).mpr fun k x h => ?_
  obtain ⟨-, y, hy, -⟩ := tomlToVariant_parsed htbl h
  rw [hy]
  rfl

/-- A key that is no double is put back, unless the file says nothing about it. -/
theorem scalarsOutcome_value (before : Store profileSchema) (hk : k ∈ profileSchema.keys)
    (hname : k.name ≠ kLaunchEntriesKey) (hdouble : k.type ≠ .double) :
    (scalarsOutcome tbl before).settings.getValue k.name =
      if profile.value k.name = .maybeString none then before.value k.name
      else profile.value k.name := by
  have hacc := profile.accepted k hk
  have hok := scalarsOutcome_error htbl before
  have hskip : k.name ∉ [kUuidKey, kLaunchEntriesKey] := by
    simp [hname, profile_no_uuid k hk]
  rcases written_of_accepts print (profile_exportable k hk hname) hacc with hnone | ⟨x, hx⟩
  · rw [if_pos hnone]
    refine (importSchemaScalars_unread htbl.nodup (unaliased_parsed htbl) ?_ _ _ hok).1
    intro k' v hread heq
    obtain ⟨hset, -⟩ := tomlToVariant_parsed htbl hread
    rw [heq] at hset
    exact hset hnone
  · obtain ⟨z, hz, -⟩ := htbl.same.lookup_some
      ((lookup_profileTable print uuid profile hk hname).trans hx)
    obtain ⟨hset, y, hy, hsame⟩ := tomlToVariant_parsed htbl ⟨hk, hskip, hz⟩
    obtain rfl := hsame hdouble
    have hread := (importSchemaScalars_read htbl.nodup (unaliased_parsed htbl) ⟨hk, hskip, hz⟩ hy
      _ _ hok).1
    rw [if_pos hacc] at hread
    rw [if_neg hset]
    exact hread

end Parsed

/-! ### Launch entries -/

/-- An empty color target is the default. -/
def bothAsEmpty (row : List Text) : List Text :=
  if row.getD 7 [] = "both".toList then row.set 7 [] else row

/-- The fields have different names. -/
theorem field_inj :
    ∀ i < 8, ∀ j < 8, kLaunchEntryFields.getD i [] = kLaunchEntryFields.getD j [] → i = j := by decide

/-- A field is read as it was, when it was written. -/
theorem launchEntryField_entryTable (row : List Text) {i : ℕ} (hi : i < 8) :
    launchEntryField (entryTable row) (kLaunchEntryFields.getD i []) =
      if entryFieldWritten row i then cStr (row.getD i []) else [] := by
  unfold launchEntryField
  split_ifs with hwritten
  · have hmem : (kLaunchEntryFields.getD i [], Toml.Value.string (row.getD i [])) ∈ entryTable row :=
      List.mem_map.mpr ⟨i, List.mem_filter.mpr ⟨List.mem_range.mpr hi, hwritten⟩, rfl⟩
    rw [lookup_of_mem (nodup_entryTable row) hmem]
    rfl
  · have hnone : (entryTable row).lookup (kLaunchEntryFields.getD i []) = none := by
      apply lookup_eq_none
      intro hmem
      rw [entryTable, List.map_map] at hmem
      obtain ⟨j, hj, heq⟩ := List.mem_map.mp hmem
      obtain ⟨hrange, hj⟩ := List.mem_filter.mp hj
      obtain rfl := field_inj j (List.mem_range.mp hrange) i hi heq
      exact hwritten hj
    rw [hnone]
    rfl

/-- A row of the right length is its eight fields. -/
theorem exists_fields {row : List Text} (hlen : row.length = 8) :
    ∃ id parent name directory command icon color target,
      row = [id, parent, name, directory, command, icon, color, target] := by
  rcases row with _ | ⟨id, _ | ⟨parent, _ | ⟨name, _ | ⟨directory, _ | ⟨command, _ | ⟨icon,
    _ | ⟨color, _ | ⟨target, _ | _⟩⟩⟩⟩⟩⟩⟩⟩ <;> simp at hlen
  exact ⟨id, parent, name, directory, command, icon, color, target, rfl⟩

/-- An entry is read back with the default target filled in. -/
theorem launchEntry_entryTable {row : List Text} (hlen : row.length = 8)
    (hnul : row.all nulFree = true) : launchEntry (entryTable row) = bothAsEmpty row := by
  have hfields : kLaunchEntryFields = (List.range 8).map fun i => kLaunchEntryFields.getD i [] := by
    decide
  have hlaunch : launchEntry (entryTable row) = (List.range 8).map fun i =>
      if entryFieldWritten row i then cStr (row.getD i []) else [] := by
    rw [launchEntry, hfields, List.map_map]
    apply List.map_congr_left
    intro i hi
    exact launchEntryField_entryTable row (List.mem_range.mp hi)
  rw [hlaunch]
  obtain ⟨id, parent, name, directory, command, icon, color, target, rfl⟩ := exists_fields hlen
  simp only [List.all_cons, Bool.and_eq_true] at hnul
  obtain ⟨h₀, h₁, h₂, h₃, h₄, h₅, h₆, h₇, -⟩ := hnul
  have hcolor : (if !color.isEmpty then color else []) = color := by
    cases color <;> rfl
  have htarget : (if !target.isEmpty && target ≠ "both".toList then target else []) =
      if target = "both".toList then [] else target := by
    by_cases hboth : target = "both".toList
    · simp [hboth]
    · cases target with
      | nil => simp
      | cons c target =>
          rw [if_neg hboth, decide_eq_true hboth]
          rfl
  simp only [List.range_succ, List.range_zero, List.nil_append, List.cons_append, List.map_cons,
    List.map_nil, entryFieldWritten, List.getD_cons_zero, List.getD_cons_succ,
    cStr_of_nulFree, h₀, h₁, h₂, h₃, h₄, h₅, h₆, h₇, bothAsEmpty]
  change [id, parent, name, directory, command, icon, if !color.isEmpty then color else [],
      if !target.isEmpty && target ≠ "both".toList then target else []] =
    if target = "both".toList then [id, parent, name, directory, command, icon, color, []]
    else [id, parent, name, directory, command, icon, color, target]
  rw [hcolor, htarget]
  split_ifs <;> rfl

/-- A field does not depend on the order of the others. -/
theorem launchEntry_same {t u : Toml.Table} (h : Toml.SameTable t u) :
    launchEntry t = launchEntry u := by
  apply List.map_congr_left
  intro field _
  have hfield := h field
  unfold launchEntryField
  generalize t.lookup field = v, u.lookup field = w at hfield
  cases hfield with
  | none => rfl
  | some hsame => rw [Option.bind_some, Option.bind_some, asString_same hsame]

/-! ### Applying the file -/

def kWordCharExceptions : Text := "word-char-exceptions".toList

/-- The word characters are a key of the profile. -/
theorem wordCharExceptions_mem : maybeStr "word-char-exceptions" ∈ profileSchema.keys := by
  simp [profileSchema]

/-- Only one key can be unset. -/
theorem profile_maybeString :
    ∀ k ∈ profileSchema.keys, k.type = .maybeString → k.name = kWordCharExceptions := by decide

/-- The same profile: every key that is no double, and the launch entries up to the spelling of
the default color target. -/
def SameProfile (p r : Store profileSchema) : Prop :=
  (∀ k ∈ profileSchema.keys, k.type ≠ .double → k.name ≠ kLaunchEntriesKey →
    r.value k.name = p.value k.name) ∧
  (launchEntryRows r).map bothAsEmpty = (launchEntryRows p).map bothAsEmpty

/-- The profile has nothing where the file of `p` is silent. -/
def NothingElse (p q : Store profileSchema) : Prop :=
  (p.value kWordCharExceptions = .maybeString none →
    q.value kWordCharExceptions = .maybeString none) ∧
  (launchEntryRows p = [] → launchEntryRows q = [])

/-- Every stored row has eight fields without a NUL. -/
theorem launchEntryRows_spec (p : Store profileSchema) :
    ∀ row ∈ launchEntryRows p, row.length = 8 ∧ row.all nulFree = true := by
  have hty : (p.value kLaunchEntriesKey).hasType (.stringTuples 8) = true :=
    (Bool.and_eq_true_iff.mp (p.accepted launchEntriesKey launchEntriesKey_mem)).1
  unfold launchEntryRows
  cases hvalue : p.value kLaunchEntriesKey with
  | stringTuples rows =>
      intro row hrow
      rw [hvalue] at hty
      simpa using List.all_eq_true.mp hty row hrow
  | _ => simp

/-- The default target is filled in once. -/
theorem bothAsEmpty_idem (row : List Text) : bothAsEmpty (bothAsEmpty row) = bothAsEmpty row := by
  unfold bothAsEmpty
  by_cases h : row.getD 7 [] = "both".toList
  · have hempty : (row.set 7 []).getD 7 [] = [] := by
      rw [List.getD_eq_getElem?_getD, List.getElem?_set, if_pos rfl]
      split_ifs <;> rfl
    rw [if_pos h, hempty, if_neg (by decide)]
  · rw [if_neg h, if_neg h]

/-- The tables of the launch entries. -/
theorem mapM_asTable {rows : List (List Text)} {els : List Toml.Value}
    (h : List.Forall₂ (fun row el => ∃ t, el = .table t ∧ Toml.SameTable (entryTable row) t)
      rows els) :
    ∃ ts, els.mapM asTable = some ts ∧ ts.map launchEntry = rows.map (launchEntry ∘ entryTable) := by
  induction h with
  | nil => exact ⟨[], rfl, rfl⟩
  | cons h _ ih =>
      obtain ⟨t, rfl, hsame⟩ := h
      obtain ⟨ts, hts, hmap⟩ := ih
      refine ⟨t :: ts, by rw [List.mapM_cons, hts]; rfl, ?_⟩
      rw [List.map_cons, List.map_cons, hmap, ← launchEntry_same hsame]
      rfl

section Outcome

-- the import of the table of `p`, as a parser keeps it, over `q`
variable (inPath : String) {uuid : Text} {p : Store profileSchema} (q : Store profileSchema)
  {tbl : Toml.Table} (htbl : Toml.MapOf (profileTable print uuid p) tbl)

include htbl

/-- The entries are read back in their order. -/
theorem writtenEntries_parsed :
    (launchEntryRows p = [] → writtenEntries tbl = none) ∧
      (launchEntryRows p ≠ [] → ∃ entries, writtenEntries tbl = some entries ∧
        entries.map launchEntry = (launchEntryRows p).map bothAsEmpty) := by
  have hentries := lookup_entries print uuid p
  constructor
  · intro hempty
    rw [if_pos hempty] at hentries
    rw [writtenEntries, htbl.same.lookup_none hentries]
  · intro hne
    rw [if_neg hne] at hentries
    obtain ⟨v, hv, hsame⟩ := htbl.same.lookup_some hentries
    obtain ⟨els, rfl, -⟩ := hsame.exists_array
    obtain ⟨ts, hts, hmap⟩ := mapM_asTable (entries_parsed htbl hv).2
    refine ⟨ts, by rw [writtenEntries, hv]; exact hts, hmap.trans ?_⟩
    apply List.map_congr_left
    intro row hrow
    obtain ⟨hlen, hnul⟩ := launchEntryRows_spec p row hrow
    exact launchEntry_entryTable hlen hnul

/-- The import of an export succeeds. -/
theorem reapplied_error : (importProfileTable inPath tbl q).error = none := by
  rw [importProfileTable_ok inPath (not_badLaunchEntry htbl) (scalarsOutcome_error htbl q)]
  cases writtenEntries tbl with
  | none => exact scalarsOutcome_error htbl q
  | some entries => exact scalarsOutcome_error htbl q

/-- Every value is that of the export, unless it was unset. -/
theorem reapplied_value {k : KeySpec} (hk : k ∈ profileSchema.keys)
    (hname : k.name ≠ kLaunchEntriesKey) (hdouble : k.type ≠ .double) :
    (importProfileTable inPath tbl q).settings.current.value k.name =
      if p.value k.name = .maybeString none then q.value k.name else p.value k.name := by
  rw [← scalarsOutcome_value htbl q hk hname hdouble]
  exact (importProfileTable_of_ne inPath (not_badLaunchEntry htbl) (scalarsOutcome_error htbl q)
    hname).1

/-- So are the entries, unless there were none. -/
theorem reapplied_rows :
    launchEntryRows (importProfileTable inPath tbl q).settings.current =
      if launchEntryRows p = [] then launchEntryRows q else (launchEntryRows p).map bothAsEmpty := by
  have hok := scalarsOutcome_error htbl q
  have hkept := (scalarsOutcome_entries htbl.nodup (unaliased_parsed htbl) hok).1
  obtain ⟨hnone, hsome⟩ := writtenEntries_parsed htbl
  rw [importProfileTable_ok inPath (not_badLaunchEntry htbl) hok]
  split_ifs with hempty
  · have hvalue : (scalarsOutcome tbl q).settings.current.value kLaunchEntriesKey =
        q.value kLaunchEntriesKey := hkept
    rw [hnone hempty]
    unfold launchEntryRows
    simp only [hvalue]
  · obtain ⟨entries, hentries, hrows⟩ := hsome hempty
    have hset := Store.setValue_self (scalarsOutcome tbl q).settings.current launchEntriesKey_mem
      (.stringTuples (entries.map launchEntry))
    rw [if_pos (launchEntriesKey_accepts _), hrows] at hset
    have hvalue : ((scalarsOutcome tbl q).settings.setValue kLaunchEntriesKey
        (.stringTuples ((launchEntryRows p).map bothAsEmpty))).current.value kLaunchEntriesKey =
        .stringTuples ((launchEntryRows p).map bothAsEmpty) := hset
    rw [hentries]
    unfold launchEntryRows
    simp only
    rw [← launchEntryRows.eq_1 p, hrows, hvalue]

/-- **The import of the table gives the profile back exactly when the profile had nothing where
the file is silent.** -/
theorem sameProfile_reapplied_iff :
    SameProfile p (importProfileTable inPath tbl q).settings.current ↔ NothingElse p q := by
  have hword : (importProfileTable inPath tbl q).settings.current.value kWordCharExceptions =
      if p.value kWordCharExceptions = .maybeString none then q.value kWordCharExceptions
      else p.value kWordCharExceptions :=
    reapplied_value inPath q htbl wordCharExceptions_mem (by decide) (by decide)
  have hrows := reapplied_rows inPath q htbl
  constructor
  · rintro ⟨hvalues, hentries⟩
    constructor
    · intro hnone
      have hsame : (importProfileTable inPath tbl q).settings.current.value kWordCharExceptions =
          p.value kWordCharExceptions := hvalues _ wordCharExceptions_mem (by decide) (by decide)
      rw [hword, if_pos hnone] at hsame
      exact hsame.trans hnone
    · intro hempty
      rw [hrows, if_pos hempty, hempty] at hentries
      simpa using hentries
  · rintro ⟨hunset, hnoEntries⟩
    constructor
    · intro k hk hdouble hname
      rw [reapplied_value inPath q htbl hk hname hdouble]
      split_ifs with hnone
      · -- the only key that can be unset
        have hty : (p.value k.name).hasType k.type = true :=
          (Bool.and_eq_true_iff.mp (p.accepted k hk)).1
        have hmaybe : k.type = .maybeString := by
          rw [hnone] at hty
          cases htype : k.type with
          | maybeString => rfl
          | _ =>
              rw [htype] at hty
              cases hty
        rw [profile_maybeString k hk hmaybe] at hnone ⊢
        rw [hunset hnone, hnone]
      · rfl
    · rw [hrows]
      split_ifs with hempty
      · rw [hempty, hnoEntries hempty]
      · rw [List.map_map]
        exact List.map_congr_left fun row _ => bothAsEmpty_idem row

end Outcome

section Parser

variable {parse : Bytes → Parsed} (hparse : Toml.AgreesWithFileReader TomlFile.root parse)
  (inPath : String) {uuid : Text}

include hparse

/-- The exported file has its table. -/
theorem parse_profileLines (print : Variant → Text) (huuid : quotable uuid = true)
    {p : Store profileSchema} (hentries : QuotableEntries p) :
    ∃ file tbl, parse (utf8 (Toml.unlines (profileLines print uuid p))) = .ok file ∧
      file.tableAt "profile" = some tbl ∧ Toml.MapOf (profileTable print uuid p) tbl := by
  obtain ⟨file, hfile, hroot⟩ := hparse _ _ (readFile_profileLines print huuid hentries)
  obtain ⟨tbl, htbl, hmap⟩ := TomlFile.exists_tableAt hroot
    (show [(kProfileTable, Toml.Value.table (profileTable print uuid p))].lookup "profile".toList =
      some (.table (profileTable print uuid p)) from List.lookup_cons_self)
  exact ⟨file, tbl, hfile, htbl, hmap⟩

/-- The import of the exported file is that of its table; the whole state after it. -/
theorem profileTomlImport_export (huuid : quotable uuid = true) (d : Dconf)
    {p : Store profileSchema} (hentries : QuotableEntries p) {text : Text}
    (htext : profileTomlExport print uuid p = some text) :
    ∃ tbl, Toml.MapOf (profileTable print uuid p) tbl ∧
      (profileTomlImport inPath (parse (utf8 text)) d).error = none ∧
      (profileTomlImport inPath (parse (utf8 text)) d).dconf =
        { d with
          profile := Function.update d.profile uuid
            (importProfileTable inPath tbl (d.profile uuid)).settings.current
          profilesList := ensureUuidInProfilesList uuid d.profilesList } := by
  rw [profileTomlExport] at htext
  split_ifs at htext
  obtain rfl := Option.some.inj htext
  obtain ⟨file, tbl, hfile, htbl, hmap⟩ := parse_profileLines hparse print huuid hentries
  have hcstr : cStr uuid = uuid := cStr_of_nulFree (nulFree_of_all (by decide) huuid)
  have herror := reapplied_error inPath (d.profile uuid) hmap
  refine ⟨tbl, hmap, ?_⟩
  rw [hfile]
  simp only [profileTomlImport, htbl, uuid_parsed hmap, hcstr, herror]
  exact ⟨trivial, rfl⟩

variable (huuid : controlFree uuid = true) (d : Dconf) {p : Store profileSchema}
  (hentries : ControlFreeEntries p) {text : Text} (htext : profileTomlExport print uuid p = some text)

include huuid hentries htext

/-- **An exported profile is recreated exactly when the file leaves out nothing that is set**: when
`p` has no word characters the profile before had none, and when `p` has no launch entries the
profile before had none. -/
theorem reapply_iff :
    (profileTomlImport inPath (parse (utf8 text)) d).error = none ∧
        SameProfile p ((profileTomlImport inPath (parse (utf8 text)) d).dconf.profile uuid) ↔
      NothingElse p (d.profile uuid) := by
  obtain ⟨tbl, hmap, hok, hdconf⟩ := profileTomlImport_export hparse inPath
    (quotable_of_controlFree huuid) d hentries.quotable htext
  rw [hdconf]
  simp only [Function.update_self]
  rw [sameProfile_reapplied_iff inPath (d.profile uuid) hmap]
  exact and_iff_right hok

end Parser

end Format

/-! ### A profile that keeps its word characters -/

/-- The UUID of the default profile. -/
def defaultUuid : Text := "b1dcc9dd-5262-4d8d-a863-c897e6d979b9".toList

/-- A profile with every key at its default. -/
def defaultProfile : Store profileSchema := .ofDefaults _ profileSchema_defaults

/-- The default profile, with word characters. -/
def wordProfile : Store profileSchema :=
  defaultProfile.setValue kWordCharExceptions (.maybeString (some "-".toList))

/-- The settings with this as the default profile. -/
def dconfWith (profile : Store profileSchema) : Dconf :=
  { Dconf.fresh with profile := fun _ => profile }

/-- The default profile has the default values. -/
theorem defaultProfile_value {k : KeySpec} (hk : k ∈ profileSchema.keys) :
    defaultProfile.value k.name = k.default := Store.ofDefaults_value _ hk

/-- Its word characters are unset. -/
theorem defaultProfile_words : defaultProfile.value kWordCharExceptions = .maybeString none :=
  defaultProfile_value wordCharExceptions_mem

theorem defaultProfile_rows : launchEntryRows defaultProfile = [] := by
  have hvalue : defaultProfile.value kLaunchEntriesKey = .stringTuples [] :=
    defaultProfile_value launchEntriesKey_mem
  rw [launchEntryRows, hvalue]

/-- The other profile has the minus as a word character. -/
theorem wordProfile_words :
    wordProfile.value kWordCharExceptions = .maybeString (some "-".toList) := by
  have hset := defaultProfile.setValue_self wordCharExceptions_mem (.maybeString (some "-".toList))
  rw [if_pos (by decide)] at hset
  exact hset

/-- There is no control character to write. -/
theorem defaultProfile_controlFree : ControlFreeEntries defaultProfile := by
  intro row hrow
  rw [defaultProfile_rows] at hrow
  cases hrow

/-- The file of the default profile. -/
def defaultFile : Text := Toml.unlines (profileLines (fun _ => []) defaultUuid defaultProfile)

/-- The exported file of the default profile. -/
theorem defaultFile_eq :
    profileTomlExport (fun _ => []) defaultUuid defaultProfile = some defaultFile := if_neg (by decide)

/-- Importing the file of the default profile leaves word characters that were set. -/
theorem reapply_keeps_words :
    profileTomlExport (fun _ => []) defaultUuid defaultProfile = some defaultFile ∧
      (profileTomlImport "p.toml" (parseFile (utf8 defaultFile)) (dconfWith wordProfile)).error =
        none ∧
      ¬ SameProfile defaultProfile
        ((profileTomlImport "p.toml" (parseFile (utf8 defaultFile))
          (dconfWith wordProfile)).dconf.profile defaultUuid) := by
  obtain ⟨tbl, hmap, hok, hdconf⟩ := profileTomlImport_export agreesWithFileReader_parseFile
    "p.toml" (by decide) (dconfWith wordProfile) defaultProfile_controlFree.quotable defaultFile_eq
  refine ⟨defaultFile_eq, hok, ?_⟩
  rw [hdconf]
  simp only [Function.update_self]
  rw [sameProfile_reapplied_iff "p.toml" _ hmap]
  rintro ⟨hwords, -⟩
  have hkept : wordProfile.value kWordCharExceptions = .maybeString none :=
    hwords defaultProfile_words
  rw [wordProfile_words] at hkept
  cases hkept

/-- On a profile at its defaults the file of the default profile changes nothing. -/
theorem reapply_default :
    (profileTomlImport "p.toml" (parseFile (utf8 defaultFile)) (dconfWith defaultProfile)).error =
        none ∧
      SameProfile defaultProfile
        ((profileTomlImport "p.toml" (parseFile (utf8 defaultFile))
          (dconfWith defaultProfile)).dconf.profile defaultUuid) :=
  (reapply_iff agreesWithFileReader_parseFile "p.toml" (by decide) (dconfWith defaultProfile)
    defaultProfile_controlFree defaultFile_eq).mpr ⟨id, id⟩

end Axan.LinuxToml
