import Axan.LaunchEntryWire.Import
import Axan.LaunchEntryWire.SettingsJson

/-!
# From `settings.json` to the interchange file: `AxanProfileToml.cpp`

The exporter reads the startup tree from the settings as they are on disk.

* `exportEntry`, `startupEntries`, `exportStartupSessions` — the source.
* `importRows_exported` — the rows that are imported from an exported tree, one for each entry.
* `ComesBack` — an entry of the settings as a session again.
* `unknownKind_comes_back` — **an entry of unknown kind comes back as a session**, whether it is
  exported and imported or loaded and saved. Launch and import pass over such entries, but neither
  of the two writers writes the kind.

The table of glyph names is a parameter.
-/

namespace Axan.LaunchEntryWire

open Axan.Base

/-! ### The fields of an object -/

/-- `isObject` -/
def isObject : Json → Bool
  | .object _ => true
  | _ => false

/-- Source: `stripBraces` -/
def stripBraces (guid : List Char) : List Char :=
  if 2 ≤ guid.length && guid.head? = some '{' && guid.getLast? = some '}' then
    (guid.drop 1).dropLast
  else guid

/-- Source: `guidEqual` -/
def guidEqual (a b : List Char) : Bool :=
  (stripBraces a).map Char.toLower = (stripBraces b).map Char.toLower

/-- Source: `lookupProfileName` -/
def lookupProfileName (root : Json) (bareGuid : List Char) : List Char :=
  match (root.find "profiles").bind fun profiles => profiles.find "list" with
  | some (.array profiles) =>
      match profiles.find? fun p => isObject p && guidEqual (jsonStr p "guid") bareGuid with
      | some profile => jsonStr profile "name"
      | none => []
  | _ => []

/-! ### Icons -/

/-- The glyph a native icon names. Source: `GlyphNames::ResolveCodepoint` -/
abbrev GlyphNames := WString → Option WChar

/-- Source: `GlyphNames::AliasFor` -/
def aliasFor (codepoint : WChar) : WString :=
  match kBuiltins.find? fun b => b.2 = codepoint with
  | some b => b.1
  | none => []

/-- Source: `IconRegistry::NativeToPortable` -/
def nativeToPortable (nativeIcon : WString) : WString :=
  match nativeIcon with
  | [glyph] => if (aliasFor glyph).isEmpty then nativeIcon else kBuiltinPrefix ++ aliasFor glyph
  | _ => nativeIcon

/-- Source: `ExportIcon` -/
def exportIcon (resolveCodepoint : GlyphNames) (nativeIcon : WString) : WString :=
  if 1 < nativeIcon.length then
    match resolveCodepoint nativeIcon with
    | some codepoint =>
        if (aliasFor codepoint).isEmpty then nativeToPortable nativeIcon
        else kBuiltinPrefix ++ aliasFor codepoint
    | none => nativeToPortable nativeIcon
  else nativeToPortable nativeIcon

/-! ### The exporter -/

/-- Source: `buildStartupSessionsToml`, one entry -/
def exportEntry (resolveCodepoint : GlyphNames) (root e : Json) : Entry :=
  let field := fun key : JsonKey => jsonStr e key.text
  let entry : Entry := { id := field .id, parentId := field .parent, kind := field .kind }
  if entry.isSeparator then
    let height :=
      match e.find JsonKey.height.text with
      | some (.int n) => Double.ofInt n
      | some (.real x) => x
      | _ => .finite 0
    let collapsed :=
      match e.find JsonKey.collapsed.text with
      | some (.bool b) => b
      | _ => false
    { entry with
      style := field .style
      placement := field .placement
      height := normalizeSeparatorHeight height
      name := field .name
      collapsed }
  else
    let profile := stripBraces (field .profile)
    { entry with
      profile
      profileName := if profile.isEmpty then [] else lookupProfileName root profile
      name := field .name
      directory := field .directory
      command := field .command
      icon := utf16Decode (exportIcon resolveCodepoint (utf16 (field .icon)))
      color := field .color
      colorTarget := field .colorTarget
      hoist := utf16Decode (hoistFromJson (e.find JsonKey.hoist.text)) }

/-- Source: `JsonKey::StartupSessions` -/
def startupSessionsKey : String := "startupSessions"

/-- The entries of the settings. Source: `buildStartupSessionsToml`, up to the text -/
def startupEntries (resolveCodepoint : GlyphNames) (root : Json) : List Entry :=
  match root.find startupSessionsKey with
  | some (.array es) => (es.filter isObject).map (exportEntry resolveCodepoint root)
  | _ => []

/-- Source: `buildStartupSessionsToml` -/
def exportStartupSessions (resolveCodepoint : GlyphNames) (root : Json) : Bytes :=
  buildStartupSessionsToml (startupEntries resolveCodepoint root)

/-! ### What is exported is canonical -/

/-- A hoist value that is read is in canonical form. -/
theorem normalize_hoistFromJson (value : Option Json) :
    HoistRule.normalize (hoistFromJson value) = hoistFromJson value := by
  have hformat : ∀ o : HoistRule.Override, HoistRule.parse (HoistRule.format o) = o →
      HoistRule.normalize (HoistRule.format o) = HoistRule.format o := by
    intro o ho
    unfold HoistRule.normalize
    rw [ho]
  unfold hoistFromJson
  split
  · exact hformat _ (HoistRule.parse_normalize _)
  · exact hformat _ (HoistRule.parse_format_fromMask _)
  · decide

/-- A canonical hoist value is an ASCII text. -/
theorem exists_of_normalize_eq {h : WString} (hc : HoistRule.normalize h = h) :
    ∃ cs, h = utf16 cs := by
  rcases HoistRule.canonical_cases hc with h0 | h0 | ⟨ns, -, hmem, h0⟩
  · exact ⟨[], h0⟩
  · exact ⟨"never".toList, h0.trans (by decide)⟩
  · refine ⟨[','].intercalate (ns.map String.toList), ?_⟩
    rw [h0, utf16_intercalate, List.map_map]
    congr 1
    apply List.map_congr_left
    intro n hn
    exact (utf16_of_ascii (HoistRule.names_plain (hmem n hn)).2.2).symm

/-- And so is the one that is exported. -/
theorem normalize_hoist_exportEntry (resolveCodepoint : GlyphNames) (root e : Json) :
    HoistRule.normalize (utf16 (exportEntry resolveCodepoint root e).hoist) =
      utf16 (exportEntry resolveCodepoint root e).hoist := by
  have hcanonical := normalize_hoistFromJson (e.find JsonKey.hoist.text)
  obtain ⟨cs, hcs⟩ := exists_of_normalize_eq hcanonical
  unfold exportEntry
  simp only
  split
  · have hnil : HoistRule.normalize (utf16 []) = utf16 [] := by decide
    exact hnil
  · simp only [hcs, utf16Decode_utf16]
    rw [← hcs, hcanonical]

/-! ### The imported rows -/

/-- An entry as it is read back. -/
def readBack (e : Entry) : Entry := if e.isSeparator then separatorRead e else sessionRead e

/-- An entry that is written is read back. -/
theorem fromTomlTable_pairsOf {e : Entry}
    (h : HoistRule.normalize (utf16 e.hoist) = utf16 e.hoist) :
    fromTomlTable (pairsOf e) = readBack e := by
  unfold readBack
  cases hs : e.isSeparator with
  | true => exact fromTomlTable_separator hs
  | false => exact fromTomlTable_session hs h

/-- What is read back has a known kind. -/
theorem knownKind_readBack (e : Entry) : (readBack e).knownKind = true := by
  unfold readBack
  split_ifs
  · rfl
  · rfl

theorem id_readBack (e : Entry) : (readBack e).id = e.id := by
  unfold readBack
  split_ifs
  · rfl
  · rfl

/-- **One row for each entry**: no kind that is read back is unknown. -/
theorem importRows_exported (machine : Machine) (fresh : ℕ → WString) {entries : List Entry}
    (h : ∀ e ∈ entries, HoistRule.normalize (utf16 e.hoist) = utf16 e.hoist) (drawn : ℕ) :
    List.Forall₂ (fun e row => ∃ id, (e.id ≠ [] → id = utf16 e.id) ∧
        row = importRow machine (readBack e) id) entries
      (importRows machine fresh (entries.map fun e => .table (pairsOf e)) drawn) := by
  apply importRows_forall₂
  intro e he
  rw [fromTomlTable_pairsOf (h e he)]
  exact ⟨id_readBack e, knownKind_readBack e, fun id heq => ⟨id, heq, rfl⟩⟩

/-- The partner of an element stands in its place. -/
theorem forall₂_append_cons {α β : Type} {R : α → β → Prop} {l l' : List α} {a : α} {rows : List β}
    (h : List.Forall₂ R (l ++ a :: l') rows) :
    ∃ front row behind, rows = front ++ row :: behind ∧ front.length = l.length ∧ R a row := by
  induction l generalizing rows with
  | nil =>
      cases h with
      | cons hrow hrest => exact ⟨[], _, _, rfl, rfl, hrow⟩
  | cons b l ih =>
      cases h with
      | cons hrow hrest =>
          obtain ⟨front, row, behind, rfl, hlen, hR⟩ := ih hrest
          exact ⟨_ :: front, row, behind, rfl, by simp [hlen], hR⟩

/-! ### Entries of unknown kind -/

/-- A kind that launch and import pass over. -/
def UnknownKind (kind : List Char) : Prop :=
  kind ≠ [] ∧ kind ≠ kindSession ∧ kind ≠ kindSeparator

/-- An entry of the settings is a session again, in the same place of the tree and with the same
command. -/
structure ComesBack (e : Json) (row : LaunchEntry) : Prop where
  kind : row.kind = []
  id : jsonStr e JsonKey.id.text ≠ [] → row.id = utf16 (jsonStr e JsonKey.id.text)
  parentId : row.parentId = utf16 (jsonStr e JsonKey.parent.text)
  name : row.name = utf16 (jsonStr e JsonKey.name.text)
  directory : row.directory = utf16 (jsonStr e JsonKey.directory.text)
  command : row.command = utf16 (jsonStr e JsonKey.command.text)

/-- The fields of an exported entry that is no separator. -/
theorem exportEntry_session (resolveCodepoint : GlyphNames) (root : Json) {e : Json}
    (hkind : jsonStr e JsonKey.kind.text ≠ kindSeparator) :
    (exportEntry resolveCodepoint root e).isSeparator = false ∧
      (exportEntry resolveCodepoint root e).id = jsonStr e JsonKey.id.text ∧
      (exportEntry resolveCodepoint root e).parentId = jsonStr e JsonKey.parent.text ∧
      (exportEntry resolveCodepoint root e).name = jsonStr e JsonKey.name.text ∧
      (exportEntry resolveCodepoint root e).directory = jsonStr e JsonKey.directory.text ∧
      (exportEntry resolveCodepoint root e).command = jsonStr e JsonKey.command.text := by
  have hs : decide (jsonStr e JsonKey.kind.text = kindSeparator) = false := decide_eq_false hkind
  unfold exportEntry
  simp only
  rw [if_neg (by simpa [Entry.isSeparator] using hkind)]
  exact ⟨hs, rfl, rfl, rfl, rfl, rfl⟩

/-- The row of an entry that is exported and no separator. -/
theorem comesBack_importRow (machine : Machine) (resolveCodepoint : GlyphNames) (root : Json)
    {e : Json} (hkind : jsonStr e JsonKey.kind.text ≠ kindSeparator) {id : WString}
    (hid : (exportEntry resolveCodepoint root e).id ≠ [] →
      id = utf16 (exportEntry resolveCodepoint root e).id) :
    ComesBack e (importRow machine (readBack (exportEntry resolveCodepoint root e)) id) := by
  obtain ⟨hs, hentryId, hparent, hname, hdirectory, hcommand⟩ :=
    exportEntry_session resolveCodepoint root hkind
  have hread : readBack (exportEntry resolveCodepoint root e) =
      sessionRead (exportEntry resolveCodepoint root e) := by
    unfold readBack
    rw [if_neg (by simp [hs])]
  rw [hentryId] at hid
  rw [hread, importRow, if_neg (by exact Bool.false_ne_true)]
  exact ⟨rfl, hid, congrArg utf16 hparent, congrArg utf16 hname, congrArg utf16 hdirectory,
    congrArg utf16 hcommand⟩

/-- An entry of unknown kind that is loaded and saved. -/
theorem comesBack_canonical {e : Json} {m : LaunchEntry}
    (hkind : UnknownKind (jsonStr e JsonKey.kind.text)) (hload : fromJson e = .ok m) :
    ComesBack e (canonical m) := by
  have hread := readFrom_of_fromJson hload
  have hs : m.isSeparator = false := by
    unfold LaunchEntry.isSeparator
    rw [hread.kind]
    apply decide_eq_false
    intro h
    apply hkind.2.2
    exact eq_of_utf16_eq (List.all_eq_true.mp (by decide)) h
  unfold canonical
  rw [if_neg (by simp [hs])]
  refine ⟨rfl, fun _ => ?_, ?_, ?_, ?_, ?_⟩
  · exact (congrArg clean hread.id).trans (clean_utf16 _)
  · exact (congrArg clean hread.parentId).trans (clean_utf16 _)
  · exact (congrArg clean hread.name).trans (clean_utf16 _)
  · exact (congrArg clean hread.directory).trans (clean_utf16 _)
  · exact (congrArg clean hread.command).trans (clean_utf16 _)

/-- **An entry of unknown kind comes back as a session**: in its place after the tree is exported
and imported, when the file can be read; and after it is loaded and saved, when it loads. -/
theorem unknownKind_comes_back {parse : Bytes → Option Toml.Table}
    (hparse : Toml.AgreesWithReader parse) (machine : Machine) (fresh : ℕ → WString)
    (current : List LaunchEntry) (resolveCodepoint : GlyphNames) {root e : Json}
    {before after : List Json}
    (hroot : root.find startupSessionsKey = some (.array (before ++ e :: after)))
    (hobject : isObject e = true) (hkind : UnknownKind (jsonStr e JsonKey.kind.text)) :
    ((∀ entry ∈ startupEntries resolveCodepoint root, entry.Plain) →
      ∃ front row behind,
        importFromToml parse machine fresh (some (exportStartupSessions resolveCodepoint root))
            current = (true, front ++ row :: behind) ∧
          front.length = (before.filter isObject).length ∧ ComesBack e row) ∧
      ∀ m, fromJson e = .ok m → ∃ m', fromJson (toJson m) = .ok m' ∧ ComesBack e m' := by
  refine ⟨fun hplain => ?_, fun m hload => ?_⟩
  · have hentries : startupEntries resolveCodepoint root =
        (before.filter isObject).map (exportEntry resolveCodepoint root) ++
          exportEntry resolveCodepoint root e ::
            (after.filter isObject).map (exportEntry resolveCodepoint root) := by
      unfold startupEntries
      rw [hroot]
      simp only [List.filter_append, List.filter_cons_of_pos hobject, List.map_append,
        List.map_cons]
    have hne : startupEntries resolveCodepoint root ≠ [] := by simp [hentries]
    have hhoist : ∀ entry ∈ startupEntries resolveCodepoint root,
        HoistRule.normalize (utf16 entry.hoist) = utf16 entry.hoist := by
      intro entry hentry
      have hmap : ∃ x, entry = exportEntry resolveCodepoint root x := by
        rw [hentries, List.mem_append, List.mem_cons, List.mem_map, List.mem_map] at hentry
        rcases hentry with ⟨x, -, rfl⟩ | rfl | ⟨x, -, rfl⟩
        · exact ⟨x, rfl⟩
        · exact ⟨e, rfl⟩
        · exact ⟨x, rfl⟩
      obtain ⟨x, rfl⟩ := hmap
      exact normalize_hoist_exportEntry resolveCodepoint root x
    have hrows := importRows_exported machine fresh hhoist 0
    have himport := importFromToml_build hparse machine fresh current hplain hne
      hrows.length_eq.symm
    rw [hentries] at hrows
    obtain ⟨front, row, behind, hsplit, hlen, id, hid, hrow⟩ := forall₂_append_cons hrows
    refine ⟨front, row, behind, ?_, by simpa using hlen, ?_⟩
    · rw [exportStartupSessions, himport, ← hsplit, hentries]
    · rw [hrow]
      exact comesBack_importRow machine resolveCodepoint root hkind.2.2 hid
  · exact ⟨canonical m, fromJson_toJson_eq m, comesBack_canonical hkind hload⟩

/-- A session. -/
def shellObject : Json := .object [("id", .string "a".toList), ("name", .string "shell".toList)]

/-- An entry of a kind from elsewhere. -/
def folderObject : Json :=
  .object [("id", .string "b".toList), ("kind", .string "folder".toList),
    ("name", .string "logs".toList)]

/-- The settings with these two. -/
def folderTree : Json := .object [(startupSessionsKey, .array [shellObject, folderObject])]

/-- The tree with the folder has no U+007F. -/
theorem plain_folderTree : ∀ entry ∈ startupEntries (fun _ => none) folderTree, entry.Plain := by
  have hentries : startupEntries (fun _ => none) folderTree =
      [{ id := "a".toList, name := "shell".toList },
        { id := "b".toList, kind := "folder".toList, name := "logs".toList }] := by
    decide
  intro entry hentry
  rw [hentries] at hentry
  rw [Entry.Plain]
  rcases List.mem_cons.mp hentry with rfl | hentry
  · decide
  · rw [List.mem_singleton.mp hentry]
    decide

theorem folder_comes_back :
    (∃ front row behind,
        importFromToml Toml.parseWithReader oneProfile (fun _ => [])
            (some (exportStartupSessions (fun _ => none) folderTree)) [] =
          (true, front ++ row :: behind) ∧
        front.length = 1 ∧ ComesBack folderObject row) ∧
      ∃ m', fromJson (toJson { id := L "b", kind := L "folder", name := L "logs" }) = .ok m' ∧
        ComesBack folderObject m' :=
  have h := unknownKind_comes_back Toml.agreesWithReader_parseWithReader oneProfile (fun _ => []) []
    (fun _ => none)
    (show folderTree.find startupSessionsKey = some (.array ([shellObject] ++ folderObject :: []))
      from rfl)
    (show isObject folderObject = true from rfl) (by unfold UnknownKind; decide)
  ⟨h.1 plain_folderTree, h.2 _ (by decide)⟩

/-- The folder is imported as a session, and saved as one. -/
theorem folder_is_session :
    UnknownKind (jsonStr folderObject JsonKey.kind.text) ∧
      importFromToml Toml.parseWithReader oneProfile (fun _ => [])
          (some (exportStartupSessions (fun _ => none) folderTree)) [] =
        (true, [{ id := L "a", name := L "shell" }, { id := L "b", name := L "logs" }]) ∧
      fromJson folderObject = .ok { id := L "b", kind := L "folder", name := L "logs" } ∧
      fromJson (toJson { id := L "b", kind := L "folder", name := L "logs" }) =
        .ok { id := L "b", name := L "logs" } := by
  refine ⟨by unfold UnknownKind; decide, ?_, by decide, by decide⟩
  rw [exportStartupSessions,
    importFromToml_parsed Toml.agreesWithReader_parseWithReader _ _ _ plain_folderTree]
  decide

end Axan.LaunchEntryWire
