import Axan.Base.TomlTables
import Axan.LinuxToml.Scalars

/-!
# The settings and the keybindings as files

What `axan_settings_toml_export` and `axan_keybindings_toml_export` write, and what the imports make
of it, over any state of the settings.

* `settingsTomlExport`, `keybindingsTomlExport` — the files.
* `Overlaid` — each value of one store where it is set, and of another where it is not.
* `settings_reapplied` — **the file of the settings brings back every value that is set**, and the
  default profile, but not the list; a second import reports nothing.
* `keybindings_reapplied` — **the file of the keybindings brings back all of them.**
-/

namespace Axan.LinuxToml

open Axan.Base Axan.Base.Settings

section Format

variable (print : Variant → Text)

/-! ### The files -/

/-- Source: `axan_settings_toml_export` -/
def settingsLines (d : Dconf) : List Text :=
  emitHeader "settings" ++ ("[settings]".toList :: (emitSchemaScalars print [] d.settings ++
    ([] :: "[profiles]".toList :: emitSchemaScalars print [kProfilesListListKey] d.profilesList)))

def settingsTomlExport (d : Dconf) : Text := Toml.unlines (settingsLines print d)

/-- Source: `axan_keybindings_toml_export` -/
def keybindingsLines (d : Dconf) : List Text :=
  emitHeader "keybindings" ++
    ("[keybindings]".toList :: emitSchemaScalars print [] d.keybindings)

def keybindingsTomlExport (d : Dconf) : Text := Toml.unlines (keybindingsLines print d)

/-! ### A table over any state -/

section Overlay

variable {S : Schema} {skipKeys : List Text}

/-- The keys that are read have the values of `settings` where they are set; the others, and the
keys that are left out, have the values that were there. -/
def Overlaid (skipKeys : List Text) (settings before after : Store S) : Prop :=
  ∀ k ∈ S.keys, after.value k.name =
    if k.name ∉ skipKeys ∧ isSet (settings.value k.name) = true then settings.value k.name
    else before.value k.name

variable (hplain : ∀ k ∈ S.keys, k.name ∉ skipKeys → KeyPlain k) (settings : Store S)
  {tbl : Toml.Table} (htbl : Toml.MapOf (schemaTable print skipKeys settings) tbl)

include hplain htbl

/-- The import of the table goes through, and lays the values over those that were there. -/
theorem overlaid_of_mapOf (before : Store S) (changedKeys : List Text) :
    let o := importSchemaScalars skipKeys tbl (.delay before) changedKeys
    o.error = none ∧ Overlaid skipKeys settings before o.settings.current := by
  have halias := unaliased_of_mapOf hplain settings htbl
  have hok := importSchemaScalars_mapOf_error hplain settings htbl (.delay before) changedKeys
  refine ⟨hok, fun k hk => ?_⟩
  split_ifs with hset
  · obtain ⟨hskip, hset⟩ := hset
    obtain ⟨x, hpair⟩ := exists_read_of_isSet hplain settings htbl hk hskip hset
    have hvalue := (importSchemaScalars_read htbl.nodup halias hpair
      (tomlToVariant_of_read hplain settings htbl hpair).2 _ _ hok).1
    rwa [if_pos (settings.accepted k hk)] at hvalue
  · refine (importSchemaScalars_unread htbl.nodup halias ?_ _ _ hok).1
    intro k' x hread heq
    have hset' := (tomlToVariant_of_read hplain settings htbl hread).1
    rw [heq] at hset'
    exact hset ⟨heq ▸ hread.2.1, hset'⟩

/-- The same table over what was laid there changes nothing. -/
theorem again_of_mapOf {before after : Store S} (h : Overlaid skipKeys settings before after)
    (changedKeys : List Text) :
    importSchemaScalars skipKeys tbl (.delay after) changedKeys =
      ⟨.delay after, changedKeys, none⟩ := by
  apply importSchemaScalars_current htbl.nodup (unaliased_of_mapOf hplain settings htbl)
  intro k x hread
  obtain ⟨hset, hx⟩ := tomlToVariant_of_read hplain settings htbl hread
  have hvalue := h k hread.1
  rw [if_pos ⟨hread.2.1, hset⟩] at hvalue
  rw [hx]
  exact congrArg some hvalue.symm

end Overlay

/-! ### The files as documents -/

/-- The header is seven lines without content. -/
theorem emitHeader_readAs (toolArgs : String) (h : toolArgs.toList.all Toml.commentChar = true) :
    Toml.ReadAs (emitHeader toolArgs) (List.replicate 7 .blank) ∧
      ∀ l ∈ emitHeader toolArgs, l.all Toml.commentChar = true := by
  have hall : (" Re-import with: axan --import-".toList ++ toolArgs.toList ++
      " <this-file>".toList).all Toml.commentChar = true := by
    rw [List.all_append, List.all_append, h]
    decide
  have hline : Toml.readFileLine ("# Re-import with: axan --import-".toList ++ toolArgs.toList ++
      " <this-file>".toList) = some .blank := Toml.readFileLine_comment hall
  refine ⟨.cons rfl (.cons hline (.cons rfl (.cons rfl (.cons rfl (.cons rfl (.cons rfl .nil)))))),
    fun l hl => ?_⟩
  simp only [emitHeader, List.mem_cons, List.not_mem_nil, or_false] at hl
  rcases hl with rfl | rfl | rfl | rfl | rfl | rfl | rfl
  · decide
  · rw [List.all_append, List.all_append, h]
    decide
  all_goals decide

/-- All keybindings are plain. -/
theorem keybindings_plain : ∀ k ∈ keybindingsSchema.keys, KeyPlain k := by
  have hall : ∀ p ∈ keybindings, p.1.toList.all Toml.bareKeyChar = true ∧ p.1.toList ≠ [] := by
    decide
  intro k hk
  obtain ⟨p, hp, rfl⟩ := List.mem_map.mp hk
  have hdef := keybindingsSchema_defaults _ hk
  exact ⟨(hall p hp).1, (hall p hp).2, rfl, (Bool.and_eq_true_iff.mp hdef).1⟩

/-- So are the keys of the list. -/
theorem profilesList_plain : ∀ k ∈ profilesListSchema.keys, KeyPlain k := by
  have hall : ∀ k ∈ profilesListSchema.keys, (k.name.all Toml.bareKeyChar = true ∧ k.name ≠ []) ∧
      isPlain k.type = true ∧ k.default.hasType k.type = true := by decide
  intro k hk
  obtain ⟨⟨hbare, hne⟩, ht, hdef⟩ := hall k hk
  exact ⟨hbare, hne, ht, hdef⟩

/-- The lines of the keys of a store. -/
def scalarLines {S : Schema} (skipKeys : List Text) (settings : Store S) : List Toml.Line :=
  (exportKeys S skipKeys).map fun k => scalarLine print k (settings.value k.name)

/-- The lines of a schema of plain keys. -/
theorem emitScalars_spec {S : Schema} (skipKeys : List Text) (hplain : ∀ k ∈ S.keys, KeyPlain k)
    (settings : Store S) :
    Toml.ReadAs (emitSchemaScalars print skipKeys settings) (scalarLines print skipKeys settings) ∧
      ∀ l ∈ emitSchemaScalars print skipKeys settings, l.all Toml.commentChar = true :=
  emitSchemaScalars_spec (keyWritable_of_plain (fun k hk _ => hplain k hk) settings print)

/-- The tables of the file of the settings. -/
def settingsBlocks (d : Dconf) : List Toml.Block :=
  [ ⟨"settings".toList, scalarLines print [] d.settings ++ [.blank], schemaTable print [] d.settings⟩,
    ⟨"profiles".toList, scalarLines print [kProfilesListListKey] d.profilesList,
      schemaTable print [kProfilesListListKey] d.profilesList⟩ ]

/-- The table of the file of the keybindings. -/
def keybindingsBlocks (d : Dconf) : List Toml.Block :=
  [⟨"keybindings".toList, scalarLines print [] d.keybindings, schemaTable print [] d.keybindings⟩]

/-- Each block of the settings file can be read back. -/
theorem settingsBlocks_ok (d : Dconf) : ∀ b ∈ settingsBlocks print d, b.Ok := by
  have hname : '.' ∉ "settings".toList ∧ '.' ∉ "profiles".toList := by decide
  intro b hb
  simp only [settingsBlocks, List.mem_cons, List.not_mem_nil, or_false] at hb
  rcases hb with rfl | rfl
  · have hblank : Toml.LinesOf [.blank] [] := Toml.linesOf_blanks (by simp)
    have hown := Toml.LinesOf.append (linesOf_scalarLines print [] d.settings) hblank
    rw [List.append_nil] at hown
    exact ⟨hname.1, hown, nodup_schemaTable⟩
  · exact ⟨hname.2, linesOf_scalarLines print _ d.profilesList, nodup_schemaTable⟩

/-- So can the block of the keybindings. -/
theorem keybindingsBlocks_ok (d : Dconf) : ∀ b ∈ keybindingsBlocks print d, b.Ok := by
  have hname : '.' ∉ "keybindings".toList := by decide
  intro b hb
  obtain rfl := List.mem_singleton.mp hb
  exact ⟨hname, linesOf_scalarLines print _ d.keybindings, nodup_schemaTable⟩

/-- **The file of the settings is the document of its two tables.** -/
theorem readFile_settingsTomlExport (d : Dconf) :
    Toml.readFile (settingsTomlExport print d) = some (Toml.blockTables (settingsBlocks print d)) := by
  obtain ⟨hheader, hheaderAll⟩ := emitHeader_readAs "settings" (by decide)
  obtain ⟨hsettings, hsettingsAll⟩ := emitScalars_spec print [] settings_plain d.settings
  obtain ⟨hlist, hlistAll⟩ := emitScalars_spec print [kProfilesListListKey] profilesList_plain
    d.profilesList
  have hnames : ["settings".toList, "profiles".toList].Nodup := by decide
  have hempty : Toml.readFileLine [] = some .blank := rfl
  have hfirst : Toml.readFileLine "[settings]".toList = some (.header false "settings".toList) := rfl
  have hsecond : Toml.readFileLine "[profiles]".toList = some (.header false "profiles".toList) := rfl
  have hread := hheader.append (List.Forall₂.cons hfirst (hsettings.append
    (List.Forall₂.cons hempty (List.Forall₂.cons hsecond (hlist.append (.cons hempty .nil))))))
  have hplain : ∀ l ∈ settingsLines print d, '\n' ∉ l := by
    intro l hl
    apply Toml.not_mem_of_all (p := Toml.commentChar) (by decide)
    simp only [settingsLines, List.mem_append, List.mem_cons] at hl
    rcases hl with hl | rfl | hl | rfl | rfl | hl
    · exact hheaderAll l hl
    · decide
    · exact hsettingsAll l hl
    · rfl
    · decide
    · exact hlistAll l hl
  have hlines : Toml.ReadAs (settingsLines print d ++ [[]]) (List.replicate 7 .blank ++
      (Toml.blockLines (settingsBlocks print d) ++ [.blank])) := by
    simp only [settingsLines, settingsBlocks, Toml.blockLines, List.flatMap_cons, List.flatMap_nil,
      List.append_assoc, List.cons_append, List.nil_append, List.append_nil] at hread ⊢
    exact hread
  exact Toml.readFile_blocks hplain hlines (fun x hx => (List.mem_replicate.mp hx).2)
    (settingsBlocks_ok print d) hnames

/-- **The file of the keybindings is the document of its table.** -/
theorem readFile_keybindingsTomlExport (d : Dconf) :
    Toml.readFile (keybindingsTomlExport print d) =
      some (Toml.blockTables (keybindingsBlocks print d)) := by
  obtain ⟨hheader, hheaderAll⟩ := emitHeader_readAs "keybindings" (by decide)
  obtain ⟨hlines, hall⟩ := emitScalars_spec print [] keybindings_plain d.keybindings
  have hempty : Toml.readFileLine [] = some .blank := rfl
  have htable : Toml.readFileLine "[keybindings]".toList =
      some (.header false "keybindings".toList) := rfl
  have hread := hheader.append (List.Forall₂.cons htable (hlines.append (.cons hempty .nil)))
  have hplain : ∀ l ∈ keybindingsLines print d, '\n' ∉ l := by
    intro l hl
    apply Toml.not_mem_of_all (p := Toml.commentChar) (by decide)
    simp only [keybindingsLines, List.mem_append, List.mem_cons] at hl
    rcases hl with hl | rfl | hl
    · exact hheaderAll l hl
    · decide
    · exact hall l hl
  have hfile : Toml.ReadAs (keybindingsLines print d ++ [[]]) (List.replicate 7 .blank ++
      (Toml.blockLines (keybindingsBlocks print d) ++ [.blank])) := by
    simp only [keybindingsLines, keybindingsBlocks, Toml.blockLines, List.flatMap_cons,
      List.flatMap_nil, List.append_assoc, List.cons_append, List.append_nil] at hread ⊢
    exact hread
  exact Toml.readFile_blocks hplain hfile (fun x hx => (List.mem_replicate.mp hx).2)
    (keybindingsBlocks_ok print d) (List.nodup_singleton _)

/-! ### The files imported -/

variable {print} in
/-- The lines depend on the values of their keys only. -/
theorem emitSchemaScalars_congr {S : Schema} {skipKeys : List Text} {s s' : Store S}
    (h : ∀ k ∈ S.keys, k.name ∉ skipKeys → s'.value k.name = s.value k.name) :
    emitSchemaScalars print skipKeys s' = emitSchemaScalars print skipKeys s := by
  unfold emitSchemaScalars
  apply List.map_congr_left
  intro k hk
  obtain ⟨hmem, hskip⟩ := mem_exportKeys.mp hk
  rw [h k hmem hskip]

/-- A key that can be unset is `headerbar`. -/
theorem settings_maybe :
    ∀ k ∈ settingsSchema.keys, k.name ≠ kHeaderbar → ∀ v : Variant, v.hasType k.type = true →
      isSet v = true := by
  have hall : ∀ k ∈ settingsSchema.keys, k.name ≠ kHeaderbar →
      k.type ≠ .maybeString ∧ k.type ≠ .maybeBoolean := by decide
  intro k hk hname v hv
  obtain ⟨hstring, hboolean⟩ := hall k hk hname
  cases hset : isSet v with
  | true => rfl
  | false =>
      rcases eq_of_not_isSet hset with rfl | rfl
      · cases ht : k.type with
        | maybeString => exact absurd ht hstring
        | _ =>
            rw [ht] at hv
            cases hv
      · exact absurd (type_of_maybeBoolean hv) hboolean

/-- A string or a list of strings is set. -/
theorem isSet_of_hasType {v : Variant} {t : VariantType} (ht : t = .stringArray ∨ t = .string)
    (hv : v.hasType t = true) : isSet v = true := by
  cases hset : isSet v with
  | true => rfl
  | false =>
      rcases eq_of_not_isSet hset with rfl | rfl <;> rcases ht with rfl | rfl <;> cases hv

/-- All keybindings are set. -/
theorem keybindings_set (settings : Store keybindingsSchema) :
    ∀ k ∈ keybindingsSchema.keys, isSet (settings.value k.name) = true := by
  intro k hk
  have hty := (Bool.and_eq_true_iff.mp (settings.accepted k hk)).1
  obtain ⟨p, -, rfl⟩ := List.mem_map.mp hk
  exact isSet_of_hasType (.inr rfl) hty

/-- So are the keys of the list. -/
theorem profilesList_set (settings : Store profilesListSchema) :
    ∀ k ∈ profilesListSchema.keys, isSet (settings.value k.name) = true := by
  intro k hk
  have hty := (Bool.and_eq_true_iff.mp (settings.accepted k hk)).1
  have htype : k.type = .stringArray ∨ k.type = .string :=
    (by decide : ∀ k ∈ profilesListSchema.keys, k.type = .stringArray ∨ k.type = .string) k hk
  exact isSet_of_hasType htype hty

section Parser

variable {parse : Bytes → Parsed} (hparse : Toml.AgreesWithFileReader TomlFile.root parse)
  (inPath : String) (d q : Dconf)

include hparse

/-- The exported settings are read as two tables. -/
theorem parse_settingsTomlExport :
    ∃ file, parse (utf8 (settingsTomlExport print d)) = .ok file ∧
      Toml.MapOf (schemaTable print [] d.settings) (file.tableOrEmpty "settings") ∧
      Toml.MapOf (schemaTable print [kProfilesListListKey] d.profilesList)
        (file.tableOrEmpty "profiles") := by
  obtain ⟨file, hfile, hroot⟩ := hparse _ _ (readFile_settingsTomlExport print d)
  obtain ⟨tbl, htbl, hmap⟩ := TomlFile.exists_tableAt hroot
    (show (Toml.blockTables (settingsBlocks print d)).lookup "settings".toList =
      some (.table (schemaTable print [] d.settings)) from rfl)
  obtain ⟨tbl', htbl', hmap'⟩ := TomlFile.exists_tableAt hroot
    (show (Toml.blockTables (settingsBlocks print d)).lookup "profiles".toList =
      some (.table (schemaTable print [kProfilesListListKey] d.profilesList)) from rfl)
  refine ⟨file, hfile, ?_, ?_⟩
  · rw [TomlFile.tableOrEmpty, htbl]
    exact hmap
  · rw [TomlFile.tableOrEmpty, htbl']
    exact hmap'

/-- The exported keybindings are read as one. -/
theorem parse_keybindingsTomlExport :
    ∃ file tbl, parse (utf8 (keybindingsTomlExport print d)) = .ok file ∧
      file.tableAt "keybindings" = some tbl ∧
      Toml.MapOf (schemaTable print [] d.keybindings) tbl := by
  obtain ⟨file, hfile, hroot⟩ := hparse _ _ (readFile_keybindingsTomlExport print d)
  obtain ⟨tbl, htbl, hmap⟩ := TomlFile.exists_tableAt hroot
    (show (Toml.blockTables (keybindingsBlocks print d)).lookup "keybindings".toList =
      some (.table (schemaTable print [] d.keybindings)) from rfl)
  exact ⟨file, tbl, hfile, htbl, hmap⟩

omit hparse in
/-- Values that are laid over others are all there exactly when `headerbar` is. -/
theorem sameSettings_iff {after : Store settingsSchema}
    (h : Overlaid [] d.settings q.settings after) :
    (∀ k ∈ settingsSchema.keys, after.value k.name = d.settings.value k.name) ↔
      (isSet (d.settings.value kHeaderbar) = false →
        q.settings.value kHeaderbar = d.settings.value kHeaderbar) := by
  have hheaderbar := h _ headerbar_mem
  constructor
  · intro hsame hunset
    have hafter : after.value kHeaderbar = d.settings.value kHeaderbar := hsame _ headerbar_mem
    rw [if_neg fun hset => by simp [show isSet (d.settings.value kHeaderbar) = true from hset.2]
      at hunset] at hheaderbar
    exact hheaderbar.symm.trans hafter
  · intro hsame k hk
    rw [h k hk]
    split_ifs with hset
    · rfl
    · have hunset : isSet (d.settings.value k.name) = false := by simpa using hset
      by_cases hname : k.name = kHeaderbar
      · rw [hname] at hunset ⊢
        exact hsame hunset
      · have hty := (Bool.and_eq_true_iff.mp (d.settings.accepted k hk)).1
        rw [settings_maybe k hk hname _ hty] at hunset
        cases hunset

/-- The import of the file of the settings lays what is set over what was there. -/
theorem settingsTomlImport_export :
    let r := settingsTomlImport inPath (parse (utf8 (settingsTomlExport print d))) q
    r.error = none ∧ Overlaid [] d.settings q.settings r.dconf.settings ∧
      Overlaid [kProfilesListListKey] d.profilesList q.profilesList r.dconf.profilesList ∧
      r.dconf.keybindings = q.keybindings ∧ r.dconf.profile = q.profile := by
  obtain ⟨file, hfile, hsettings, hlist⟩ := parse_settingsTomlExport print hparse d
  dsimp only
  rw [hfile]
  have hS : (settingsOutcome file q).error = none ∧ Overlaid [] d.settings q.settings
      (settingsOutcome file q).settings.current := by
    exact overlaid_of_mapOf print (fun k hk _ => settings_plain k hk) d.settings hsettings
      q.settings []
  have hP : (profilesOutcome file q).error = none ∧ Overlaid [kProfilesListListKey] d.profilesList
      q.profilesList (profilesOutcome file q).settings.current := by
    exact overlaid_of_mapOf print (fun k hk _ => profilesList_plain k hk) d.profilesList hlist
      q.profilesList _
  rw [settingsTomlImport_ok inPath hS.1 hP.1]
  exact ⟨rfl, hS.2, hP.2, rfl, rfl⟩

/-- Over what it has laid there the file changes nothing. -/
theorem settingsTomlImport_again {q r : Dconf} (hS : Overlaid [] d.settings q.settings r.settings)
    (hP : Overlaid [kProfilesListListKey] d.profilesList q.profilesList r.profilesList) :
    settingsTomlImport inPath (parse (utf8 (settingsTomlExport print d))) r = { dconf := r } := by
  obtain ⟨file, hfile, hsettings, hlist⟩ := parse_settingsTomlExport print hparse d
  have hagainS : settingsOutcome file r = ⟨.delay r.settings, [], none⟩ := by
    exact again_of_mapOf print (fun k hk _ => settings_plain k hk) d.settings hsettings hS []
  have hagainP : profilesOutcome file r = ⟨.delay r.profilesList, [], none⟩ := by
    rw [profilesOutcome, hagainS]
    exact again_of_mapOf print (fun k hk _ => profilesList_plain k hk) d.profilesList hlist hP []
  rw [hfile, settingsTomlImport_ok inPath (by rw [hagainS]) (by rw [hagainP]), hagainS, hagainP]
  rfl

/-- The import of an export overlays the keybindings. -/
theorem keybindingsTomlImport_export :
    let r := keybindingsTomlImport inPath (parse (utf8 (keybindingsTomlExport print d))) q
    r.error = none ∧ Overlaid [] d.keybindings q.keybindings r.dconf.keybindings ∧
      r.dconf.settings = q.settings ∧ r.dconf.profilesList = q.profilesList ∧
      r.dconf.profile = q.profile := by
  obtain ⟨file, tbl, hfile, htbl, hmap⟩ := parse_keybindingsTomlExport print hparse d
  dsimp only
  obtain ⟨hok, hlaid⟩ := overlaid_of_mapOf print (fun k hk _ => keybindings_plain k hk)
    d.keybindings hmap q.keybindings []
  rw [← keybindingsOutcome.eq_1] at hok hlaid
  rw [hfile, keybindingsTomlImport_ok inPath htbl hok]
  exact ⟨rfl, hlaid, rfl, rfl, rfl⟩

/-- A second import overlays them again. -/
theorem keybindingsTomlImport_again {q r : Dconf}
    (h : Overlaid [] d.keybindings q.keybindings r.keybindings) :
    keybindingsTomlImport inPath (parse (utf8 (keybindingsTomlExport print d))) r =
      { dconf := r } := by
  obtain ⟨file, tbl, hfile, htbl, hmap⟩ := parse_keybindingsTomlExport print hparse d
  have hagain : keybindingsOutcome tbl r = ⟨.delay r.keybindings, [], none⟩ :=
    again_of_mapOf print (fun k hk _ => keybindings_plain k hk) d.keybindings hmap h []
  rw [hfile, keybindingsTomlImport_ok inPath htbl (by rw [hagain]), hagain]
  rfl

omit hparse in
/-- Overlaid keybindings are those of the export. -/
theorem keybindings_of_overlaid {before after : Store keybindingsSchema}
    (h : Overlaid [] d.keybindings before after) :
    ∀ k ∈ keybindingsSchema.keys, after.value k.name = d.keybindings.value k.name := by
  intro k hk
  have hvalue := h k hk
  rwa [if_pos ⟨by simp, keybindings_set d.keybindings k hk⟩] at hvalue

omit hparse in
theorem default_of_overlaid {before after : Store profilesListSchema}
    (h : Overlaid [kProfilesListListKey] d.profilesList before after) :
    ∀ k ∈ profilesListSchema.keys, k.name ∉ [kProfilesListListKey] →
      after.value k.name = d.profilesList.value k.name := by
  intro k hk hskip
  have hvalue := h k hk
  rwa [if_pos ⟨hskip, profilesList_set d.profilesList k hk⟩] at hvalue

/-- **The file of the settings over any state.** Its import goes through. Each setting that is set
in `d` gets its value, the default profile too, the list stays; the same file once more changes and
reports nothing. All settings are those of `d` exactly when `headerbar` is set in `d` or is not set
in `q` either, and then the settings that were imported are written as the same file. -/
theorem settings_reapplied (d q : Dconf) :
    let parsed := parse (utf8 (settingsTomlExport print d))
    let r := settingsTomlImport inPath parsed q
    r.error = none ∧
      Overlaid [] d.settings q.settings r.dconf.settings ∧
      Overlaid [kProfilesListListKey] d.profilesList q.profilesList r.dconf.profilesList ∧
      r.dconf.keybindings = q.keybindings ∧ r.dconf.profile = q.profile ∧
      settingsTomlImport inPath parsed r.dconf = { dconf := r.dconf } ∧
      ((∀ k ∈ settingsSchema.keys, r.dconf.settings.value k.name = d.settings.value k.name) ↔
        (isSet (d.settings.value kHeaderbar) = false →
          q.settings.value kHeaderbar = d.settings.value kHeaderbar)) ∧
      ((isSet (d.settings.value kHeaderbar) = false →
          q.settings.value kHeaderbar = d.settings.value kHeaderbar) →
        settingsTomlExport print r.dconf = settingsTomlExport print d) := by
  intro parsed r
  obtain ⟨hok, hS, hP, hkeybindings, hprofile⟩ := settingsTomlImport_export print hparse inPath d q
  refine ⟨hok, hS, hP, hkeybindings, hprofile, settingsTomlImport_again print hparse inPath d hS hP,
    sameSettings_iff d q hS, fun hsame => ?_⟩
  have hvalues := (sameSettings_iff d q hS).mpr hsame
  unfold settingsTomlExport settingsLines
  rw [emitSchemaScalars_congr fun k hk _ => hvalues k hk,
    emitSchemaScalars_congr (default_of_overlaid d hP)]

/-- **The file of the keybindings over any state.** Its import goes through, and all keybindings
are those of `d`; nothing else changes, and the same file once more changes and reports nothing. -/
theorem keybindings_reapplied (d q : Dconf) :
    let parsed := parse (utf8 (keybindingsTomlExport print d))
    let r := keybindingsTomlImport inPath parsed q
    r.error = none ∧
      (∀ k ∈ keybindingsSchema.keys,
        r.dconf.keybindings.value k.name = d.keybindings.value k.name) ∧
      r.dconf.settings = q.settings ∧ r.dconf.profilesList = q.profilesList ∧
      r.dconf.profile = q.profile ∧
      keybindingsTomlImport inPath parsed r.dconf = { dconf := r.dconf } ∧
      keybindingsTomlExport print r.dconf = keybindingsTomlExport print d := by
  intro parsed r
  obtain ⟨hok, hlaid, hsettings, hlist, hprofile⟩ :=
    keybindingsTomlImport_export print hparse inPath d q
  have hvalues := keybindings_of_overlaid d hlaid
  refine ⟨hok, hvalues, hsettings, hlist, hprofile,
    keybindingsTomlImport_again print hparse inPath d hlaid, ?_⟩
  unfold keybindingsTomlExport keybindingsLines
  rw [emitSchemaScalars_congr fun k hk _ => hvalues k hk]

end Parser

end Format

/-- The settings at their defaults, imported over settings with a header bar: the header bar stays. -/
theorem settings_reapplied_headerbar :
    let q := { Dconf.fresh with settings := headerbarSettings }
    let parsed := parseFile (utf8 (settingsTomlExport (fun _ => []) Dconf.fresh))
    let r := settingsTomlImport "settings.toml" parsed q
    r.error = none ∧ settingsTomlImport "settings.toml" parsed r.dconf = { dconf := r.dconf } ∧
      ¬ ∀ k ∈ settingsSchema.keys,
        r.dconf.settings.value k.name = Dconf.fresh.settings.value k.name := by
  obtain ⟨hok, -, -, -, -, hagain, hsame, -⟩ := settings_reapplied (fun _ => [])
    agreesWithFileReader_parseFile "settings.toml" Dconf.fresh
    { Dconf.fresh with settings := headerbarSettings }
  refine ⟨hok, hagain, fun hall => ?_⟩
  have hunset : Dconf.fresh.settings.value kHeaderbar = .maybeBoolean none :=
    Store.ofDefaults_value settingsSchema_defaults headerbar_mem
  have hset : headerbarSettings.value kHeaderbar = .maybeBoolean (some true) :=
    Store.setValue_self _ headerbar_mem (.maybeBoolean (some true))
  have hkept : headerbarSettings.value kHeaderbar = Dconf.fresh.settings.value kHeaderbar :=
    hsame.mp hall (by rw [hunset]; rfl)
  rw [hset, hunset] at hkept
  cases hkept

/-- The keybindings at their defaults, imported over themselves. -/
theorem keybindings_reapplied_fresh :
    (keybindingsTomlImport "keybindings.toml"
      (parseFile (utf8 (keybindingsTomlExport (fun _ => []) Dconf.fresh))) Dconf.fresh).error =
        none :=
  (keybindings_reapplied (fun _ => []) agreesWithFileReader_parseFile "keybindings.toml"
    Dconf.fresh Dconf.fresh).1

end Axan.LinuxToml
