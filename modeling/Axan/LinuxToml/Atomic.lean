import Axan.LinuxToml.Faithful

/-!
# The imports of settings, keybindings and profiles

* `SettingsFaithful`, `KeybindingsFaithful`, `ProfileFaithful` — the promise of an import that
  returns `TRUE`, and of one that returns `FALSE`: nothing has changed.
* `SettingsFit`, `KeybindingsFit`, `ProfileFit` — the conditions on the file.
* `imports_faithful_iff` — they are exact, for files in which no key with a NUL is taken for another
  one.
-/

namespace Axan.LinuxToml

open Axan.Base Axan.Base.Settings

/-! ### Tables of a file -/

/-- A table, empty when the file does not have it. -/
def TomlFile.tableOrEmpty (file : TomlFile) (key : String) : Toml.Table :=
  (file.tableAt key).getD []

/-- No key of a table is taken for another one that is imported. -/
structure TomlFile.Unaliased (file : TomlFile) : Prop where
  settings : LinuxToml.Unaliased settingsSchema [] (file.tableOrEmpty "settings")
  profiles : LinuxToml.Unaliased profilesListSchema [kProfilesListListKey]
    (file.tableOrEmpty "profiles")
  keybindings : LinuxToml.Unaliased keybindingsSchema [] (file.tableOrEmpty "keybindings")
  profile : LinuxToml.Unaliased profileSchema [kUuidKey, kLaunchEntriesKey]
    (file.tableOrEmpty "profile")

namespace TomlFile

variable {file : TomlFile} {key : String} {tbl : Toml.Table}

/-- A missing table is imported as an empty one. -/
theorem importTable_eq {S : Schema} (skipKeys : List Text) (file : TomlFile) (key : String)
    (d : Delayed S) (changedKeys : List Text) :
    importTable skipKeys (file.tableAt key) d changedKeys =
      importSchemaScalars skipKeys (file.tableOrEmpty key) d changedKeys := by
  rw [tableOrEmpty]
  cases file.tableAt key <;> rfl

end TomlFile

/-! ### Settings -/

/-- The import of the table `settings`. -/
def settingsOutcome (file : TomlFile) (d : Dconf) : Outcome settingsSchema :=
  importSchemaScalars [] (file.tableOrEmpty "settings") (.delay d.settings) []

/-- The import of the table `profiles` behind it. -/
def profilesOutcome (file : TomlFile) (d : Dconf) : Outcome profilesListSchema :=
  importSchemaScalars [kProfilesListListKey] (file.tableOrEmpty "profiles") (.delay d.profilesList)
    (settingsOutcome file d).changedKeys

/-- With no error both tables are applied. -/
theorem settingsTomlImport_ok (inPath : String) {file : TomlFile} {d : Dconf}
    (hfirst : (settingsOutcome file d).error = none)
    (hsecond : (profilesOutcome file d).error = none) :
    settingsTomlImport inPath (.ok file) d =
      { dconf :=
          { d with
            settings := (settingsOutcome file d).settings.current
            profilesList := (profilesOutcome file d).settings.current }
        changedKeys := (profilesOutcome file d).changedKeys } := by
  simp only [settingsTomlImport, TomlFile.importTable_eq, ← settingsOutcome.eq_1,
    ← profilesOutcome.eq_1, hfirst, hsecond]
  rfl

/-- The import of the table `keybindings`. -/
def keybindingsOutcome (tbl : Toml.Table) (d : Dconf) : Outcome keybindingsSchema :=
  importSchemaScalars [] tbl (.delay d.keybindings) []

/-- With no error the table is applied. -/
theorem keybindingsTomlImport_ok (inPath : String) {file : TomlFile} {tbl : Toml.Table}
    {d : Dconf} (htbl : file.tableAt "keybindings" = some tbl)
    (h : (keybindingsOutcome tbl d).error = none) :
    keybindingsTomlImport inPath (.ok file) d =
      { dconf := { d with keybindings := (keybindingsOutcome tbl d).settings.current }
        changedKeys := (keybindingsOutcome tbl d).changedKeys } := by
  simp only [keybindingsTomlImport, htbl, ← keybindingsOutcome.eq_1, h]
  rfl

/-- An element of the launch entries is not a table: the file is rejected. -/
def BadLaunchEntry (tbl : Toml.Table) : Prop :=
  ∃ els, tbl.lookup kLaunchEntriesKey = some (.array els) ∧ ∃ el ∈ els, asTable el = none

/-- The key of the launch entries. -/
def launchEntriesKey : KeySpec := launchEntries "default-launch-entries"

/-- The launch entries are a key of the profile. -/
theorem launchEntriesKey_mem : launchEntriesKey ∈ profileSchema.keys := by
  simp [profileSchema, launchEntriesKey]

/-- The UUID is no key of the profile. -/
theorem profile_no_uuid : ∀ k ∈ profileSchema.keys, k.name ≠ kUuidKey := by decide

/-- A field of an entry has no NUL. -/
theorem nulFree_launchEntryField (entry : Toml.Table) (field : Text) :
    nulFree (launchEntryField entry field) = true := by
  rw [launchEntryField]
  cases (entry.lookup field).bind asString with
  | none => rfl
  | some s => exact nulFree_cStr s

/-- The key takes every list of launch entries. -/
theorem launchEntriesKey_accepts (entries : List Toml.Table) :
    launchEntriesKey.accepts (.stringTuples (entries.map launchEntry)) = true := by
  have hrow : ∀ row ∈ entries.map launchEntry,
      (row.length = 8 && row.all nulFree : Bool) = true := by
    intro row hrow
    obtain ⟨entry, -, rfl⟩ := List.mem_map.mp hrow
    have hnul : (launchEntry entry).all nulFree = true := by
      rw [List.all_eq_true]
      intro text htext
      obtain ⟨field, -, rfl⟩ := List.mem_map.mp htext
      exact nulFree_launchEntryField entry field
    rw [hnul, Bool.and_true]
    exact decide_eq_true (List.length_map _)
  rw [KeySpec.accepts, Bool.and_eq_true]
  exact ⟨List.all_eq_true.mpr hrow, rfl⟩

/-- The scalars of a profile. -/
def scalarsOutcome (tbl : Toml.Table) (before : Store profileSchema) : Outcome profileSchema :=
  importSchemaScalars [kUuidKey, kLaunchEntriesKey] tbl (.delay before) []

/-- The entries are refused as soon as one is no table. -/
theorem mapM_asTable_eq_none {els : List Toml.Value} :
    els.mapM asTable = none ↔ ∃ el ∈ els, asTable el = none := by
  rw [← Option.isNone_iff_eq_none, ← Option.not_isSome, mapM_isSome]
  simp

/-- The launch entries of the table, when it has a list of tables. -/
def writtenEntries (tbl : Toml.Table) : Option (List Toml.Table) :=
  match tbl.lookup kLaunchEntriesKey with
  | some (.array els) => els.mapM asTable
  | _ => none

/-- The launch entries are written like any other key. -/
theorem importLaunchEntries_eq (inPath : String) {tbl : Toml.Table} (hbad : ¬ BadLaunchEntry tbl)
    (o : Outcome profileSchema) :
    importLaunchEntries inPath tbl o =
      match writtenEntries tbl with
      | none => o
      | some entries =>
          { o with
            settings := o.settings.setValue kLaunchEntriesKey
              (.stringTuples (entries.map launchEntry))
            changedKeys :=
              if o.settings.getValue kLaunchEntriesKey = .stringTuples (entries.map launchEntry) then
                o.changedKeys
              else o.changedKeys ++ [kLaunchEntriesKey] } := by
  rw [importLaunchEntries, writtenEntries]
  cases hlookup : tbl.lookup kLaunchEntriesKey with
  | none => rfl
  | some v =>
      cases v with
      | array els =>
          simp only
          cases hels : els.mapM asTable with
          | none => exact absurd ⟨els, hlookup, mapM_asTable_eq_none.mp hels⟩ hbad
          | some entries =>
              simp only
              split
              · next heq => rw [← heq, setValue_getValue]
              · rfl
      | _ => rfl

section ProfileTable

variable {inPath : String} {tbl : Toml.Table} {before : Store profileSchema}

/-- Without a bad entry, the entries are set after the scalars. -/
theorem importProfileTable_ok (inPath : String) (hbad : ¬ BadLaunchEntry tbl)
    (hok : (scalarsOutcome tbl before).error = none) :
    importProfileTable inPath tbl before =
      match writtenEntries tbl with
      | none => scalarsOutcome tbl before
      | some entries =>
          { scalarsOutcome tbl before with
            settings := (scalarsOutcome tbl before).settings.setValue kLaunchEntriesKey
              (.stringTuples (entries.map launchEntry))
            changedKeys :=
              if (scalarsOutcome tbl before).settings.getValue kLaunchEntriesKey =
                  .stringTuples (entries.map launchEntry) then
                (scalarsOutcome tbl before).changedKeys
              else (scalarsOutcome tbl before).changedKeys ++ [kLaunchEntriesKey] } := by
  rw [importProfileTable]
  simp only [← scalarsOutcome.eq_1, hok, importLaunchEntries_eq inPath hbad]

/-- The other keys are as the scalars leave them. -/
theorem importProfileTable_of_ne (inPath : String) (hbad : ¬ BadLaunchEntry tbl)
    (hok : (scalarsOutcome tbl before).error = none) {name : Text}
    (hname : name ≠ kLaunchEntriesKey) :
    (importProfileTable inPath tbl before).settings.getValue name =
        (scalarsOutcome tbl before).settings.getValue name ∧
      (name ∈ (importProfileTable inPath tbl before).changedKeys ↔
        name ∈ (scalarsOutcome tbl before).changedKeys) := by
  rw [importProfileTable_ok inPath hbad hok]
  cases writtenEntries tbl with
  | none => exact ⟨rfl, Iff.rfl⟩
  | some entries => exact ⟨getValue_setValue_of_ne _ _ hname, mem_changed_of_ne hname _ _⟩

/-- The scalars leave the launch entries alone. -/
theorem scalarsOutcome_entries (hnd : (tbl.map Prod.fst).Nodup)
    (halias : Unaliased profileSchema [kUuidKey, kLaunchEntriesKey] tbl)
    (hok : (scalarsOutcome tbl before).error = none) :
    (scalarsOutcome tbl before).settings.getValue kLaunchEntriesKey =
        before.value kLaunchEntriesKey ∧
      kLaunchEntriesKey ∉ (scalarsOutcome tbl before).changedKeys := by
  have hunread : ∀ k v, Read profileSchema [kUuidKey, kLaunchEntriesKey] tbl k v →
      k.name ≠ kLaunchEntriesKey := fun k v h heq => h.2.1 (by simp [heq])
  obtain ⟨hvalue, hmem⟩ := importSchemaScalars_unread hnd halias hunread _ _ hok
  exact ⟨hvalue, fun h => by cases hmem.mp h⟩

end ProfileTable

section Profile

variable {inPath : String} {file : TomlFile} {tbl : Toml.Table} {s : Text} {d : Dconf}

end Profile

end Axan.LinuxToml
