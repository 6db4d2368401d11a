import Axan.LinuxToml.Import

/-!
# The list of the profiles after an import

The import of a profile puts its UUID into the stored list; `TerminalSettingsList` reads that list
and takes it only as a whole.

* `validUuid`, `validateList`, `updateList` — the reader (`terminal-settings-list.cc`).
* `ListKept` — the list is still taken, with every profile it had and the imported UUID once.
* `profileTomlImport_listKept_iff` — **when an import keeps the list**: the `uuid` of the file is
  one, and the list did not have it twice. The importer takes any string.
-/

namespace Axan.LinuxToml

open Axan.Base Axan.Base.Settings

/-! ### The reader of the list -/

/-- `isxdigit` -/
def isXDigit (c : Char) : Bool :=
  c.isDigit || ('a' ≤ c && c ≤ 'f') || ('A' ≤ c && c ≤ 'F')

/-- The form that libuuid documents, `%08x-%04x-%04x-%04x-%012x`: 32 digits, and hyphens behind the
digits 8, 12, 16 and 20. Source: `uuid_parse` -/
def uuidParse (s : Text) : Bool :=
  s.length = 36 && s.zipIdx.all fun (c, i) => if i ∈ [8, 13, 18, 23] then c = '-' else isXDigit c

/-- Source: `terminal_settings_list_valid_uuid` -/
def validUuid (s : Text) : Bool := uuidParse s

/-- Source: `validate_list` -/
def validateList (allowEmpty : Bool) (entries : List Text) : Bool :=
  entries.all validUuid && (!entries.isEmpty || allowEmpty)

/-- Source: `list_map_func` -/
def listMapFunc (allowEmpty : Bool) (entries : List Text) : Option (List Text) :=
  if validateList allowEmpty entries then some entries else none

/-- The strings of a value of type `as`. -/
def strv : Variant → List Text
  | .stringArray l => l
  | _ => []

/-- The stored list. -/
def storedList (profilesList : Store profilesListSchema) : List Text :=
  strv (profilesList.value kProfilesListListKey)

/-- The schema's own list. -/
def defaultList : List Text := ["b1dcc9dd-5262-4d8d-a863-c897e6d979b9".toList]

/-- The UUIDs that are listed: the stored list, or the default when it is not taken.
Source: `terminal_settings_list_update_list`, `g_settings_get_mapped` -/
def updateList (allowEmpty : Bool) (profilesList : Store profilesListSchema) : List Text :=
  (listMapFunc allowEmpty (storedList profilesList)).getD defaultList

/-- The list is taken, and shows the profiles it showed and the new one, which it has once. -/
structure ListKept (allowEmpty : Bool) (before after : Store profilesListSchema) (uuid : Text) :
    Prop where
  accepted : validateList allowEmpty (storedList after) = true
  kept : ∀ u, u ∈ updateList allowEmpty after ↔ u ∈ updateList allowEmpty before ∨ u = uuid
  once : (updateList allowEmpty after).count uuid = 1

/-! ### The list after an import -/

/-- A valid list is taken as it is stored. -/
theorem updateList_of_valid {allowEmpty : Bool} {profilesList : Store profilesListSchema}
    (h : validateList allowEmpty (storedList profilesList) = true) :
    updateList allowEmpty profilesList = storedList profilesList := by
  rw [updateList, listMapFunc, if_pos h, Option.getD_some]

/-- The key of the list. -/
def listKey : KeySpec := strs "list" ["b1dcc9dd-5262-4d8d-a863-c897e6d979b9"]

/-- The list is a key of its schema. -/
theorem listKey_mem : listKey ∈ profilesListSchema.keys := List.mem_cons_self

/-- What is stored is a list of strings without a NUL. -/
theorem exists_storedList (profilesList : Store profilesListSchema) :
    ∃ l, profilesList.value kProfilesListListKey = .stringArray l ∧ l.all nulFree = true := by
  have h := profilesList.accepted listKey listKey_mem
  rw [KeySpec.accepts, Bool.and_eq_true] at h
  have hty : (profilesList.value kProfilesListListKey).hasType .stringArray = true := h.1
  cases hv : profilesList.value kProfilesListListKey with
  | stringArray l =>
      rw [hv] at hty
      exact ⟨l, rfl, hty⟩
  | _ => rw [hv] at hty; cases hty

/-- The UUID is in the list, or comes to its end. -/
theorem storedList_ensure {uuid : Text} (huuid : nulFree uuid = true)
    (profilesList : Store profilesListSchema) :
    storedList (ensureUuidInProfilesList uuid profilesList) =
      if uuid ∈ storedList profilesList then storedList profilesList
      else storedList profilesList ++ [uuid] := by
  obtain ⟨l, hl, hnul⟩ := exists_storedList profilesList
  have hstored : storedList profilesList = l := by rw [storedList, hl, strv]
  rw [ensureUuidInProfilesList, hl, hstored]
  by_cases hmem : uuid ∈ l
  · simp only [if_pos hmem, hstored]
  · simp only [if_neg hmem]
    have hacc : listKey.accepts (.stringArray (l ++ [uuid])) = true := by
      simp only [KeySpec.accepts, listKey, strs, Variant.hasType, Range.accepts,
        List.all_append, hnul, List.all_cons, huuid, List.all_nil, Bool.and_true]
    have hset := profilesList.setValue_self listKey_mem (.stringArray (l ++ [uuid]))
    rw [if_pos hacc] at hset
    rw [storedList]
    exact congrArg strv hset

/-- A longer list is valid iff all its UUIDs are. -/
theorem validateList_append (allowEmpty : Bool) (l : List Text) (uuid : Text) :
    validateList allowEmpty (l ++ [uuid]) = (l.all validUuid && validUuid uuid) := by
  simp [validateList]

/-- An import that returns `TRUE` leaves the list with the UUID of the file ensured. -/
theorem profilesList_profileTomlImport {inPath : String} {file : TomlFile} {d : Dconf}
    {tbl : Toml.Table} {s : Text} (htbl : file.tableAt "profile" = some tbl)
    (hs : (tbl.lookup kUuidKey).bind asString = some s)
    (hok : (profileTomlImport inPath (.ok file) d).error = none) :
    (profileTomlImport inPath (.ok file) d).dconf.profilesList =
      ensureUuidInProfilesList (cStr s) d.profilesList := by
  simp only [profileTomlImport, htbl, hs] at hok ⊢
  split at hok
  · cases hok
  · simp only

/-- Registering a valid UUID keeps the list, any other loses it. -/
theorem listKept_ensure_iff {allowEmpty : Bool} {profilesList : Store profilesListSchema}
    (hvalid : validateList allowEmpty (storedList profilesList) = true) {uuid : Text}
    (huuid : nulFree uuid = true) :
    ListKept allowEmpty profilesList (ensureUuidInProfilesList uuid profilesList) uuid ↔
      validUuid uuid = true ∧ (storedList profilesList).count uuid ≤ 1 := by
  have hall : (storedList profilesList).all validUuid = true := (Bool.and_eq_true_iff.mp hvalid).1
  have hafter := storedList_ensure huuid profilesList
  by_cases hmem : uuid ∈ storedList profilesList
  · rw [if_pos hmem] at hafter
    have hpos : 0 < (storedList profilesList).count uuid := List.count_pos_iff.mpr hmem
    constructor
    · intro h
      have honce := h.once
      rw [updateList_of_valid h.accepted, hafter] at honce
      exact ⟨List.all_eq_true.mp hall uuid hmem, honce.le⟩
    · rintro ⟨-, hcount⟩
      have hacc : validateList allowEmpty
          (storedList (ensureUuidInProfilesList uuid profilesList)) = true := by rwa [hafter]
      refine ⟨hacc, fun u => ?_, ?_⟩
      · rw [updateList_of_valid hacc, updateList_of_valid hvalid, hafter]
        exact ⟨.inl, fun h => h.elim id fun h => h ▸ hmem⟩
      · rw [updateList_of_valid hacc, hafter]
        omega
  · rw [if_neg hmem] at hafter
    have hcount : (storedList profilesList).count uuid = 0 := List.count_eq_zero.mpr hmem
    constructor
    · intro h
      have hacc := h.accepted
      rw [hafter, validateList_append, Bool.and_eq_true] at hacc
      exact ⟨hacc.2, by omega⟩
    · rintro ⟨huuid', -⟩
      have hacc : validateList allowEmpty
          (storedList (ensureUuidInProfilesList uuid profilesList)) = true := by
        rw [hafter, validateList_append, hall, huuid']
        rfl
      refine ⟨hacc, fun u => ?_, ?_⟩
      · rw [updateList_of_valid hacc, updateList_of_valid hvalid, hafter, List.mem_append,
          List.mem_singleton]
      · rw [updateList_of_valid hacc, hafter, List.count_append, hcount, List.count_singleton_self]

/-- **An import keeps the list of the profiles** exactly when the `uuid` of its file is a UUID that
the list does not have twice. -/
theorem profileTomlImport_listKept_iff (allowEmpty : Bool) (inPath : String) (file : TomlFile)
    (d : Dconf) (tbl : Toml.Table) (s : Text) (htbl : file.tableAt "profile" = some tbl)
    (hs : (tbl.lookup kUuidKey).bind asString = some s)
    (hok : (profileTomlImport inPath (.ok file) d).error = none)
    (hvalid : validateList allowEmpty (storedList d.profilesList) = true) :
    ListKept allowEmpty d.profilesList (profileTomlImport inPath (.ok file) d).dconf.profilesList
        (cStr s) ↔
      validUuid (cStr s) = true ∧ (storedList d.profilesList).count (cStr s) ≤ 1 := by
  rw [profilesList_profileTomlImport htbl hs hok]
  exact listKept_ensure_iff hvalid (nulFree_cStr s)

/-- A file with nothing but a UUID. -/
def uuidFile (uuid : String) : TomlFile :=
  .single "profile" [(kUuidKey, .string uuid.toList)] (List.nodup_singleton _)

theorem profileTomlImport_listKept_iff_uuidFile :
    ListKept false Dconf.fresh.profilesList
        (profileTomlImport "p.toml" (.ok (uuidFile "2b1ff3a4-0d0e-4a6e-9d0e-5f2c7a9f1e11"))
          .fresh).dconf.profilesList (cStr "2b1ff3a4-0d0e-4a6e-9d0e-5f2c7a9f1e11".toList) ↔
      validUuid (cStr "2b1ff3a4-0d0e-4a6e-9d0e-5f2c7a9f1e11".toList) = true ∧
        (storedList Dconf.fresh.profilesList).count
          (cStr "2b1ff3a4-0d0e-4a6e-9d0e-5f2c7a9f1e11".toList) ≤ 1 :=
  profileTomlImport_listKept_iff false "p.toml" (uuidFile "2b1ff3a4-0d0e-4a6e-9d0e-5f2c7a9f1e11")
    .fresh [(kUuidKey, .string "2b1ff3a4-0d0e-4a6e-9d0e-5f2c7a9f1e11".toList)]
    "2b1ff3a4-0d0e-4a6e-9d0e-5f2c7a9f1e11".toList rfl rfl (by decide) (by decide)

/-- A list with a profile of the user. -/
def userDconf : Dconf :=
  { Dconf.fresh with
    profilesList := Dconf.fresh.profilesList.setValue kProfilesListListKey
      (.stringArray ["2b1ff3a4-0d0e-4a6e-9d0e-5f2c7a9f1e11".toList]) }

/-- With a name for a UUID the list is not taken, and the profile of the user is not listed. -/
theorem uuidFile_work_not_listKept :
    (profileTomlImport "p.toml" (.ok (uuidFile "work")) userDconf).error = none ∧
      updateList false userDconf.profilesList = ["2b1ff3a4-0d0e-4a6e-9d0e-5f2c7a9f1e11".toList] ∧
      updateList false
        (profileTomlImport "p.toml" (.ok (uuidFile "work")) userDconf).dconf.profilesList =
          defaultList ∧
      ¬ ListKept false userDconf.profilesList
        (profileTomlImport "p.toml" (.ok (uuidFile "work")) userDconf).dconf.profilesList
        "work".toList := by
  refine ⟨by decide, by decide, by decide, fun h => ?_⟩
  have hvalid : validateList false (storedList
      (profileTomlImport "p.toml" (.ok (uuidFile "work")) userDconf).dconf.profilesList) = false := by
    decide
  exact absurd h.accepted (by rw [hvalid]; exact Bool.false_ne_true)

end Axan.LinuxToml
