import Axan.LinuxToml.ProfilesList
import Axan.LinuxToml.Reapply

/-!
# The list of the profiles as an object

`TerminalSettingsList` keeps the UUIDs it has read, the default, and a table of the child objects
that were asked for. A change of the stored list moves the objects of the profiles that stay. The
object hears at once what its own process writes; what another process writes it hears of later, or
not at all.

* `SettingsList`, `SettingsList.changed` — the object, and what a change does to it.
* `addChild`, `removeChild`, `setDefaultChild`, `removeProfile` — the edits, which start from the
  list that the object shows.
* `Event`, `step` — the edits, the writes of this process and of others, and the late notices.
* `Sound`, `sound_step`, `sound_steps` — **what holds after any events**: the list is valid, every
  object belongs to a profile that is listed, and each key shows what is stored unless a change of it
  was missed.
* `dupDefaultChild_removeProfile` — removing a profile never changes which one is the default, when
  nothing is missed.
-/

namespace Axan.LinuxToml

open Axan.Base Axan.Base.Settings

/-! ### The characters of a UUID -/

/-- A hexadecimal digit, or a hyphen. -/
def uuidChar (c : Char) : Bool := c = '-' || isXDigit c

/-- A valid UUID is made of hexadecimal digits and dashes. -/
theorem all_uuidChar {u : Text} (h : validUuid u = true) : u.all uuidChar = true := by
  have hall := (Bool.and_eq_true_iff.mp h).2
  rw [List.all_eq_true] at hall ⊢
  intro c hc
  obtain ⟨i, hi, rfl⟩ := List.mem_iff_getElem.mp hc
  have hmem : (u[i], i) ∈ u.zipIdx := by
    rw [List.mem_zipIdx_iff_getElem?]
    exact List.getElem?_eq_getElem hi
  have hchar := hall _ hmem
  simp only at hchar
  unfold uuidChar
  split_ifs at hchar with hpos
  · rw [hchar, Bool.true_or]
  · rw [hchar, Bool.or_true]

theorem nulFree_of_validUuid {u : Text} (h : validUuid u = true) : nulFree u = true :=
  nulFree_of_all (by decide) (all_uuidChar h)

theorem ne_nil_of_validUuid {u : Text} (h : validUuid u = true) : u ≠ [] := by
  rintro rfl
  cases h

/-! ### The object -/

/-- `α` is what is known of a child object. -/
structure SettingsList (α : Type) where
  uuids : List Text
  defaultUuid : Text
  children : Text → Option α

/-- `TERMINAL_SETTINGS_LIST_LIST_KEY` and `TERMINAL_SETTINGS_LIST_DEFAULT_KEY` -/
inductive ListKey where
  | list
  | default
  deriving DecidableEq

def kProfilesListDefaultKey : Text := "default".toList

/-- The string of a value of type `s`. -/
def str? : Variant → Text
  | .string s => s
  | _ => []

/-- The stored default. -/
def storedDefault (profilesList : Store profilesListSchema) : Text :=
  str? (profilesList.value kProfilesListDefaultKey)

namespace SettingsList

variable {α : Type}

/-- The objects of the UUIDs go from the old table to the new one.
Source: `terminal_settings_list_update_list`, the loop -/
def moveChildren : List Text → (Text → Option α) → (Text → Option α) → (Text → Option α)
  | [], _, newChildren => newChildren
  | uuid :: uuids, children, newChildren =>
      match children uuid with
      | some child =>
          moveChildren uuids (Function.update children uuid none)
            (Function.update newChildren uuid (some child))
      | none => moveChildren uuids children newChildren

/-- The list is read again; is `children-changed` emitted?
Source: `terminal_settings_list_update_list` -/
def updateList (list : SettingsList α) (stored : Store profilesListSchema) : SettingsList α × Bool :=
  let uuids := LinuxToml.updateList false stored
  if uuids = list.uuids ∧ list.defaultUuid ∈ list.uuids then (list, false)
  else
    ({ list with uuids := uuids, children := moveChildren uuids list.children fun _ => none },
      uuids ≠ list.uuids)

/-- Source: `terminal_settings_list_update_default` -/
def updateDefault (list : SettingsList α) (stored : Store profilesListSchema) : SettingsList α :=
  { list with defaultUuid := storedDefault stored }

/-- A key has changed. `onChildrenChanged` are the handlers of `children-changed`.
Source: `terminal_settings_list_changed` -/
def changed (list : SettingsList α) (onChildrenChanged : SettingsList α → SettingsList α)
    (stored : Store profilesListSchema) : ListKey → SettingsList α
  | .list =>
      let r := list.updateList stored
      (if r.2 then onChildrenChanged r.1 else r.1).updateDefault stored
  | .default => list.updateDefault stored

/-- Source: `terminal_settings_list_constructed` -/
def constructed (stored : Store profilesListSchema) : SettingsList α :=
  changed ⟨[], [], fun _ => none⟩ id stored .list

/-- The object of a child, made when there is none yet.
Source: `terminal_settings_list_ref_child_internal` -/
def refChild (list : SettingsList α) (new : α) (uuid : Text) : SettingsList α :=
  if uuid ∉ list.uuids then list
  else if (list.children uuid).isSome then list
  else { list with children := Function.update list.children uuid (some new) }

/-- Source: `terminal_settings_list_dup_default_child` -/
def dupDefaultChild (list : SettingsList α) : Option Text :=
  if list.defaultUuid ∈ list.uuids then some list.defaultUuid else list.uuids.head?

/-! ### Reading the list again -/

/-- A child moves with its UUID. -/
theorem moveChildren_eq (uuids : List Text) (children newChildren : Text → Option α) (u : Text) :
    moveChildren uuids children newChildren u =
      if u ∈ uuids ∧ (children u).isSome then children u else newChildren u := by
  induction uuids generalizing children newChildren with
  | nil => simp [moveChildren]
  | cons v uuids ih =>
      rw [moveChildren]
      cases hv : children v with
      | none =>
          simp only [ih]
          by_cases huv : u = v
          · subst huv
            simp [hv]
          · simp [huv]
      | some child =>
          simp only [ih]
          by_cases huv : u = v
          · subst huv
            simp [hv]
          · simp [huv]

/-- The table has the objects of the UUIDs, and no others. -/
theorem moveChildren_none (uuids : List Text) (children : Text → Option α) (u : Text) :
    moveChildren uuids children (fun _ => none) u = if u ∈ uuids then children u else none := by
  rw [moveChildren_eq]
  by_cases hu : u ∈ uuids
  · cases hc : children u with
    | none => simp [hu]
    | some c => simp [hu]
  · simp [hu]

variable (list : SettingsList α) (stored : Store profilesListSchema)

/-- The list becomes what is stored, if that is valid. -/
@[simp] theorem updateList_uuids :
    (list.updateList stored).1.uuids = LinuxToml.updateList false stored := by
  unfold updateList
  dsimp only
  split_ifs with h
  · exact h.1.symm
  · rfl

@[simp] theorem updateList_defaultUuid : (list.updateList stored).1.defaultUuid = list.defaultUuid := by
  unfold updateList
  dsimp only
  split_ifs <;> rfl

/-- Children of listed UUIDs stay, the others are dropped. -/
theorem updateList_children (u : Text) :
    (list.updateList stored).1.children u =
      if u ∈ LinuxToml.updateList false stored ∨ list.uuids = LinuxToml.updateList false stored ∧
          list.defaultUuid ∈ list.uuids then list.children u
      else none := by
  unfold updateList
  dsimp only
  split_ifs with h h' h'
  · rfl
  · exact absurd (.inr ⟨h.1.symm, h.2⟩) h'
  · have hmem : u ∈ LinuxToml.updateList false stored := by
      rcases h' with h' | h'
      · exact h'
      · exact absurd ⟨h'.1.symm, h'.2⟩ h
    exact (moveChildren_none _ _ u).trans (if_pos hmem)
  · exact (moveChildren_none _ _ u).trans (if_neg fun hmem => h' (.inl hmem))

/-- `children-changed` is emitted when the UUIDs are others. -/
theorem updateList_changed :
    (list.updateList stored).2 = decide (LinuxToml.updateList false stored ≠ list.uuids) := by
  unfold updateList
  dsimp only
  split_ifs with h
  · exact (decide_eq_false (not_not.mpr h.1)).symm
  · rfl

/-- The list that is read is never empty, and all of it are UUIDs. -/
theorem valid_updateList (stored : Store profilesListSchema) :
    validateList false (LinuxToml.updateList false stored) = true := by
  unfold LinuxToml.updateList listMapFunc
  split_ifs with h
  · exact h
  · decide

/-- What a handler of `children-changed` may do: it makes objects of children. -/
structure Harmless (onChildrenChanged : SettingsList α → SettingsList α) : Prop where
  uuids : ∀ list, (onChildrenChanged list).uuids = list.uuids
  defaultUuid : ∀ list, (onChildrenChanged list).defaultUuid = list.defaultUuid
  children : ∀ list, (∀ u, (list.children u).isSome → u ∈ list.uuids) →
    ∀ u, ((onChildrenChanged list).children u).isSome → u ∈ list.uuids

/-- A handler that does nothing is harmless. -/
theorem Harmless.id : Harmless (id : SettingsList α → SettingsList α) :=
  ⟨fun _ => rfl, fun _ => rfl, fun _ h => h⟩

/-- The object shows what is stored, and has no objects of profiles that are not listed. -/
structure InStep (list : SettingsList α) (stored : Store profilesListSchema) : Prop where
  uuids : list.uuids = LinuxToml.updateList false stored
  defaultUuid : list.defaultUuid = storedDefault stored
  children : ∀ u, (list.children u).isSome → u ∈ list.uuids

section Changed

variable {onChildrenChanged : SettingsList α → SettingsList α} (h : Harmless onChildrenChanged)
  {list} {stored}

include h

/-- Told of the list, it shows what is stored. -/
theorem changed_list_uuids :
    (list.changed onChildrenChanged stored .list).uuids = LinuxToml.updateList false stored := by
  simp only [changed, updateDefault]
  split_ifs
  · rw [h.uuids, updateList_uuids]
  · exact updateList_uuids list stored

/-- And it has children of listed UUIDs only. -/
theorem changed_list_children (hchildren : ∀ u, (list.children u).isSome → u ∈ list.uuids) (u : Text)
    (hu : ((list.changed onChildrenChanged stored .list).children u).isSome) :
    u ∈ LinuxToml.updateList false stored := by
  have hmoved : ∀ u, ((list.updateList stored).1.children u).isSome →
      u ∈ LinuxToml.updateList false stored := by
    intro u hu
    rw [updateList_children] at hu
    split_ifs at hu with hmem
    · rcases hmem with hmem | ⟨hsame, -⟩
      · exact hmem
      · exact hsame ▸ hchildren u hu
    · cases hu
  simp only [changed, updateDefault] at hu
  split_ifs at hu
  · have hlisted := h.children (list.updateList stored).1 (by simpa using hmoved) u hu
    rwa [updateList_uuids] at hlisted
  · exact hmoved u hu

/-- A change of the list is followed whatever was shown before. -/
theorem inStep_changed_list (hchildren : ∀ u, (list.children u).isSome → u ∈ list.uuids) :
    InStep (list.changed onChildrenChanged stored .list) stored where
  uuids := changed_list_uuids h
  defaultUuid := rfl
  children u hu := by
    rw [changed_list_uuids h]
    exact changed_list_children h hchildren u hu

end Changed

/-- A new list is in step with what is stored. -/
theorem inStep_constructed (stored : Store profilesListSchema) :
    InStep (constructed stored : SettingsList α) stored :=
  inStep_changed_list .id (by simp)

/-- A list in step is valid. -/
theorem InStep.valid {list : SettingsList α} {stored : Store profilesListSchema}
    (hin : InStep list stored) : validateList false list.uuids = true :=
  hin.uuids ▸ valid_updateList stored

end SettingsList

/-! ### Edits -/

/-- `ListKey` as the schema names it. -/
def ListKey.name : ListKey → Text
  | .list => kProfilesListListKey
  | .default => kProfilesListDefaultKey

/-- What the backend of this process reads, the object, and the changes by other processes that it
has not heard of. -/
structure Profiles (α : Type) where
  dconf : Dconf
  list : SettingsList α
  missed : List ListKey

namespace Profiles

variable {α : Type} (onChildrenChanged : SettingsList α → SettingsList α)

/-- A write of this process. The object hears of it at once, unless the value is the one that was
there: then a backend tells of it (`terminal_settings_bridge_backend_write`) or not (dconf).
Source: `g_settings_set_value` -/
def write (told : ListKey → Bool) (s : Profiles α) (key : ListKey) (v : Variant) : Profiles α :=
  let stored := s.dconf.profilesList.setValue key.name v
  { s with
    dconf := { s.dconf with profilesList := stored }
    list :=
      if told key ∨ stored.value key.name ≠ s.dconf.profilesList.value key.name then
        s.list.changed onChildrenChanged stored key
      else s.list }

/-- Source: `g_settings_set_strv` -/
def setList (told : ListKey → Bool) (s : Profiles α) (uuids : List Text) : Profiles α :=
  s.write onChildrenChanged told .list (.stringArray uuids)

/-- Source: `g_settings_set_string` -/
def setDefault (told : ListKey → Bool) (s : Profiles α) (uuid : Text) : Profiles α :=
  s.write onChildrenChanged told .default (.string uuid)

/-- A write of another process. Its notice comes later (dconf), or never (the bridge backend, which
has no signal for it). -/
def writeOutside (s : Profiles α) (key : ListKey) (v : Variant) : Profiles α :=
  { s with
    dconf := { s.dconf with profilesList := s.dconf.profilesList.setValue key.name v }
    missed := s.missed ++ [key] }

/-- The notice of a change that was missed. -/
def deliver (s : Profiles α) (key : ListKey) : Profiles α :=
  if key ∈ s.missed then
    { s with
      list := s.list.changed onChildrenChanged s.dconf.profilesList key
      missed := s.missed.erase key }
  else s

/-- Write the keys of a profile. Source: `terminal_g_settings_backend_write_tree` -/
def setProfile (s : Profiles α) (uuid : Text) (profile : Store profileSchema) : Profiles α :=
  { s with dconf := { s.dconf with profile := Function.update s.dconf.profile uuid profile } }

/-- What `printf` writes for no UUID. -/
def nullUuid : Text := "(null)".toList

def kVisibleName : Text := "visible-name".toList

/-- Append the UUID when the list does not have it. Source: `strv_dupv_insert` -/
def strvDupvInsert (strv : List Text) (str : Text) : List Text :=
  if str ∈ strv then strv else strv ++ [str]

/-- Source: `strv_dupv_remove` -/
def strvDupvRemove (strv : List Text) (str : Text) : List Text := strv.filter (· ≠ str)

/-- A new child with a UUID of `uuid_generate`, and the settings of another when one is given. The
new list comes from the object, not from what is stored.
Source: `terminal_settings_list_add_child_internal` -/
def addChild (told : ListKey → Bool) (s : Profiles α) (newUuid : Text) (uuid : Option Text)
    (name : Option Text) : Profiles α :=
  let clone := s.dconf.profile (uuid.getD nullUuid)
  let tree := name.elim clone fun name => clone.setValue kVisibleName (.string name)
  (s.setProfile newUuid tree).setList onChildrenChanged told
    (strvDupvInsert s.list.uuids newUuid)

/-- All keys at their defaults. Source: `terminal_g_settings_backend_erase_path` -/
def erasePath (s : Profiles α) (uuid : Text) : Profiles α :=
  s.setProfile uuid (.ofDefaults _ profileSchema_defaults)

/-- The last child is not removed. Source: `terminal_settings_list_remove_child_internal` -/
def removeChild (told : ListKey → Bool) (s : Profiles α) (uuid : Text) : Profiles α :=
  let newUuids := strvDupvRemove s.list.uuids uuid
  if newUuids.isEmpty then s
  else
    let s := s.setList onChildrenChanged told newUuids
    let s := if s.list.defaultUuid = uuid then s.setDefault onChildrenChanged told [] else s
    s.erasePath uuid

/-- Source: `terminal_settings_list_set_default_child` -/
def setDefaultChild (told : ListKey → Bool) (s : Profiles α) (uuid : Text) : Profiles α :=
  if validUuid uuid ∧ uuid ∈ s.list.uuids then s.setDefault onChildrenChanged told uuid else s

/-- The default profile stays. Source: `terminal_app_remove_profile` -/
def removeProfile (told : ListKey → Bool) (s : Profiles α) (uuid : Text) : Profiles α :=
  if s.list.dupDefaultChild = some uuid then s else s.removeChild onChildrenChanged told uuid

/-- What can happen to the profiles: the edits, a use of a child, writes of this process (`told`
says of which writes without effect its backend tells) and of others, and a late notice. -/
inductive Event where
  | newProfile (told : ListKey → Bool) (newUuid : Text) (base name : Option Text)
  | removeProfile (told : ListKey → Bool) (uuid : Text)
  | setDefaultChild (told : ListKey → Bool) (uuid : Text)
  | refChild (uuid : Text)
  | write (told : ListKey → Bool) (key : ListKey) (v : Variant)
  | writeOutside (key : ListKey) (v : Variant)
  | writeProfile (uuid : Text) (profile : Store profileSchema)
  | deliver (key : ListKey)

/-- One event; `new` is a new child object. -/
def step (new : α) (s : Profiles α) : Event → Profiles α
  | .newProfile told newUuid base name => s.addChild onChildrenChanged told newUuid base name
  | .removeProfile told uuid => s.removeProfile onChildrenChanged told uuid
  | .setDefaultChild told uuid => s.setDefaultChild onChildrenChanged told uuid
  | .refChild uuid => { s with list := s.list.refChild new uuid }
  | .write told key v => s.write onChildrenChanged told key v
  | .writeOutside key v => s.writeOutside key v
  | .writeProfile uuid profile => s.setProfile uuid profile
  | .deliver key => s.deliver onChildrenChanged key

/-- The object of this process shows what is stored. -/
abbrev InStep (s : Profiles α) : Prop := s.list.InStep s.dconf.profilesList

/-- The list is a valid one with objects of its profiles only, and each key that the object has not
missed a change of is as it is stored. -/
structure Sound (s : Profiles α) : Prop where
  valid : validateList false s.list.uuids = true
  children : ∀ u, (s.list.children u).isSome → u ∈ s.list.uuids
  uuids : .list ∉ s.missed → s.list.uuids = LinuxToml.updateList false s.dconf.profilesList
  defaultUuid : .default ∉ s.missed → s.list.defaultUuid = storedDefault s.dconf.profilesList

section Sound

variable {s : Profiles α}

/-- Without a missed change the object is in step. -/
theorem Sound.inStep (hs : s.Sound) (hmissed : s.missed = []) : s.InStep :=
  ⟨hs.uuids (by simp [hmissed]), hs.defaultUuid (by simp [hmissed]), hs.children⟩

/-- A new list is sound. -/
theorem sound_constructed (d : Dconf) :
    (⟨d, .constructed d.profilesList, []⟩ : Profiles α).Sound := by
  have hin : SettingsList.InStep (.constructed d.profilesList : SettingsList α) d.profilesList :=
    SettingsList.inStep_constructed d.profilesList
  exact ⟨hin.valid, hin.children, fun _ => hin.uuids, fun _ => hin.defaultUuid⟩

/-- The two keys have different names. -/
theorem listKey_name_injective : Function.Injective ListKey.name := by
  intro k k' h
  cases k <;> cases k' <;> first | rfl | exact absurd h (by decide)

/-- A write of another key, and one without effect, leaves the value of a key. -/
theorem value_setValue (stored : Store profilesListSchema) {key key' : ListKey} (v : Variant)
    (h : (stored.setValue key.name v).value key.name = stored.value key.name ∨ key' ≠ key) :
    (stored.setValue key.name v).value key'.name = stored.value key'.name := by
  by_cases hkey : key' = key
  · exact hkey ▸ h.resolve_right (not_not.mpr hkey)
  · exact stored.setValue_of_ne v (listKey_name_injective.ne hkey)

/-- The list depends on its own key only. -/
theorem updateList_congr {stored stored' : Store profilesListSchema}
    (h : stored'.value ListKey.list.name = stored.value ListKey.list.name) :
    LinuxToml.updateList false stored' = LinuxToml.updateList false stored :=
  congrArg (fun v => (listMapFunc false (strv v)).getD defaultList) h

theorem storedDefault_congr {stored stored' : Store profilesListSchema}
    (h : stored'.value ListKey.default.name = stored.value ListKey.default.name) :
    storedDefault stored' = storedDefault stored :=
  congrArg str? h

/-- A write of another process: the object is as it was, and the key is one that was missed. -/
theorem sound_writeOutside (hs : s.Sound) (key : ListKey) (v : Variant) :
    (s.writeOutside key v).Sound where
  valid := hs.valid
  children := hs.children
  uuids hmissed := by
    simp only [writeOutside, List.mem_append, List.mem_singleton, not_or] at hmissed
    exact (hs.uuids hmissed.1).trans
      (updateList_congr (value_setValue _ v (.inr hmissed.2))).symm
  defaultUuid hmissed := by
    simp only [writeOutside, List.mem_append, List.mem_singleton, not_or] at hmissed
    exact (hs.defaultUuid hmissed.1).trans
      (storedDefault_congr (value_setValue _ v (.inr hmissed.2))).symm

/-- A new child of a listed UUID keeps it sound. -/
theorem sound_refChild (hs : s.Sound) (new : α) (uuid : Text) :
    Sound { s with list := s.list.refChild new uuid } := by
  unfold SettingsList.refChild
  by_cases hmem : uuid ∈ s.list.uuids
  · rw [if_neg (not_not.mpr hmem)]
    split_ifs
    · exact hs
    · refine ⟨hs.valid, fun u hu => ?_, hs.uuids, hs.defaultUuid⟩
      by_cases huv : u = uuid
      · exact huv ▸ hmem
      · simp only [Function.update_of_ne huv] at hu
        exact hs.children u hu
  · rw [if_pos hmem]
    exact hs

/-- A change of the settings of a profile is none of the list. -/
theorem Sound.setProfile (hs : s.Sound) (uuid : Text) (profile : Store profileSchema) :
    (s.setProfile uuid profile).Sound :=
  ⟨hs.valid, hs.children, hs.uuids, hs.defaultUuid⟩

variable {onChildrenChanged} (h : SettingsList.Harmless onChildrenChanged)

include h

/-- The object hears of a change: it reads the key again, and the default also when it is the list.
`missed'` may leave that key out. -/
theorem sound_changed (hs : s.Sound) (key : ListKey) {missed' : List ListKey}
    (hmissed : ∀ key' ≠ key, key' ∉ missed' → key' ∉ s.missed) :
    Sound ⟨s.dconf, s.list.changed onChildrenChanged s.dconf.profilesList key, missed'⟩ := by
  cases key with
  | list =>
      have hin : (s.list.changed onChildrenChanged s.dconf.profilesList .list).InStep
          s.dconf.profilesList := SettingsList.inStep_changed_list h hs.children
      exact ⟨hin.valid, hin.children, fun _ => hin.uuids, fun _ => hin.defaultUuid⟩
  | default =>
      exact ⟨hs.valid, hs.children, fun hlist => hs.uuids (hmissed .list (by decide) hlist),
        fun _ => rfl⟩

/-- So does a write of this process, told or not. -/
theorem sound_write (hs : s.Sound) (told : ListKey → Bool) (key : ListKey) (v : Variant) :
    (s.write onChildrenChanged told key v).Sound := by
  have hother := sound_writeOutside hs key v
  unfold write
  dsimp only
  split_ifs with hheard
  · -- the object as it was, with the key as one that it has not heard of yet
    exact sound_changed h hother key fun key' hne hkey' => by
      simp only [writeOutside, List.mem_append, List.mem_singleton, not_or]
      exact ⟨hkey', hne⟩
  · have hsame := not_not.mp (not_or.mp hheard).2
    exact ⟨hs.valid, hs.children,
      fun hmissed => (hs.uuids hmissed).trans
        (updateList_congr (value_setValue _ v (.inl hsame))).symm,
      fun hmissed => (hs.defaultUuid hmissed).trans
        (storedDefault_congr (value_setValue _ v (.inl hsame))).symm⟩

/-- So does a notice of a write. -/
theorem sound_deliver (hs : s.Sound) (key : ListKey) : (s.deliver onChildrenChanged key).Sound := by
  unfold deliver
  split_ifs
  · refine sound_changed h hs key fun key' hne hkey' => ?_
    rwa [List.mem_erase_of_ne hne] at hkey'
  · exact hs

/-- So does the removal of a profile. -/
theorem sound_removeChild (hs : s.Sound) (told : ListKey → Bool) (uuid : Text) :
    (s.removeChild onChildrenChanged told uuid).Sound := by
  have hlist : (s.setList onChildrenChanged told (strvDupvRemove s.list.uuids uuid)).Sound :=
    sound_write h hs told .list _
  unfold removeChild
  dsimp only
  split_ifs
  · exact hs
  · exact (sound_write h hlist told .default _).setProfile uuid _
  · exact hlist.setProfile uuid _

/-- One event. -/
theorem sound_step (hs : s.Sound) (new : α) (e : Event) :
    (s.step onChildrenChanged new e).Sound := by
  cases e with
  | newProfile told newUuid base name => exact sound_write h (hs.setProfile newUuid _) told .list _
  | removeProfile told uuid =>
      simp only [step, removeProfile]
      split_ifs
      · exact hs
      · exact sound_removeChild h hs told uuid
  | setDefaultChild told uuid =>
      simp only [step, setDefaultChild]
      split_ifs
      · exact sound_write h hs told .default _
      · exact hs
  | refChild uuid => exact sound_refChild hs new uuid
  | write told key v => exact sound_write h hs told key v
  | writeOutside key v => exact sound_writeOutside hs key v
  | writeProfile uuid profile => exact hs.setProfile uuid profile
  | deliver key => exact sound_deliver h hs key

/-- Any number of events. -/
theorem sound_steps (hs : s.Sound) (new : α) (es : List Event) :
    (es.foldl (step onChildrenChanged new) s).Sound := by
  induction es generalizing s with
  | nil => exact hs
  | cons e es ih => exact ih (sound_step h hs new e)

end Sound

/-! ### What the edits do -/

/-- All the notices that are out come. -/
def deliverAll (s : Profiles α) : Profiles α := s.missed.foldl (deliver onChildrenChanged) s

section Stored

variable (told : ListKey → Bool) (s : Profiles α)

/-- When they have come nothing is missed, and nothing else has changed. -/
theorem deliverAll_spec :
    (s.deliverAll onChildrenChanged).missed = [] ∧
      (s.deliverAll onChildrenChanged).dconf = s.dconf := by
  obtain ⟨dconf, list, missed⟩ := s
  unfold deliverAll
  dsimp only
  induction missed generalizing list with
  | nil => exact ⟨rfl, rfl⟩
  | cons key missed ih =>
      rw [List.foldl_cons, deliver, if_pos List.mem_cons_self, List.erase_cons_head]
      exact ih _

/-- A list of UUIDs is stored as it is. -/
theorem storedList_setList {uuids : List Text} (hvalid : validateList false uuids = true) :
    storedList (s.setList onChildrenChanged told uuids).dconf.profilesList = uuids := by
  have hnul : uuids.all nulFree = true := by
    rw [List.all_eq_true]
    intro u hu
    exact nulFree_of_validUuid (List.all_eq_true.mp (Bool.and_eq_true_iff.mp hvalid).1 u hu)
  have hset := s.dconf.profilesList.setValue_self listKey_mem (.stringArray uuids)
  have hacc : listKey.accepts (.stringArray uuids) = true := by
    simp only [KeySpec.accepts, listKey, strs, Variant.hasType, Range.accepts, hnul, Bool.and_true]
  rw [if_pos hacc] at hset
  exact congrArg strv hset

/-- A new list does not change the default. -/
theorem storedDefault_setList (uuids : List Text) :
    storedDefault (s.setList onChildrenChanged told uuids).dconf.profilesList =
      storedDefault s.dconf.profilesList :=
  storedDefault_congr (value_setValue _ _ (.inr (by decide)))

/-- A new default is stored. -/
theorem storedDefault_setDefault {uuid : Text} (hnul : nulFree uuid = true) :
    storedDefault (s.setDefault onChildrenChanged told uuid).dconf.profilesList = uuid := by
  have hmem : str "default" "b1dcc9dd-5262-4d8d-a863-c897e6d979b9" ∈ profilesListSchema.keys := by
    simp [profilesListSchema]
  have hset := s.dconf.profilesList.setValue_self hmem (.string uuid)
  have hacc : (str "default" "b1dcc9dd-5262-4d8d-a863-c897e6d979b9").accepts (.string uuid) = true := by
    simp only [KeySpec.accepts, str, Variant.hasType, Range.accepts, hnul, Bool.and_true]
  rw [if_pos hacc] at hset
  exact congrArg str? hset

/-- And the list is unchanged. -/
theorem storedList_setDefault (uuid : Text) :
    storedList (s.setDefault onChildrenChanged told uuid).dconf.profilesList =
      storedList s.dconf.profilesList := by
  have hother : ListKey.list ≠ ListKey.default := by decide
  exact congrArg strv (value_setValue s.dconf.profilesList (.string uuid) (.inr hother))

end Stored

section Effects

variable {onChildrenChanged} (h : SettingsList.Harmless onChildrenChanged) {s : Profiles α}
  (told : ListKey → Bool)

include h in
/-- Then the object is in step. -/
theorem inStep_deliverAll (hs : s.Sound) : (s.deliverAll onChildrenChanged).InStep := by
  have hsound : ∀ (keys : List ListKey) (s : Profiles α), s.Sound →
      (keys.foldl (deliver onChildrenChanged) s).Sound := by
    intro keys
    induction keys with
    | nil => exact fun _ hs => hs
    | cons key keys ih => exact fun s hs => ih _ (sound_deliver h hs key)
  exact (hsound s.missed s hs).inStep (deliverAll_spec onChildrenChanged s).1

/-- A valid list is not empty. -/
theorem ne_nil_of_valid {uuids : List Text} (hvalid : validateList false uuids = true) :
    uuids ≠ [] := by
  rintro rfl
  cases hvalid

/-- There is a default child, and it is one of the list. -/
theorem Sound.exists_default (hs : s.Sound) :
    ∃ u ∈ s.list.uuids, s.list.dupDefaultChild = some u := by
  unfold SettingsList.dupDefaultChild
  split_ifs with hlisted
  · exact ⟨_, hlisted, rfl⟩
  · obtain ⟨u, us, hus⟩ := List.exists_cons_of_ne_nil (ne_nil_of_valid hs.valid)
    exact ⟨u, hus ▸ List.mem_cons_self, by rw [hus]; rfl⟩

/-- It stays valid without one of its UUIDs, unless none is left. -/
theorem valid_strvDupvRemove {uuids : List Text} (hvalid : validateList false uuids = true)
    {uuid : Text} (hrest : strvDupvRemove uuids uuid ≠ []) :
    validateList false (strvDupvRemove uuids uuid) = true := by
  have hall := List.all_eq_true.mp (Bool.and_eq_true_iff.mp hvalid).1
  refine Bool.and_eq_true_iff.mpr ⟨?_, by simpa using hrest⟩
  exact List.all_eq_true.mpr fun u hu => hall u (List.mem_of_mem_filter hu)

/-- And with a valid one at its end. -/
theorem valid_append_singleton {uuids : List Text} (hvalid : validateList false uuids = true)
    {uuid : Text} (hnew : validUuid uuid = true) :
    validateList false (uuids ++ [uuid]) = true := by
  rw [validateList_append, (Bool.and_eq_true_iff.mp hvalid).1, hnew]
  rfl

/-- A profile that is not the default one leaves a list behind. -/
theorem Sound.rest_ne_nil (hs : s.Sound) {uuid : Text}
    (hdefault : s.list.dupDefaultChild ≠ some uuid) :
    strvDupvRemove s.list.uuids uuid ≠ [] := by
  obtain ⟨u, hu, hdup⟩ := hs.exists_default
  have hne : u ≠ uuid := by
    rintro rfl
    exact hdefault hdup
  exact List.ne_nil_of_mem (List.mem_filter.mpr ⟨hu, by simpa using hne⟩)

/-- What is stored after a removal: the list that was shown, without the profile. -/
theorem storedList_removeProfile (hs : s.Sound) {uuid : Text}
    (hdefault : s.list.dupDefaultChild ≠ some uuid) :
    storedList (s.removeProfile onChildrenChanged told uuid).dconf.profilesList =
      s.list.uuids.filter (· ≠ uuid) := by
  have hrest := hs.rest_ne_nil hdefault
  have hempty : ¬ (strvDupvRemove s.list.uuids uuid).isEmpty = true := by simpa using hrest
  have hstored := storedList_setList onChildrenChanged told s (valid_strvDupvRemove hs.valid hrest)
  unfold removeProfile removeChild
  dsimp only
  rw [if_neg hdefault, if_neg hempty]
  split_ifs
  · exact (storedList_setDefault onChildrenChanged told _ []).trans hstored
  · exact hstored

/-- What is stored after a new profile: the list that was shown, and the profile. -/
theorem storedList_addChild (hs : s.Sound) {newUuid : Text} (hvalid : validUuid newUuid = true)
    (hnew : newUuid ∉ s.list.uuids) (base name : Option Text) :
    storedList (s.addChild onChildrenChanged told newUuid base name).dconf.profilesList =
      s.list.uuids ++ [newUuid] := by
  have hinsert : strvDupvInsert s.list.uuids newUuid = s.list.uuids ++ [newUuid] := if_neg hnew
  rw [addChild, hinsert]
  exact storedList_setList onChildrenChanged told _ (valid_append_singleton hs.valid hvalid)

/-! ### The edits when nothing is missed -/

section InStep

variable (hs : s.Sound) (hmissed : s.missed = [])

include h hs hmissed

/-- A write that is told of leaves the list in step. -/
theorem inStep_write (key : ListKey) (v : Variant) :
    (s.write onChildrenChanged told key v).InStep :=
  (sound_write h hs told key v).inStep hmissed

/-- The new list is shown. -/
theorem setList_uuids {uuids : List Text}
    (hvalid : validateList false uuids = true) :
    (s.setList onChildrenChanged told uuids).list.uuids = uuids := by
  have hin : (s.setList onChildrenChanged told uuids).InStep := inStep_write h told hs hmissed _ _
  have hstored := storedList_setList onChildrenChanged told s hvalid
  rw [hin.uuids, updateList_of_valid (by rw [hstored]; exact hvalid), hstored]

theorem setList_defaultUuid (uuids : List Text) :
    (s.setList onChildrenChanged told uuids).list.defaultUuid = s.list.defaultUuid := by
  have hin : (s.setList onChildrenChanged told uuids).InStep := inStep_write h told hs hmissed _ _
  rw [hin.defaultUuid, storedDefault_setList, (hs.inStep hmissed).defaultUuid]

/-- The new default is cached. -/
theorem setDefault_defaultUuid {uuid : Text} (hnul : nulFree uuid = true) :
    (s.setDefault onChildrenChanged told uuid).list.defaultUuid = uuid := by
  have hin : (s.setDefault onChildrenChanged told uuid).InStep :=
    inStep_write h told hs hmissed _ _
  rw [hin.defaultUuid, storedDefault_setDefault _ _ _ hnul]

theorem setDefault_uuids (uuid : Text) :
    (s.setDefault onChildrenChanged told uuid).list.uuids = s.list.uuids := by
  have hin : (s.setDefault onChildrenChanged told uuid).InStep :=
    inStep_write h told hs hmissed _ _
  rw [hin.uuids, (hs.inStep hmissed).uuids, LinuxToml.updateList, storedList_setDefault]
  rfl

/-- A child that is not the last one is removed from the list, its settings are reset, and it is not
the default any more; all else stays. -/
theorem removeChild_spec {uuid : Text}
    (hrest : strvDupvRemove s.list.uuids uuid ≠ []) :
    (s.removeChild onChildrenChanged told uuid).list.uuids =
        strvDupvRemove s.list.uuids uuid ∧
      (s.removeChild onChildrenChanged told uuid).list.defaultUuid =
        (if s.list.defaultUuid = uuid then [] else s.list.defaultUuid) ∧
      (s.removeChild onChildrenChanged told uuid).dconf.profile =
        Function.update s.dconf.profile uuid (.ofDefaults _ profileSchema_defaults) := by
  have hempty : ¬ (strvDupvRemove s.list.uuids uuid).isEmpty = true := by simpa using hrest
  have huuids := setList_uuids h told hs hmissed (valid_strvDupvRemove hs.valid hrest)
  have hdefault := setList_defaultUuid h told hs hmissed (strvDupvRemove s.list.uuids uuid)
  have hsound : (s.setList onChildrenChanged told (strvDupvRemove s.list.uuids uuid)).Sound :=
    sound_write h hs told .list _
  unfold removeChild
  dsimp only
  rw [if_neg hempty, hdefault]
  split_ifs with hD
  · exact ⟨(setDefault_uuids h told hsound hmissed []).trans huuids,
      setDefault_defaultUuid h told hsound hmissed rfl, rfl⟩
  · exact ⟨huuids, hdefault, rfl⟩

/-- **Removing a profile never changes the default one.** -/
theorem dupDefaultChild_removeProfile (uuid : Text) :
    (s.removeProfile onChildrenChanged told uuid).list.dupDefaultChild =
      s.list.dupDefaultChild := by
  unfold removeProfile
  split_ifs with hdefault
  · rfl
  · obtain ⟨huuids, hD, -⟩ :=
      removeChild_spec h told hs hmissed (hs.rest_ne_nil hdefault)
    unfold SettingsList.dupDefaultChild at hdefault ⊢
    rw [huuids, hD]
    by_cases hlisted : s.list.defaultUuid ∈ s.list.uuids
    · rw [if_pos hlisted] at hdefault ⊢
      have hne : s.list.defaultUuid ≠ uuid := fun heq => hdefault (congrArg some heq)
      have hkept : s.list.defaultUuid ∈ strvDupvRemove s.list.uuids uuid :=
        List.mem_filter.mpr ⟨hlisted, by simpa using hne⟩
      rw [if_neg hne, if_pos hkept]
    · rw [if_neg hlisted] at hdefault ⊢
      obtain ⟨u, us, hus⟩ := List.exists_cons_of_ne_nil (ne_nil_of_valid hs.valid)
      rw [hus, List.head?_cons] at hdefault
      have hne : u ≠ uuid := fun heq => hdefault (congrArg some heq)
      have hhead : (strvDupvRemove s.list.uuids uuid).head? = s.list.uuids.head? := by
        rw [strvDupvRemove, hus, List.filter_cons_of_pos (by simpa using hne)]
        rfl
      have hout : (if s.list.defaultUuid = uuid then [] else s.list.defaultUuid) ∉
          strvDupvRemove s.list.uuids uuid := by
        intro hmem
        have hmem := List.mem_of_mem_filter hmem
        split_ifs at hmem
        · have hall := List.all_eq_true.mp (Bool.and_eq_true_iff.mp hs.valid).1 _ hmem
          exact ne_nil_of_validUuid hall rfl
        · exact hlisted hmem
      rw [if_neg hout, hhead]

/-- A profile that is removed is the only one that goes, and its settings with it. -/
theorem removeProfile_spec {uuid : Text}
    (hdefault : s.list.dupDefaultChild ≠ some uuid) :
    (s.removeProfile onChildrenChanged told uuid).list.uuids = s.list.uuids.filter (· ≠ uuid) ∧
      (s.removeProfile onChildrenChanged told uuid).dconf.profile =
        Function.update s.dconf.profile uuid (.ofDefaults _ profileSchema_defaults) := by
  obtain ⟨huuids, -, hprofile⟩ := removeChild_spec h told hs hmissed (hs.rest_ne_nil hdefault)
  rw [removeProfile, if_neg hdefault]
  exact ⟨huuids, hprofile⟩

/-- A new profile comes to the end of the list, and the default stays. -/
theorem addChild_spec {newUuid : Text} (hvalid : validUuid newUuid = true)
    (hnew : newUuid ∉ s.list.uuids) (hfresh : newUuid ≠ s.list.defaultUuid)
    (base name : Option Text) :
    (s.addChild onChildrenChanged told newUuid base name).list.uuids =
        s.list.uuids ++ [newUuid] ∧
      (s.addChild onChildrenChanged told newUuid base name).list.dupDefaultChild =
        s.list.dupDefaultChild ∧
      ∀ u ≠ newUuid, (s.addChild onChildrenChanged told newUuid base name).dconf.profile u =
        s.dconf.profile u := by
  have hinsert : strvDupvInsert s.list.uuids newUuid = s.list.uuids ++ [newUuid] := if_neg hnew
  have huuids : (s.addChild onChildrenChanged told newUuid base name).list.uuids =
      s.list.uuids ++ [newUuid] := by
    rw [addChild, hinsert]
    exact setList_uuids h told (hs.setProfile _ _) hmissed (valid_append_singleton hs.valid hvalid)
  have hD : (s.addChild onChildrenChanged told newUuid base name).list.defaultUuid =
      s.list.defaultUuid := setList_defaultUuid h told (hs.setProfile _ _) hmissed _
  refine ⟨huuids, ?_, fun u hu => Function.update_of_ne hu _ _⟩
  unfold SettingsList.dupDefaultChild
  rw [huuids, hD]
  by_cases hlisted : s.list.defaultUuid ∈ s.list.uuids
  · rw [if_pos hlisted, if_pos (List.mem_append_left _ hlisted)]
  · have hout : s.list.defaultUuid ∉ s.list.uuids ++ [newUuid] := by
      rw [List.mem_append, List.mem_singleton]
      rintro (hmem | hmem)
      · exact hlisted hmem
      · exact hfresh hmem.symm
    obtain ⟨v, vs, hvs⟩ := List.exists_cons_of_ne_nil (ne_nil_of_valid hs.valid)
    rw [if_neg hlisted, if_neg hout, hvs]
    rfl

/-- A new profile that is removed again: the list and the default are as they were, and all settings
but its own. -/
theorem addChild_removeProfile {newUuid : Text} (hvalid : validUuid newUuid = true)
    (hnew : newUuid ∉ s.list.uuids) (hfresh : newUuid ≠ s.list.defaultUuid)
    (base name : Option Text) (r : Profiles α)
    (hr : r = (s.addChild onChildrenChanged told newUuid base name).removeProfile
      onChildrenChanged told newUuid) :
    r.list.uuids = s.list.uuids ∧ r.list.dupDefaultChild = s.list.dupDefaultChild ∧
      ∀ u ≠ newUuid, r.dconf.profile u = s.dconf.profile u := by
  subst hr
  obtain ⟨huuids, hdup, hprofile⟩ := addChild_spec h told hs hmissed hvalid hnew hfresh base name
  have hs' : (s.addChild onChildrenChanged told newUuid base name).Sound :=
    sound_write h (hs.setProfile _ _) told .list _
  have hdefault : (s.addChild onChildrenChanged told newUuid base name).list.dupDefaultChild ≠
      some newUuid := by
    obtain ⟨u, hu, hsome⟩ := hs.exists_default
    rw [hdup, hsome]
    intro heq
    exact hnew (Option.some.inj heq ▸ hu)
  have hself : s.list.uuids.filter (· ≠ newUuid) = s.list.uuids := by
    refine List.filter_eq_self.mpr fun u hu => ?_
    have hne : u ≠ newUuid := fun heq => hnew (heq ▸ hu)
    simpa using hne
  obtain ⟨hremoved, hreset⟩ := removeProfile_spec h told hs' hmissed hdefault
  refine ⟨?_, (dupDefaultChild_removeProfile h told hs' hmissed newUuid).trans hdup,
    fun u hu => ?_⟩
  · rw [hremoved, huuids, List.filter_append, hself]
    simp
  · rw [hreset, Function.update_of_ne hu]
    exact hprofile u hu

end InStep

end Effects

/-- **The profiles after any events**, with other processes writing and their notices late or lost.
The list of the object is a valid one with objects of its profiles only, it has the default child in
it, and it shows each key as it is stored that no change was missed of; when the notices come it
shows all of it. A profile that is not the default one is removed from the list that is shown, and a
new one appended to it: what another process has added unheard is lost. When nothing is missed, a
removal never changes the default child and removes that profile alone, and a new profile that is
removed again leaves the list and the default as they were, and all settings but its own. -/
theorem profiles_run {onChildrenChanged : SettingsList α → SettingsList α}
    (h : SettingsList.Harmless onChildrenChanged) (new : α) (d : Dconf) (es : List Event)
    (told : ListKey → Bool) :
    let s := es.foldl (step onChildrenChanged new) ⟨d, .constructed d.profilesList, []⟩
    s.Sound ∧ (∃ u ∈ s.list.uuids, s.list.dupDefaultChild = some u) ∧
      (s.deliverAll onChildrenChanged).InStep ∧
      (∀ uuid, s.list.dupDefaultChild ≠ some uuid →
        storedList (s.removeProfile onChildrenChanged told uuid).dconf.profilesList =
          s.list.uuids.filter (· ≠ uuid)) ∧
      (∀ newUuid base name, validUuid newUuid = true → newUuid ∉ s.list.uuids →
        storedList (s.addChild onChildrenChanged told newUuid base name).dconf.profilesList =
          s.list.uuids ++ [newUuid]) ∧
      (s.missed = [] → s.InStep ∧
        (∀ uuid, (s.removeProfile onChildrenChanged told uuid).list.dupDefaultChild =
            s.list.dupDefaultChild ∧
          (s.list.dupDefaultChild ≠ some uuid →
            (s.removeProfile onChildrenChanged told uuid).list.uuids =
                s.list.uuids.filter (· ≠ uuid) ∧
              (s.removeProfile onChildrenChanged told uuid).dconf.profile =
                Function.update s.dconf.profile uuid (.ofDefaults _ profileSchema_defaults))) ∧
        ∀ newUuid base name, validUuid newUuid = true → newUuid ∉ s.list.uuids →
          newUuid ≠ s.list.defaultUuid →
          let r := (s.addChild onChildrenChanged told newUuid base name).removeProfile
            onChildrenChanged told newUuid
          r.list.uuids = s.list.uuids ∧ r.list.dupDefaultChild = s.list.dupDefaultChild ∧
            ∀ u ≠ newUuid, r.dconf.profile u = s.dconf.profile u) := by
  intro s
  have hs : s.Sound := sound_steps h (sound_constructed d) new es
  refine ⟨hs, hs.exists_default, inStep_deliverAll h hs,
    fun uuid hdefault => storedList_removeProfile told hs hdefault,
    fun newUuid base name hvalid hnew => storedList_addChild told hs hvalid hnew base name,
    fun hmissed => ⟨hs.inStep hmissed, fun uuid => ⟨?_, ?_⟩, ?_⟩⟩
  · exact dupDefaultChild_removeProfile h told hs hmissed uuid
  · exact removeProfile_spec h told hs hmissed
  · intro newUuid base name hvalid hnew hfresh
    exact addChild_removeProfile h told hs hmissed hvalid hnew hfresh base name _ rfl

/-- Another process adds a third profile, unheard of, before the second one is removed here: the list
that is stored then has only the first one. When the notices have come before, the third one
stays. -/
theorem profiles_run_missed :
    let second := "2b1ff3a4-0d0e-4a6e-9d0e-5f2c7a9f1e11".toList
    let third := "2b1ff3a4-0d0e-4a6e-9d0e-5f2c7a9f1e22".toList
    let told : ListKey → Bool := fun _ => false
    let es := [Event.newProfile told second none none,
      .writeOutside .list (.stringArray [defaultUuid, second, third])]
    let s := es.foldl (step id ()) ⟨Dconf.fresh, .constructed Dconf.fresh.profilesList, []⟩
    let s' := (es ++ [Event.deliver .list]).foldl (step id ())
      ⟨Dconf.fresh, .constructed Dconf.fresh.profilesList, []⟩
    storedList (s.removeProfile id told second).dconf.profilesList = [defaultUuid] ∧
      s'.missed = [] ∧ (s'.removeProfile id told second).list.uuids = [defaultUuid, third] := by
  intro second third told es s s'
  obtain ⟨-, -, -, hremove, -⟩ := profiles_run SettingsList.Harmless.id () Dconf.fresh es told
  obtain ⟨-, -, -, -, -, hinStep⟩ := profiles_run SettingsList.Harmless.id () Dconf.fresh
    (es ++ [Event.deliver .list]) told
  have hmissed : s'.missed = [] := by decide
  have huuids : s.list.uuids.filter (· ≠ second) = [defaultUuid] := by decide
  have huuids' : s'.list.uuids.filter (· ≠ second) = [defaultUuid, third] := by decide
  have hdefault : s.list.dupDefaultChild ≠ some second := by decide
  have hdefault' : s'.list.dupDefaultChild ≠ some second := by decide
  have hstored : storedList (s.removeProfile id told second).dconf.profilesList =
      s.list.uuids.filter (· ≠ second) := hremove second hdefault
  have hlist : (s'.removeProfile id told second).list.uuids =
      s'.list.uuids.filter (· ≠ second) := (((hinStep hmissed).2.1 second).2 hdefault').1
  exact ⟨hstored.trans huuids, hmissed, hlist.trans huuids'⟩

end Profiles

end Axan.LinuxToml
