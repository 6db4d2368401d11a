import Axan.LinuxToml.SettingsFile
import Axan.LinuxToml.SettingsList

/-!
# The mirrors of the settings

The server writes `settings.toml`, `keybindings.toml` and a file for each profile again when a
setting has changed: a notice of a change starts a timer, and the timer writes all files and removes
those of profiles that are gone. Changes come from other processes too, and the notice of a change
may be read long after the change.

* `AutoExport`, `Event`, `step` — the server, the stored settings, the notices that are on their
  way, and the files.
* `Watches`, `watches_run` — **every listed profile is watched exactly once**, in every run.
* `Fresh`, `fresh_step` — a file is what it should be, or its writing is under way.
* `mirrors_run` — **when nothing is under way the files are those of the settings.**
* `settles_run` — the notices in any order, and one timer, get there.
* `untouched_run` — what is never written or removed, whatever fails.
-/

namespace Axan.LinuxToml

open Axan.Base Axan.Base.Settings

/-! ### Files -/

/-- The files of the configuration; those of `profiles/` by their names. -/
structure Files where
  settings : Option Bytes
  keybindings : Option Bytes
  profiles : Text → Option Bytes

def kToml : Text := ".toml".toList

/-- `g_str_has_suffix (name, ".toml")` -/
def hasTomlSuffix (name : Text) : Bool := kToml.isSuffixOf name

/-- `g_strndup (name, strlen (name) - 5)` -/
def stem (name : Text) : Text := name.take (name.length - 5)

/-- Source: `axan_profile_toml_default_path` -/
def profileFile (uuid : Text) : Text := uuid ++ kToml

/-- What can be opened for writing, and what can be removed, at one time. -/
structure Disk where
  settings : Bool
  keybindings : Bool
  profile : Text → Bool
  unlink : Text → Bool

/-- Nothing fails. -/
structure Disk.Ok (disk : Disk) : Prop where
  settings : disk.settings = true
  keybindings : disk.keybindings = true
  profile : ∀ uuid, disk.profile uuid = true
  unlink : ∀ name, disk.unlink name = true

/-! ### The server -/

/-- A change that an object has not heard of yet. -/
inductive Notice where
  | settings
  | keybindings
  | list (key : ListKey)
  | profile (uuid : Text)
  deriving DecidableEq

/-- What is known of the object of a profile is how often `on_any_changed` is connected to it.
`pending` is a timer. -/
structure AutoExport where
  dconf : Dconf
  list : SettingsList ℕ
  queue : List Notice
  pending : Bool
  files : Files

/-- A handler that was there is disconnected, and one is connected.
Source: `resync_profile_watchers`, the loop -/
def watchChild (list : SettingsList ℕ) (uuid : Text) : SettingsList ℕ :=
  if validUuid uuid then
    let list := list.refChild 0 uuid
    match list.children uuid with
    | none => list
    | some _ => { list with children := Function.update list.children uuid (some 1) }
  else list

/-- Source: `resync_profile_watchers`, `on_profile_children_changed` -/
def resyncProfileWatchers (list : SettingsList ℕ) : SettingsList ℕ :=
  list.uuids.foldl watchChild list

namespace AutoExport

/-- Source: `schedule_resync`, `on_any_changed` -/
def scheduleResync (s : AutoExport) : AutoExport := { s with pending := true }

/-- The handlers of a change. -/
def hear (s : AutoExport) : Notice → AutoExport
  | .settings => s.scheduleResync
  | .keybindings => s.scheduleResync
  | .list key =>
      { s.scheduleResync with
        list := s.list.changed resyncProfileWatchers s.dconf.profilesList key }
  | .profile uuid =>
      match s.list.children uuid with
      | some (_ + 1) => s.scheduleResync
      | _ => s

section Export

variable (print : Variant → Text)

/-- Source: `fire_resync`, the loop -/
def exportProfile (disk : Disk) (d : Dconf) (profiles : Text → Option Bytes) (uuid : Text) :
    Text → Option Bytes :=
  match profileTomlExport print uuid (d.profile uuid) with
  | none => profiles
  | some text =>
      if disk.profile uuid then Function.update profiles (profileFile uuid) (some (utf8 text))
      else profiles

/-- Source: `delete_orphan_profile_tomls` -/
def deleteOrphanProfileTomls (disk : Disk) (liveUuids : List Text) (profiles : Text → Option Bytes) :
    Text → Option Bytes :=
  fun name =>
    if hasTomlSuffix name ∧ stem name ∉ liveUuids ∧ disk.unlink name = true then none
    else profiles name

/-- Source: `fire_resync` -/
def fireResync (disk : Disk) (s : AutoExport) : AutoExport :=
  { s with
    pending := false
    files :=
      { settings :=
          if disk.settings then some (utf8 (settingsTomlExport print s.dconf)) else s.files.settings
        keybindings :=
          if disk.keybindings then some (utf8 (keybindingsTomlExport print s.dconf))
          else s.files.keybindings
        profiles := deleteOrphanProfileTomls disk s.list.uuids
          (s.list.uuids.foldl (exportProfile print disk s.dconf) s.files.profiles) } }

/-- What can happen: a write, by any process; a notice that arrives; a use of a profile; a change of
a profile that is not listed any more, but still in use; the timer. -/
inductive Event where
  | writeSettings (settings : Store settingsSchema)
  | writeKeybindings (keybindings : Store keybindingsSchema)
  | writeList (uuids : List Text)
  | writeDefault (uuid : Text)
  | writeProfile (uuid : Text) (profile : Store profileSchema)
  | deliver (notice : Notice)
  | refChild (uuid : Text)
  | unlistedChanged
  | fire (disk : Disk)

/-- The settings after a write, and what is to be heard of it. -/
def write (s : AutoExport) (dconf : Dconf) (notice : Notice) : AutoExport :=
  { s with dconf := dconf, queue := s.queue ++ [notice] }

def step (s : AutoExport) : Event → AutoExport
  | .writeSettings settings => s.write { s.dconf with settings := settings } .settings
  | .writeKeybindings keybindings =>
      s.write { s.dconf with keybindings := keybindings } .keybindings
  | .writeList uuids =>
      s.write
        { s.dconf with
          profilesList := s.dconf.profilesList.setValue kProfilesListListKey (.stringArray uuids) }
        (.list .list)
  | .writeDefault uuid =>
      s.write
        { s.dconf with
          profilesList := s.dconf.profilesList.setValue kProfilesListDefaultKey (.string uuid) }
        (.list .default)
  | .writeProfile uuid profile =>
      s.write { s.dconf with profile := Function.update s.dconf.profile uuid profile }
        (.profile uuid)
  | .deliver notice =>
      if notice ∈ s.queue then { s with queue := s.queue.erase notice }.hear notice else s
  | .refChild uuid => { s with list := s.list.refChild 0 uuid }
  | .unlistedChanged => s.scheduleResync
  | .fire disk => if s.pending then s.fireResync print disk else s

def run (s : AutoExport) (es : List Event) : AutoExport := es.foldl (step print) s

end Export

/-- The first start writes the files, a later one waits for a change.
Source: `axan_auto_export_init` -/
def start (d : Dconf) (files : Files) : AutoExport where
  dconf := d
  list := resyncProfileWatchers (.constructed d.profilesList)
  queue := []
  pending := files.settings.isNone
  files := files

end AutoExport

/-! ### Watching -/

section Watch

variable {list : SettingsList ℕ}

/-- The object of a listed profile has one handler, whether it was there or not. -/
theorem watchChild_eq {uuid : Text} (hvalid : validUuid uuid = true) (hmem : uuid ∈ list.uuids) :
    watchChild list uuid =
      { list with children := Function.update list.children uuid (some 1) } := by
  unfold watchChild SettingsList.refChild
  rw [if_pos hvalid, if_neg (not_not.mpr hmem)]
  cases hchild : list.children uuid with
  | none => simp
  | some n => simp [hchild]

/-- Valid UUIDs of the list are all watched. -/
theorem foldl_watchChild (uuids : List Text) (h : ∀ u ∈ uuids, validUuid u = true ∧ u ∈ list.uuids) :
    uuids.foldl watchChild list =
      { list with children := fun u => if u ∈ uuids then some 1 else list.children u } := by
  induction uuids generalizing list with
  | nil => simp
  | cons v uuids ih =>
      obtain ⟨hvalid, hmem⟩ := h v List.mem_cons_self
      have hrest := @ih { list with children := Function.update list.children v (some 1) }
        fun u hu => h u (List.mem_cons_of_mem _ hu)
      rw [List.foldl_cons, watchChild_eq hvalid hmem, hrest]
      congr 1
      funext u
      by_cases huv : u = v
      · subst huv
        simp
      · simp [huv]

/-- Every listed profile has one handler. -/
theorem resyncProfileWatchers_eq (h : validateList false list.uuids = true) :
    resyncProfileWatchers list =
      { list with children := fun u => if u ∈ list.uuids then some 1 else list.children u } := by
  refine foldl_watchChild list.uuids fun u hu => ⟨?_, hu⟩
  exact List.all_eq_true.mp (Bool.and_eq_true_iff.mp h).1 u hu

end Watch

namespace AutoExport

/-- The object of the list is right or will hear of a change; it lists UUIDs; and the profiles that
it lists are watched, each once, and no others. -/
structure Watches (s : AutoExport) : Prop where
  uuids : s.list.uuids = updateList false s.dconf.profilesList ∨ .list .list ∈ s.queue
  valid : validateList false s.list.uuids = true
  watched : ∀ u, s.list.children u = if u ∈ s.list.uuids then some 1 else none

/-- A change of the list, once it is heard. -/
theorem watched_changed {list : SettingsList ℕ} (stored : Store profilesListSchema)
    (h : ∀ u, list.children u = if u ∈ list.uuids then some 1 else none) :
    (list.changed resyncProfileWatchers stored .list).uuids = updateList false stored ∧
      ∀ u, (list.changed resyncProfileWatchers stored .list).children u =
        if u ∈ updateList false stored then some 1 else none := by
  have huuids := list.updateList_uuids stored
  have hvalid : validateList false (list.updateList stored).1.uuids = true := by
    rw [huuids]
    exact SettingsList.valid_updateList stored
  simp only [SettingsList.changed, SettingsList.updateDefault, list.updateList_changed stored,
    decide_eq_true_eq]
  split_ifs with hchanged
  · rw [resyncProfileWatchers_eq hvalid]
    refine ⟨huuids, fun u => ?_⟩
    simp only [huuids]
    split_ifs with hu
    · rfl
    · rw [SettingsList.updateList_children, if_neg]
      rintro (hmem | ⟨hsame, -⟩)
      · exact hu hmem
      · exact hchanged hsame.symm
  · have hsame := not_not.mp hchanged
    refine ⟨huuids, fun u => ?_⟩
    rw [SettingsList.updateList_children, h u, ← hsame]
    by_cases hu : u ∈ updateList false stored
    · simp [hu]
    · simp [hu]

/-- At the start every listed profile is watched. -/
theorem watches_start (d : Dconf) (files : Files) : (start d files).Watches := by
  have hin : (SettingsList.constructed d.profilesList : SettingsList ℕ).InStep d.profilesList :=
    SettingsList.inStep_constructed _
  have hlist : (start d files).list = _ := resyncProfileWatchers_eq hin.valid
  refine ⟨.inl ?_, ?_, fun u => ?_⟩
  · rw [hlist]
    exact hin.uuids
  · rw [hlist]
    exact hin.valid
  · rw [hlist]
    simp only
    split_ifs with hu
    · rfl
    · exact Option.not_isSome_iff_eq_none.mp fun hsome => hu (hin.children u hsome)

section Steps

variable {print : Variant → Text} {s : AutoExport}

/-- A notice changes the object of the list and the timer. -/
theorem hear_kept (n : Notice) :
    (s.hear n).dconf = s.dconf ∧ (s.hear n).queue = s.queue ∧ (s.hear n).files = s.files := by
  cases n with
  | profile uuid =>
      unfold hear
      dsimp only
      split <;> exact ⟨rfl, rfl, rfl⟩
  | _ => exact ⟨rfl, rfl, rfl⟩

/-- A notice stays in the queue when another is delivered. -/
theorem mem_erase {n n' : Notice} {queue : List Notice} (h : n ∈ queue) (hne : n ≠ n') :
    n ∈ queue.erase n' := (List.mem_erase_of_ne hne).mpr h

/-- A use of a profile makes no object, each has one. -/
theorem refChild_eq (hw : s.Watches) (uuid : Text) : s.list.refChild 0 uuid = s.list := by
  unfold SettingsList.refChild
  by_cases hmem : uuid ∈ s.list.uuids
  · have hsome : (s.list.children uuid).isSome = true := by
      rw [hw.watched uuid, if_pos hmem]
      rfl
    rw [if_neg (not_not.mpr hmem), if_pos hsome]
  · rw [if_pos hmem]

/-- The notice of a profile starts the timer exactly when the profile is listed. -/
theorem hear_profile (hw : s.Watches) (uuid : Text) :
    s.hear (.profile uuid) = if uuid ∈ s.list.uuids then s.scheduleResync else s := by
  unfold hear
  dsimp only
  rw [hw.watched uuid]
  split_ifs <;> rfl

/-- A write that changes no list, or tells of it, keeps the watches. -/
theorem Watches.write (hw : s.Watches) {dconf : Dconf} {notice : Notice}
    (h : updateList false dconf.profilesList = updateList false s.dconf.profilesList ∨
      notice = .list .list) : (s.write dconf notice).Watches := by
  refine ⟨?_, hw.valid, hw.watched⟩
  rcases h with h | rfl
  · rcases hw.uuids with huuids | hqueue
    · exact .inl (huuids.trans h.symm)
    · exact .inr (List.mem_append_left _ hqueue)
  · exact .inr (List.mem_append_right _ (List.mem_singleton_self _))

/-- A notice delivered keeps them too. -/
theorem Watches.hear (hw : s.Watches) (notice : Notice) :
    ({ s with queue := s.queue.erase notice }.hear notice).Watches := by
  have hkept : notice ≠ .list .list → s.list.uuids = updateList false s.dconf.profilesList ∨
      .list .list ∈ s.queue.erase notice :=
    fun hne => hw.uuids.imp_right fun hmem => mem_erase hmem hne.symm
  cases notice with
  | settings => exact ⟨hkept (by decide), hw.valid, hw.watched⟩
  | keybindings => exact ⟨hkept (by decide), hw.valid, hw.watched⟩
  | list key =>
      cases key with
      | list =>
          obtain ⟨huuids, hwatched⟩ := watched_changed s.dconf.profilesList hw.watched
          have hlist : ({ s with queue := s.queue.erase (.list .list) }.hear (.list .list)).list.uuids =
              updateList false s.dconf.profilesList := huuids
          refine ⟨.inl huuids, hlist ▸ SettingsList.valid_updateList _, fun u => ?_⟩
          rw [hlist]
          exact hwatched u
      | default => exact ⟨hkept (by decide), hw.valid, hw.watched⟩
  | profile uuid =>
      have hw' : ({ s with queue := s.queue.erase (.profile uuid) } : AutoExport).Watches :=
        ⟨hkept (by simp), hw.valid, hw.watched⟩
      rw [hear_profile hw']
      split_ifs
      · exact ⟨hw'.uuids, hw.valid, hw.watched⟩
      · exact hw'

/-- One step. -/
theorem watches_step (hw : s.Watches) (e : Event) : (s.step print e).Watches := by
  cases e with
  | writeSettings settings => exact hw.write (.inl rfl)
  | writeKeybindings keybindings => exact hw.write (.inl rfl)
  | writeList uuids => exact hw.write (.inr rfl)
  | writeDefault uuid =>
      exact hw.write (.inl (Profiles.updateList_congr (Store.setValue_of_ne _ _ (by decide))))
  | writeProfile uuid profile => exact hw.write (.inl rfl)
  | deliver notice =>
      simp only [step]
      split_ifs
      · exact hw.hear notice
      · exact hw
  | refChild uuid =>
      simp only [step, refChild_eq hw uuid]
      exact hw
  | unlistedChanged => exact ⟨hw.uuids, hw.valid, hw.watched⟩
  | fire disk =>
      simp only [step]
      split_ifs
      · exact ⟨hw.uuids, hw.valid, hw.watched⟩
      · exact hw

theorem watches_steps (hw : s.Watches) (es : List Event) : (s.run print es).Watches := by
  induction es generalizing s with
  | nil => exact hw
  | cons e es ih => exact ih (watches_step hw e)

/-! ### What is under way -/

/-- Each file is what it should be, or its writing is under way: there is a timer, or a notice that
will start one. -/
structure Fresh (print : Variant → Text) (s : AutoExport) : Prop where
  settings : s.pending = true ∨ .settings ∈ s.queue ∨ .list .default ∈ s.queue ∨
    s.files.settings = some (utf8 (settingsTomlExport print s.dconf))
  keybindings : s.pending = true ∨ .keybindings ∈ s.queue ∨
    s.files.keybindings = some (utf8 (keybindingsTomlExport print s.dconf))
  profile : ∀ u ∈ s.list.uuids, s.pending = true ∨ .profile u ∈ s.queue ∨
    s.files.profiles (profileFile u) =
      (profileTomlExport print u (s.dconf.profile u)).map utf8
  others : s.pending = true ∨ ∀ name, hasTomlSuffix name = true → stem name ∉ s.list.uuids →
    s.files.profiles name = none

/-- While the timer is set there is nothing to show. -/
theorem Fresh.of_pending (h : s.pending = true) : s.Fresh print :=
  ⟨.inl h, .inl h, fun _ _ => .inl h, .inl h⟩

/-- The settings file depends on the settings and the default only. -/
theorem settingsTomlExport_congr {d d' : Dconf} (hsettings : d'.settings = d.settings)
    (hdefault : d'.profilesList.value kProfilesListDefaultKey =
      d.profilesList.value kProfilesListDefaultKey) :
    settingsTomlExport print d' = settingsTomlExport print d := by
  have hkeys : ∀ k ∈ profilesListSchema.keys, k.name ∉ [kProfilesListListKey] →
      k.name = kProfilesListDefaultKey := by decide
  have hlist : emitSchemaScalars print [kProfilesListListKey] d'.profilesList =
      emitSchemaScalars print [kProfilesListListKey] d.profilesList :=
    emitSchemaScalars_congr fun k hk hskip => by rw [hkeys k hk hskip, hdefault]
  unfold settingsTomlExport settingsLines
  rw [hsettings, hlist]

section Fire

variable {disk : Disk} {d : Dconf} {profiles : Text → Option Bytes}

/-- Different profiles have different files. -/
theorem profileFile_inj {u v : Text} (h : profileFile u = profileFile v) : u = v :=
  List.append_cancel_right h

/-- The file of a profile has its UUID as a stem. -/
theorem stem_profileFile (u : Text) : stem (profileFile u) = u := by
  unfold stem profileFile
  rw [List.length_append, show kToml.length = 5 from rfl, Nat.add_sub_cancel, List.take_left']
  rfl

/-- A file has the suffix iff it is the file of its stem. -/
theorem hasTomlSuffix_iff {name : Text} :
    hasTomlSuffix name = true ↔ name = profileFile (stem name) := by
  unfold hasTomlSuffix
  rw [List.isSuffixOf_iff_suffix]
  constructor
  · rintro ⟨u, rfl⟩
    exact congrArg profileFile (stem_profileFile u).symm
  · intro h
    rw [h]
    exact List.suffix_append _ _

/-- An export touches no other file. -/
theorem exportProfile_of_ne {u name : Text} (h : name ≠ profileFile u) :
    exportProfile print disk d profiles u name = profiles name := by
  unfold exportProfile
  cases profileTomlExport print u (d.profile u) with
  | none => rfl
  | some text =>
      simp only
      split_ifs
      · exact Function.update_of_ne h _ _
      · rfl

/-- A file of no profile stays as it is. -/
theorem foldl_exportProfile_other {name : Text} (uuids : List Text)
    (h : ∀ u ∈ uuids, name ≠ profileFile u) :
    uuids.foldl (exportProfile print disk d) profiles name = profiles name := by
  induction uuids generalizing profiles with
  | nil => rfl
  | cons v uuids ih =>
      rw [List.foldl_cons, ih fun u hu => h u (List.mem_cons_of_mem _ hu)]
      exact exportProfile_of_ne (h v List.mem_cons_self)

/-- An export that succeeds writes the profile. -/
theorem exportProfile_self {u : Text} (hu : u ≠ []) (hdisk : disk.profile u = true) :
    exportProfile print disk d profiles u (profileFile u) =
      (profileTomlExport print u (d.profile u)).map utf8 := by
  have htext : profileTomlExport print u (d.profile u) =
      some (Toml.unlines (profileLines print u (d.profile u))) := if_neg (by simpa using hu)
  unfold exportProfile
  rw [htext]
  simp only [hdisk, if_true, Function.update_self, Option.map_some]

/-- The file of each profile is written. -/
theorem foldl_exportProfile {u : Text} (uuids : List Text) (hmem : u ∈ uuids) (hu : u ≠ [])
    (hdisk : disk.profile u = true) :
    uuids.foldl (exportProfile print disk d) profiles (profileFile u) =
      (profileTomlExport print u (d.profile u)).map utf8 := by
  induction uuids generalizing profiles with
  | nil => cases hmem
  | cons v uuids ih =>
      rw [List.foldl_cons]
      by_cases hlater : u ∈ uuids
      · exact ih hlater
      · obtain rfl : u = v := (List.mem_cons.mp hmem).resolve_right hlater
        have hothers : ∀ v ∈ uuids, profileFile u ≠ profileFile v := by
          intro v hv heq
          obtain rfl := profileFile_inj heq
          exact hlater hv
        rw [foldl_exportProfile_other uuids hothers]
        exact exportProfile_self hu hdisk

/-- The file of a listed profile is not deleted. -/
theorem deleteOrphans_live {u : Text} {liveUuids : List Text} (h : u ∈ liveUuids) :
    deleteOrphanProfileTomls disk liveUuids profiles (profileFile u) = profiles (profileFile u) := by
  refine if_neg fun hgone => ?_
  rw [stem_profileFile] at hgone
  exact hgone.2.1 h

/-- **After a resync that could write its files nothing is under way.** -/
theorem fresh_fireResync (hw : s.Watches) (hdisk : disk.Ok) : (s.fireResync print disk).Fresh print := by
  refine ⟨.inr (.inr (.inr (if_pos hdisk.settings))), .inr (.inr (if_pos hdisk.keybindings)), ?_, ?_⟩
  · intro u hu
    have hne : u ≠ [] :=
      ne_nil_of_validUuid (List.all_eq_true.mp (Bool.and_eq_true_iff.mp hw.valid).1 u hu)
    refine .inr (.inr ?_)
    exact (deleteOrphans_live hu).trans (foldl_exportProfile _ hu hne (hdisk.profile u))
  · exact .inr fun name hname hstem => if_pos ⟨hname, hstem, hdisk.unlink name⟩

end Fire

/-- A write that is told of leaves nothing stale behind. -/
theorem Fresh.write (hf : s.Fresh print) {dconf : Dconf} {notice : Notice}
    (hsettings : notice = .settings ∨ notice = .list .default ∨
      settingsTomlExport print dconf = settingsTomlExport print s.dconf)
    (hkeybindings : notice = .keybindings ∨ dconf.keybindings = s.dconf.keybindings)
    (hprofile : ∀ u, notice = .profile u ∨ dconf.profile u = s.dconf.profile u) :
    (s.write dconf notice).Fresh print := by
  have hnew : notice ∈ s.queue ++ [notice] :=
    List.mem_append_right _ (List.mem_singleton_self _)
  refine ⟨?_, ?_, fun u hu => ?_, hf.others⟩
  · rcases hsettings with rfl | rfl | hsame
    · exact .inr (.inl hnew)
    · exact .inr (.inr (.inl hnew))
    · rcases hf.settings with h | h | h | h
      · exact .inl h
      · exact .inr (.inl (List.mem_append_left _ h))
      · exact .inr (.inr (.inl (List.mem_append_left _ h)))
      · exact .inr (.inr (.inr (h.trans (congrArg (fun t => some (utf8 t)) hsame.symm))))
  · rcases hkeybindings with rfl | hsame
    · exact .inr (.inl hnew)
    · rcases hf.keybindings with h | h | h
      · exact .inl h
      · exact .inr (.inl (List.mem_append_left _ h))
      · refine .inr (.inr (h.trans ?_))
        simp only [AutoExport.write, keybindingsTomlExport, keybindingsLines, hsame]
  · rcases hprofile u with rfl | hsame
    · exact .inr (.inl hnew)
    · rcases hf.profile u hu with h | h | h
      · exact .inl h
      · exact .inr (.inl (List.mem_append_left _ h))
      · refine .inr (.inr (h.trans ?_))
        simp only [AutoExport.write, hsame]

/-- A notice starts the timer, but for a profile that is not listed. -/
theorem Fresh.hear (hf : s.Fresh print) (hw : s.Watches) (notice : Notice) :
    ({ s with queue := s.queue.erase notice }.hear notice).Fresh print := by
  cases notice with
  | profile uuid =>
      have hwatched : ({ s with queue := s.queue.erase (.profile uuid) } : AutoExport).list.children
          uuid = _ := hw.watched uuid
      unfold AutoExport.hear
      dsimp only at hwatched ⊢
      rw [hwatched]
      split_ifs with hlisted
      · exact .of_pending rfl
      · refine ⟨?_, ?_, fun u hu => ?_, hf.others⟩
        · rcases hf.settings with h | h | h | h
          · exact .inl h
          · exact .inr (.inl (mem_erase h (by simp)))
          · exact .inr (.inr (.inl (mem_erase h (by simp))))
          · exact .inr (.inr (.inr h))
        · rcases hf.keybindings with h | h | h
          · exact .inl h
          · exact .inr (.inl (mem_erase h (by simp)))
          · exact .inr (.inr h)
        · have hne : u ≠ uuid := fun heq => hlisted (heq ▸ hu)
          rcases hf.profile u hu with h | h | h
          · exact .inl h
          · exact .inr (.inl (mem_erase h (by simpa using hne)))
          · exact .inr (.inr h)
  | _ => exact .of_pending rfl

/-- A resync whose files could be written, or anything else. -/
def Event.Clean : Event → Prop
  | .fire disk => disk.Ok
  | _ => True

/-- One step. -/
theorem fresh_step (hf : s.Fresh print) (hw : s.Watches) {e : Event} (he : e.Clean) :
    (s.step print e).Fresh print := by
  cases e with
  | writeSettings settings => exact hf.write (.inl rfl) (.inr rfl) fun _ => .inr rfl
  | writeKeybindings keybindings =>
      exact hf.write (.inr (.inr rfl)) (.inl rfl) fun _ => .inr rfl
  | writeList uuids =>
      refine hf.write (.inr (.inr (settingsTomlExport_congr rfl ?_))) (.inr rfl) fun _ => .inr rfl
      exact Store.setValue_of_ne _ _ (by decide)
  | writeDefault uuid => exact hf.write (.inr (.inl rfl)) (.inr rfl) fun _ => .inr rfl
  | writeProfile uuid profile =>
      refine hf.write (.inr (.inr rfl)) (.inr rfl) fun u => ?_
      by_cases hu : u = uuid
      · exact .inl (hu ▸ rfl)
      · exact .inr (Function.update_of_ne hu _ _)
  | deliver notice =>
      simp only [step]
      split_ifs
      · exact hf.hear hw notice
      · exact hf
  | refChild uuid =>
      simp only [step, refChild_eq hw uuid]
      exact hf
  | unlistedChanged => exact .of_pending rfl
  | fire disk =>
      simp only [step]
      split_ifs
      · exact fresh_fireResync hw he
      · exact hf

/-- So does any run of clean events. -/
theorem fresh_steps (hf : s.Fresh print) (hw : s.Watches) {es : List Event}
    (hes : ∀ e ∈ es, e.Clean) : (s.run print es).Fresh print := by
  induction es generalizing s with
  | nil => exact hf
  | cons e es ih =>
      exact ih (fresh_step hf hw (hes e List.mem_cons_self)) (watches_step hw e)
        fun e' he' => hes e' (List.mem_cons_of_mem _ he')

/-- No notice is on its way, and there is no timer. -/
structure Settled (s : AutoExport) : Prop where
  queue : s.queue = []
  pending : s.pending = false

/-- The files are those of the settings: both files, one for each listed profile, and no other file
of a profile. -/
structure Mirrors (print : Variant → Text) (d : Dconf) (files : Files) : Prop where
  settings : files.settings = some (utf8 (settingsTomlExport print d))
  keybindings : files.keybindings = some (utf8 (keybindingsTomlExport print d))
  profile : ∀ u ∈ updateList false d.profilesList,
    files.profiles (profileFile u) = (profileTomlExport print u (d.profile u)).map utf8
  others : ∀ name, hasTomlSuffix name = true → files.profiles name ≠ none →
    ∃ u ∈ updateList false d.profilesList, name = profileFile u

/-- With nothing pending the files mirror the settings. -/
theorem mirrors_of_settled (hw : s.Watches) (hf : s.Fresh print) (hs : s.Settled) :
    Mirrors print s.dconf s.files := by
  obtain ⟨hqueue, hpending⟩ := hs
  have hnone : ∀ n : Notice, n ∉ s.queue := by simp [hqueue]
  have hrun : ¬ s.pending = true := by simp [hpending]
  have huuids : s.list.uuids = updateList false s.dconf.profilesList :=
    hw.uuids.resolve_right (hnone _)
  refine ⟨?_, ?_, fun u hu => ?_, fun name hname hsome => ?_⟩
  · exact ((hf.settings.resolve_left hrun).resolve_left (hnone _)).resolve_left (hnone _)
  · exact (hf.keybindings.resolve_left hrun).resolve_left (hnone _)
  · exact ((hf.profile u (huuids ▸ hu)).resolve_left hrun).resolve_left (hnone _)
  · have hlisted : stem name ∈ s.list.uuids :=
      not_not.mp fun hstem => hsome (hf.others.resolve_left hrun name hname hstem)
    exact ⟨stem name, huuids ▸ hlisted, hasTomlSuffix_iff.mp hname⟩

variable (print) in
/-- The notices that are on their way, in any order. -/
theorem deliver_all {order : List Notice} (h : order.Perm s.queue) :
    (s.run print (order.map .deliver)).queue = [] ∧
      (s.run print (order.map .deliver)).dconf = s.dconf := by
  induction order generalizing s with
  | nil => exact ⟨List.nil_perm.mp h, rfl⟩
  | cons n order ih =>
      have hmem : n ∈ s.queue := h.subset List.mem_cons_self
      have hstep : s.step print (.deliver n) = { s with queue := s.queue.erase n }.hear n := if_pos hmem
      have hrest : order.Perm (s.step print (.deliver n)).queue := by
        rw [hstep, (hear_kept n).2.1]
        exact List.cons_perm_iff_perm_erase.mp h |>.2
      obtain ⟨hqueue, hdconf⟩ := ih hrest
      refine ⟨hqueue, hdconf.trans ?_⟩
      rw [hstep, (hear_kept n).1]

/-- A run can be cut. -/
theorem run_append (es es' : List Event) :
    s.run print (es ++ es') = (s.run print es).run print es' := List.foldl_append

variable (print) in
/-- The notices, and then the timer. -/
theorem settled_deliver_all {order : List Notice} (h : order.Perm s.queue) (disk : Disk) :
    (s.run print (order.map .deliver ++ [.fire disk])).Settled ∧
      (s.run print (order.map .deliver ++ [.fire disk])).dconf = s.dconf := by
  obtain ⟨hqueue, hdconf⟩ := deliver_all print h
  rw [run_append]
  simp only [run, List.foldl_cons, List.foldl_nil, step] at hqueue hdconf ⊢
  split_ifs with hpending
  · exact ⟨⟨hqueue, rfl⟩, hdconf⟩
  · exact ⟨⟨hqueue, by simpa using hpending⟩, hdconf⟩

end Steps

/-! ### Runs -/

section Runs

variable (print : Variant → Text) (d : Dconf) (files : Files)

/-- **Every listed profile is watched, exactly once**, and no other object is kept, after any writes,
with notices in any order. -/
theorem watches_run (es : List Event) : ((start d files).run print es).Watches :=
  watches_steps (watches_start d files) es

/-- **The mirrors.** There was a timer at some time, and all files could be written since. Then the
files are those of the settings whenever no notice is on its way and there is no timer; and it needs
the notices that are on their way, in any order, and one timer to get there. -/
theorem mirrors_run (es₁ es₂ : List Event) (hpending : ((start d files).run print es₁).pending = true)
    (hclean : ∀ e ∈ es₂, e.Clean) :
    let s := (start d files).run print (es₁ ++ es₂)
    (s.Settled → Mirrors print s.dconf s.files) ∧
      ∀ order : List Notice, order.Perm s.queue → ∀ disk : Disk, disk.Ok →
        let r := s.run print (order.map .deliver ++ [.fire disk])
        r.Settled ∧ r.dconf = s.dconf ∧ Mirrors print s.dconf r.files := by
  intro s
  have hw : s.Watches := watches_run print d files _
  have hf : s.Fresh print := by
    have hfresh : (((start d files).run print es₁).run print es₂).Fresh print :=
      fresh_steps (.of_pending hpending) (watches_run print d files es₁) hclean
    rwa [← run_append] at hfresh
  refine ⟨mirrors_of_settled hw hf, fun order horder disk hdisk => ?_⟩
  intro r
  obtain ⟨hsettled, hdconf⟩ := settled_deliver_all print horder disk
  have hevents : ∀ e ∈ order.map Event.deliver ++ [.fire disk], e.Clean := by
    intro e he
    rcases List.mem_append.mp he with he | he
    · obtain ⟨n, -, rfl⟩ := List.mem_map.mp he
      exact trivial
    · exact List.mem_singleton.mp he ▸ hdisk
  have hmirrors := mirrors_of_settled (watches_steps hw _) (fresh_steps hf hw hevents) hsettled
  rw [hdconf] at hmirrors
  exact ⟨hsettled, hdconf, hmirrors⟩

variable {print} in
/-- A file without the suffix is never touched. -/
theorem step_profiles_other {s : AutoExport} (e : Event) {name : Text}
    (h : hasTomlSuffix name = false) : (s.step print e).files.profiles name = s.files.profiles name := by
  cases e with
  | deliver notice =>
      simp only [step]
      split_ifs
      · rw [(hear_kept notice).2.2]
      · rfl
  | fire disk =>
      simp only [step]
      split_ifs
      · have hne : ∀ u ∈ s.list.uuids, name ≠ profileFile u := by
          rintro u - rfl
          have hsuffix : hasTomlSuffix (profileFile u) = true :=
            hasTomlSuffix_iff.mpr (congrArg profileFile (stem_profileFile u).symm)
          rw [hsuffix] at h
          cases h
        simp only [fireResync, deleteOrphanProfileTomls, h, Bool.false_eq_true, false_and, if_false]
        exact foldl_exportProfile_other _ hne
      · rfl
  | _ => rfl

variable {print} in
/-- A file of a profile that is listed is not removed. -/
theorem step_profiles_listed {s : AutoExport} (e : Event) {u : Text} (hu : u ∈ s.list.uuids)
    (h : s.files.profiles (profileFile u) ≠ none) :
    (s.step print e).files.profiles (profileFile u) ≠ none := by
  have hexport : ∀ (disk : Disk) (profiles : Text → Option Bytes) (v : Text),
      profiles (profileFile u) ≠ none →
        exportProfile print disk s.dconf profiles v (profileFile u) ≠ none := by
    intro disk profiles v hprofiles
    unfold exportProfile
    cases profileTomlExport print v (s.dconf.profile v) with
    | none => exact hprofiles
    | some text =>
        simp only
        split_ifs
        · by_cases huv : profileFile u = profileFile v
          · rw [huv, Function.update_self]
            exact Option.some_ne_none _
          · rwa [Function.update_of_ne huv]
        · exact hprofiles
  cases e with
  | deliver notice =>
      simp only [step]
      split_ifs
      · rwa [(hear_kept notice).2.2]
      · exact h
  | fire disk =>
      simp only [step]
      split_ifs
      · refine (deleteOrphans_live hu).trans_ne ?_
        exact List.foldlRecOn (motive := fun profiles => profiles (profileFile u) ≠ none)
          s.list.uuids _ h fun profiles hprofiles v _ => hexport disk profiles v hprofiles
      · exact h
  | _ => exact h

/-- **What a run leaves alone**, whatever can be written: a file of `profiles/` with another suffix
stays as it is, and a file of a listed profile is not removed. -/
theorem untouched_run (es : List Event) :
    let s := (start d files).run print es
    (∀ name, hasTomlSuffix name = false → s.files.profiles name = files.profiles name) ∧
      ∀ e, ∀ u ∈ s.list.uuids, s.files.profiles (profileFile u) ≠ none →
        (s.step print e).files.profiles (profileFile u) ≠ none := by
  refine ⟨fun name hname => ?_, fun e u hu h => step_profiles_listed e hu h⟩
  have hrun : ∀ s : AutoExport, (s.run print es).files.profiles name = s.files.profiles name := by
    induction es with
    | nil => exact fun s => rfl
    | cons e es ih => exact fun s => (ih (s.step print e)).trans (step_profiles_other e hname)
  exact hrun (start d files)

end Runs

/-- The first start, a second profile that is created while the timer runs, and the notice of it. -/
theorem mirrors_run_first :
    let uuid := "2b1ff3a4-0d0e-4a6e-9d0e-5f2c7a9f1e11".toList
    let disk : Disk := ⟨true, true, fun _ => true, fun _ => true⟩
    let s := (start .fresh ⟨none, none, fun _ => none⟩).run (fun _ => [])
      ([] ++ [.writeList [defaultUuid, uuid]])
    Mirrors (fun _ => []) s.dconf
      (s.run (fun _ => []) ([Event.deliver (.list .list)] ++ [.fire disk])).files := by
  intro uuid disk s
  have hrun := mirrors_run (fun _ => []) .fresh ⟨none, none, fun _ => none⟩ []
    [.writeList [defaultUuid, uuid]] rfl (by simp [Event.Clean])
  exact (hrun.2 [.list .list] (List.Perm.refl _) disk
    ⟨rfl, rfl, fun _ => rfl, fun _ => rfl⟩).2.2

end AutoExport

end Axan.LinuxToml
