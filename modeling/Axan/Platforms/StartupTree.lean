import Axan.LinuxSidebar.StartupTree
import Axan.SessionTree.Load

/-!
# The startup tree on both platforms

The Windows loader looks a parent id up among the entries it has seen; the Linux client looks it up
in a map of the whole list and compares the places afterwards.

* `SameEntry` — one session entry in the settings of both platforms.
* `SameTree` — both give every entry the same parent.
* `sameTree_iff` — **that is so exactly when no parent id is the id of an earlier entry and of one
  that is not earlier.**
-/

namespace Axan.Platforms

open Axan.Base Axan.Base.Settings

/-- The same session on Windows and on Linux: what the trees are built from. -/
structure SameEntry (w : LaunchEntryWire.LaunchEntry) (l : LinuxSidebar.LaunchEntry) : Prop where
  id : w.id = utf16 l.id
  parentId : w.parentId = utf16 l.parentId
  session : w.kind = [] ∨ w.kind = LaunchEntryWire.kindSessionW

/-- Both platforms open the same number of sessions, each with the same parent. -/
def SameTree (host : SessionTree.Host) (env : LinuxSidebar.Environment)
    (ws : List LaunchEntryWire.LaunchEntry) (ls : List LinuxSidebar.LaunchEntry) : Prop :=
  (SessionTree.loadStartupTree host (some ws)).1.map SessionTree.StartupSession.parentIndex =
    ((LinuxSidebar.expandProfileLaunchEntries env ls).getD []).map
      LinuxSidebar.InitialTab.parentTabIndex

/-- A parent id that an earlier entry has is not an id of the entry itself or of a later one. -/
def Unambiguous (ls : List LinuxSidebar.LaunchEntry) : Prop :=
  ∀ X l Z, ls = X ++ l :: Z → l.parentId ≠ [] →
    l.parentId ∈ X.map LinuxSidebar.LaunchEntry.id →
      l.parentId ∉ (l :: Z).map LinuxSidebar.LaunchEntry.id

section Linux

open LinuxSidebar

/-- The last place is looked for from behind. -/
theorem lastPlace_append (X Y : List LaunchEntry) (key : Text) :
    lastPlace (X ++ Y) key = ((lastPlace Y key).map (X.length + ·)).or (lastPlace X key) := by
  induction X with
  | nil => simp [lastPlace]
  | cons e X ih =>
      rw [List.cons_append, lastPlace, ih, lastPlace]
      cases lastPlace Y key with
      | some j =>
          simp only [Option.map_some, Option.some_or, List.length_cons]
          congr 1
          omega
      | none => simp

/-- It is a place of the list. -/
theorem lastPlace_lt {entries : List LaunchEntry} {key : Text} {j : ℕ}
    (h : lastPlace entries key = some j) : j < entries.length := by
  obtain ⟨e, he, -⟩ := Option.map_eq_some_iff.mp (lastPlace_eq_some_iff.mp h).1
  exact (List.getElem?_eq_some_iff.mp he).1

/-- The Linux parent: the last earlier entry of the id, unless the entry or a later one has it. -/
theorem parentTabIndex_split {X Z : List LaunchEntry} {l : LaunchEntry} :
    parentTabIndex (idToIndex 0 (X ++ l :: Z) fun _ => none) X.length l.parentId =
      if l.parentId = [] then none
      else if l.parentId ∈ (l :: Z).map LaunchEntry.id then none
      else lastPlace X l.parentId := by
  apply Option.ext
  intro j
  rw [parentTabIndex_eq_some_iff, lastPlace_append]
  by_cases hempty : l.parentId = []
  · rw [if_pos hempty]
    simp [hempty]
  · rw [if_neg hempty]
    by_cases hmem : l.parentId ∈ (l :: Z).map LaunchEntry.id
    · rw [if_pos hmem]
      obtain ⟨k, hk⟩ : ∃ k, lastPlace (l :: Z) l.parentId = some k := by
        rw [← Option.ne_none_iff_exists', Ne, lastPlace_eq_none_iff]
        intro hno
        obtain ⟨e, he, hid⟩ := List.mem_map.mp hmem
        exact hno e he hid
      rw [hk]
      simp only [Option.map_some, Option.some_or, Option.some.injEq, reduceCtorEq, iff_false]
      rintro ⟨-, rfl, hlt⟩
      omega
    · rw [if_neg hmem]
      have hnone : lastPlace (l :: Z) l.parentId = none := by
        rw [lastPlace_eq_none_iff]
        intro e he hid
        exact hmem (List.mem_map.mpr ⟨e, he, hid⟩)
      rw [hnone, Option.map_none, Option.none_or]
      exact ⟨fun h => h.2.1, fun h => ⟨hempty, h, lastPlace_lt h⟩⟩

end Linux

section Windows

open SessionTree

variable {w : LaunchEntryWire.LaunchEntry} {l : LinuxSidebar.LaunchEntry}
  {ws : List LaunchEntryWire.LaunchEntry} {ls : List LinuxSidebar.LaunchEntry}

/-- No entry of both platforms is a separator. -/
theorem SameEntry.isSeparator (h : SameEntry w l) : w.isSeparator = false := by
  rw [LaunchEntryWire.LaunchEntry.isSeparator, decide_eq_false_iff_not]
  rcases h.session with hkind | hkind
  · rw [hkind]
    decide
  · rw [hkind]
    decide

/-- And each is of a kind the loader knows. -/
theorem SameEntry.knownKind (h : SameEntry w l) : SessionTree.knownKind w = true := by
  rw [SessionTree.knownKind]
  rcases h.session with hkind | hkind
  · rw [hkind]
    rfl
  · rw [hkind]
    decide

/-- The sessions of an id, given latest first. -/
theorem sessionNamed_eq (h : List.Forall₂ SameEntry ws ls) (key : Text) :
    sessionCount ws = ls.length ∧
      sessionNamed (utf16 key) ws = LinuxSidebar.lastPlace ls.reverse key := by
  induction h with
  | nil => exact ⟨rfl, rfl⟩
  | @cons w l ws ls hwl _ ih =>
      obtain ⟨hcount, hnamed⟩ := ih
      constructor
      · rw [sessionCount, List.countP_cons, hwl.isSeparator]
        exact congrArg (· + 1) hcount
      · have hid : (w.id = utf16 key) ↔ l.id = key := by
          rw [hwl.id]
          exact utf16_injective.eq_iff
        rw [sessionNamed, List.reverse_cons, lastPlace_append, LinuxSidebar.lastPlace]
        simp only [hwl.isSeparator, Bool.not_false, Bool.true_and, decide_eq_true_eq, hid, hcount,
          hnamed]
        split_ifs with heq
        · simp [LinuxSidebar.lastPlace]
        · simp [LinuxSidebar.lastPlace]

/-- So no row is in the scope of a separator. -/
theorem separatorScope_eq_none (h : List.Forall₂ SameEntry ws ls) (pid : WString) :
    separatorScope ws pid = none := by
  induction h with
  | nil => rfl
  | cons hwl _ ih =>
      rw [separatorScope, hwl.isSeparator]
      exact ih

/-- The Windows parent: the last earlier entry of the id. -/
theorem parentIn_eq (h : List.Forall₂ SameEntry ws ls) (hwl : SameEntry w l) :
    parentIn ws.reverse w.parentId =
      if l.parentId = [] then none else LinuxSidebar.lastPlace ls l.parentId := by
  have hrev : List.Forall₂ SameEntry ws.reverse ls.reverse := List.forall₂_reverse_iff.mpr h
  have hempty : w.parentId.isEmpty = true ↔ l.parentId = [] := by
    rw [List.isEmpty_iff, hwl.parentId]
    exact utf16_injective.eq_iff (a := l.parentId) (b := [])
  rw [parentIn, separatorScope_eq_none hrev, Option.or_none, hwl.parentId,
    (sessionNamed_eq hrev l.parentId).2, List.reverse_reverse, ← hwl.parentId]
  simp only [hempty]

theorem forall_session (h : List.Forall₂ SameEntry ws ls) :
    ∀ w ∈ ws, SessionTree.knownKind w = true ∧ w.isSeparator = false := by
  induction h with
  | nil => exact fun w hw => absurd hw List.not_mem_nil
  | cons hwl _ ih => exact List.forall_mem_cons.mpr ⟨⟨hwl.knownKind, hwl.isSeparator⟩, ih⟩

/-- Every entry is a session, at the scope its parent id names. -/
theorem parentIndex_sessions {host : Host} {dp : Profile} (hd : host.defaultProfile = some dp)
    (h : List.Forall₂ SameEntry ws ls) :
    (loadStartupTree host (some ws)).1.map StartupSession.parentIndex =
      (rowsFrom [] ws).map Row.scope := by
  have hsession := forall_session h
  have hknown : ws.filter SessionTree.knownKind = ws :=
    List.filter_eq_self.mpr fun w hw => (hsession w hw).1
  cases hws : ws with
  | nil => simp [loadStartupTree, hd, rowsFrom]
  | cons w ws' =>
      have hmem : w ∈ ws := hws ▸ List.mem_cons_self
      have hrows : (rowsFrom [] ws).filter (fun r => !r.entry.isSeparator) = rowsFrom [] ws := by
        rw [List.filter_eq_self]
        intro r hr
        have hentry : r.entry ∈ ws := by
          rw [← map_entry_rowsFrom [] ws]
          exact List.mem_map_of_mem hr
        rw [(hsession r.entry hentry).2]
        rfl
      rw [← hws, loadStartupTree_eq hd ⟨w, hmem, hsession w hmem⟩, rows, hknown, sessionsOf, hrows,
        List.map_map]
      rfl

/-- The parent is the same row on both platforms. -/
theorem scope_at (h : List.Forall₂ SameEntry ws ls) {X Z : List LinuxSidebar.LaunchEntry}
    (hsplit : ls = X ++ l :: Z) :
    ((rowsFrom [] ws).map Row.scope)[X.length]? =
      some (if l.parentId = [] then none else LinuxSidebar.lastPlace X l.parentId) := by
  have hlen : X.length < ws.length := by
    rw [h.length_eq, hsplit]
    simp
  have hfront := List.forall₂_take X.length h
  have hback := List.forall₂_drop X.length h
  rw [hsplit, List.take_left] at hfront
  rw [hsplit, List.drop_left, List.drop_eq_getElem_cons hlen] at hback
  obtain ⟨hwl, -⟩ := List.forall₂_cons.mp hback
  have hlen' : X.length < (rowsFrom [] ws).length := by
    rw [← List.length_map (f := Row.entry), map_entry_rowsFrom]
    exact hlen
  have hentry : (rowsFrom [] ws)[X.length].entry = ws[X.length] := by
    have hget := congrArg (fun l => l[X.length]?) (map_entry_rowsFrom [] ws)
    simp only [List.getElem?_map, List.getElem?_eq_getElem hlen, List.getElem?_eq_getElem hlen',
      Option.map_some, Option.some.injEq] at hget
    exact hget
  rw [List.getElem?_map, List.getElem?_eq_getElem hlen', Option.map_some,
    scope_of_rowsFrom (List.getElem?_eq_getElem hlen'), List.append_nil, hentry,
    parentIn_eq hfront hwl]

end Windows

/-- The Linux parents in the order of the entries. -/
theorem parentTabIndex_at (env : LinuxSidebar.Environment) {X Z ls : List LinuxSidebar.LaunchEntry}
    {l : LinuxSidebar.LaunchEntry} (hsplit : ls = X ++ l :: Z) :
    (((LinuxSidebar.expandProfileLaunchEntries env ls).getD []).map
      LinuxSidebar.InitialTab.parentTabIndex)[X.length]? =
      some (if l.parentId = [] then none
        else if l.parentId ∈ (l :: Z).map LinuxSidebar.LaunchEntry.id then none
        else LinuxSidebar.lastPlace X l.parentId) := by
  have hget : ls[X.length]? = some l := by
    rw [hsplit, List.getElem?_append_right le_rfl, Nat.sub_self]
    rfl
  rw [LinuxSidebar.expandProfileLaunchEntries, if_neg (by rw [hsplit]; simp), Option.getD_some,
    List.getElem?_map, List.getElem?_mapIdx, hget]
  simp only [Option.map_some, LinuxSidebar.initialTab, hsplit, parentTabIndex_split]

/-- **Both platforms build the same tree exactly when no parent id is ambiguous.** -/
theorem sameTree_iff {host : SessionTree.Host} {dp : SessionTree.Profile}
    (hd : host.defaultProfile = some dp) (env : LinuxSidebar.Environment)
    {ws : List LaunchEntryWire.LaunchEntry} {ls : List LinuxSidebar.LaunchEntry}
    (h : List.Forall₂ SameEntry ws ls) : SameTree host env ws ls ↔ Unambiguous ls := by
  have hsplits : SameTree host env ws ls ↔ ∀ X l Z, ls = X ++ l :: Z →
      (if l.parentId = [] then none else LinuxSidebar.lastPlace X l.parentId) =
        if l.parentId = [] then none
        else if l.parentId ∈ (l :: Z).map LinuxSidebar.LaunchEntry.id then none
        else LinuxSidebar.lastPlace X l.parentId := by
    have hlenW : ((SessionTree.rowsFrom [] ws).map SessionTree.Row.scope).length = ls.length := by
      rw [List.length_map, ← List.length_map (f := SessionTree.Row.entry),
        SessionTree.map_entry_rowsFrom, h.length_eq]
    have hlenL : (((LinuxSidebar.expandProfileLaunchEntries env ls).getD []).map
        LinuxSidebar.InitialTab.parentTabIndex).length = ls.length := by
      rw [List.length_map, LinuxSidebar.expandProfileLaunchEntries]
      cases ls with
      | nil => rfl
      | cons l ls => exact List.length_mapIdx
    rw [SameTree, parentIndex_sessions hd h]
    constructor
    · intro heq X l Z hsplit
      have hat := scope_at h hsplit
      rw [heq, parentTabIndex_at env hsplit] at hat
      exact (Option.some.inj hat).symm
    · intro hall
      apply List.ext_getElem?
      intro i
      rcases Nat.lt_or_ge i ls.length with hlt | hge
      · obtain ⟨X, Z, hsplit, rfl⟩ := split_of_getElem? (List.getElem?_eq_getElem hlt)
        rw [scope_at h hsplit, parentTabIndex_at env hsplit, hall X _ Z hsplit]
      · rw [List.getElem?_eq_none (hlenW.le.trans hge), List.getElem?_eq_none (hlenL.le.trans hge)]
  rw [hsplits]
  apply forall₃_congr
  intro X l Z
  apply imp_congr_right
  intro _
  by_cases hempty : l.parentId = []
  · simp [hempty]
  · rw [if_neg hempty, if_neg hempty]
    by_cases hmem : l.parentId ∈ (l :: Z).map LinuxSidebar.LaunchEntry.id
    · rw [if_pos hmem, LinuxSidebar.lastPlace_eq_none_iff]
      constructor
      · intro hno _ hearlier
        obtain ⟨e, he, hid⟩ := List.mem_map.mp hearlier
        exact absurd hid (hno e he)
      · intro hcond e he hid
        exact hcond hempty (List.mem_map.mpr ⟨e, he, hid⟩) hmem
    · rw [if_neg hmem]
      exact iff_of_true rfl fun _ _ => hmem

/-- A profile, and nothing else. -/
def plainHost : SessionTree.Host :=
  { defaultProfile := some ⟨[], []⟩
    findProfile := fun _ => none
    userProfile := none
    filename := id }

/-- A session on Windows. -/
def windowsEntry (l : LinuxSidebar.LaunchEntry) : LaunchEntryWire.LaunchEntry :=
  { id := utf16 l.id, parentId := utf16 l.parentId, name := utf16 l.name }

/-- A Linux entry is the same as its Windows entry. -/
theorem sameEntry_windowsEntry (ls : List LinuxSidebar.LaunchEntry) :
    List.Forall₂ SameEntry (ls.map windowsEntry) ls := by
  rw [List.forall₂_map_left_iff, List.forall₂_same]
  exact fun l _ => ⟨rfl, rfl, Or.inl rfl⟩

/-- A child that comes in front of its parent is a root on both platforms. -/
theorem forward_sameTree :
    SameTree plainHost {}
      ([{ id := ['b'], parentId := ['a'] }, { id := ['a'] }].map windowsEntry)
      [{ id := ['b'], parentId := ['a'] }, { id := ['a'] }] := by
  apply (sameTree_iff rfl {} (sameEntry_windowsEntry _)).mpr
  intro X l Z hsplit hne hearlier
  rcases X with _ | ⟨x, _ | ⟨y, X⟩⟩
  · exact absurd hearlier List.not_mem_nil
  · obtain ⟨-, hsplit⟩ := List.cons.inj hsplit
    obtain ⟨rfl, -⟩ := List.cons.inj hsplit
    exact absurd rfl hne
  · have hlen := congrArg List.length hsplit
    simp at hlen

/-- A parent whose id a later entry has again: Linux opens the child as a root. -/
theorem repeated_not_sameTree :
    ¬ SameTree plainHost {}
      ([{ id := ['a'] }, { id := ['b'], parentId := ['a'] }, { id := ['a'] }].map windowsEntry)
      [{ id := ['a'] }, { id := ['b'], parentId := ['a'] }, { id := ['a'] }] := by
  unfold SameTree
  decide

end Axan.Platforms
