import Axan.LaunchEntryWire.Entry

/-!
# Loading the startup tree: `AxanSessionTree.cpp`

`loadStartupTree` flattens the startup entries of the settings into the sessions to spawn, each
with the spawn index of its parent, and the separators, each with the spawn index of its parent
and of the sibling session it follows. An index of `-1` is `none`.

* `detectShellFamily`, `wrapCommandForSurvival`, `expandDirectory` — the action of a session.
* `loadStartupTree` — one pass over the entries with three maps.
* `parentIn` — what a parent id means: the latest earlier session of that id, else the parent of
  the latest earlier separator of that id, else the top level.
* `rows` — the entries of a known kind, each with the scope its parent id names.
  `loadStartupTree_eq` says that the loader returns exactly these, and `rows_scope_lt` that a
  parent always comes first.

`Host` holds what is asked of the system: the profiles, the environment and `path::filename`.
-/

namespace Axan.SessionTree

open Axan.Base Axan.LaunchEntryWire

/-! ### The action of a session -/

/-- Source: `ShellFamily` -/
inductive ShellFamily where
  | unknown
  | powerShell
  | cmd
  | wsl
  deriving DecidableEq, Repr

/-- A profile: its GUID as text and the commandline of its shell. -/
structure Profile where
  guid : WString
  commandline : WString
  deriving DecidableEq, Repr

/-- What the loader asks of the system and of the settings. -/
structure Host where
  /-- `FindProfile(DefaultProfile())`, if it resolves. -/
  defaultProfile : Option Profile
  /-- `FindProfile(GuidFromString(…))`; a text that is no GUID throws and resolves to nothing. -/
  findProfile : WString → Option Profile
  /-- `%USERPROFILE%`, if it is set and fits the buffer. -/
  userProfile : Option WString
  /-- `std::filesystem::path::filename` -/
  filename : WString → WString

/-- A blank of a commandline. -/
def isBlank (c : WChar) : Bool := c = wide ' ' || c = wide '\t'

/-- The executable of a commandline, without its quotes. -/
def exeOf (cmdline : WString) : WString :=
  match cmdline.dropWhile isBlank with
  | [] => []
  | c :: rest =>
      if c = wide '"' then rest.takeWhile (· ≠ wide '"')
      else (c :: rest).takeWhile fun d => !isBlank d

/-- ASCII lower case. -/
def toLower (c : WChar) : WChar :=
  if inRange 'A' 'Z' c then Fin.ofNat 65536 (c.val + 32) else c

/-- Source: `_exeBasenameLower` -/
def exeBasenameLower (host : Host) (cmdline : WString) : WString :=
  let exe := exeOf cmdline
  if exe.isEmpty then [] else (host.filename exe).map toLower

/-- Source: `DetectShellFamily` -/
def detectShellFamily (host : Host) (commandline : WString) : ShellFamily :=
  let exe := exeBasenameLower host commandline
  if exe = L "pwsh.exe" || exe = L "powershell.exe" then .powerShell
  else if exe = L "cmd.exe" then .cmd
  else if exe = L "wsl.exe" then .wsl
  else .unknown

/-- Source: `_wrapCommandForSurvival` -/
def wrapCommandForSurvival (host : Host) (shell command : WString) : WString :=
  match detectShellFamily host shell with
  | .powerShell => shell ++ L " -NoExit -Command \"" ++ command ++ L "\""
  | .cmd => shell ++ L " /k \"" ++ command ++ L "\""
  | .wsl => shell ++ L " -- bash -ic \"" ++ command ++ L "; exec bash -i\""
  | .unknown => command

/-- Source: `_expandDirectory` -/
def expandDirectory (host : Host) (dir : WString) : WString :=
  match dir with
  | [] => []
  | c :: rest =>
      if c = wide '~' && (rest.isEmpty || rest.head? = some (wide '\\') ||
          rest.head? = some (wide '/')) then
        match host.userProfile with
        | some home => home ++ rest
        | none => dir
      else dir

/-- Source: `_resolveProfile` -/
def resolveProfile (host : Host) (profileGuid : WString) (fallback : Profile) : Profile :=
  if profileGuid.isEmpty then fallback else (host.findProfile profileGuid).getD fallback

/-- The arguments of a new-tab action; empty when unset. Source: `NewTerminalArgs` -/
structure NewTabAction where
  profile : WString
  startingDirectory : WString
  commandline : WString
  deriving DecidableEq, Repr

/-- The action that spawns the session of an entry. -/
def newTabAction (host : Host) (defaultProfile : Profile) (entry : LaunchEntry) : NewTabAction :=
  let targetProfile := resolveProfile host entry.profile defaultProfile
  { profile := targetProfile.guid
    startingDirectory := expandDirectory host entry.directory
    commandline :=
      if entry.command.isEmpty then []
      else wrapCommandForSurvival host targetProfile.commandline entry.command }

/-! ### The loader -/

/-- Source: `StartupSession` -/
structure StartupSession where
  action : NewTabAction
  labelTemplate : WString
  id : WString
  iconOverride : WString
  iconColor : WString
  colorTarget : WString
  parentIndex : Option ℕ
  deriving DecidableEq, Repr

/-- Source: `StartupSeparator` -/
structure StartupSeparator where
  id : WString
  style : WString
  height : Double
  placement : WString
  label : WString
  collapsed : Bool
  parentSpawnIndex : Option ℕ
  afterSpawnIndex : Option ℕ
  deriving DecidableEq, Repr

/-- The variables of the loop; the maps hold the latest value of a key first. -/
structure LoadState where
  result : List StartupSession := []
  outSeparators : List StartupSeparator := []
  indexById : List (WString × ℕ) := []
  separatorParentById : List (WString × Option ℕ) := []
  lastSessionInScope : List (Option ℕ × ℕ) := []

/-- Source: `resolveParent` -/
def LoadState.resolveParent (st : LoadState) (entry : LaunchEntry) : Option ℕ :=
  if entry.parentId.isEmpty then none
  else
    match st.indexById.lookup entry.parentId with
    | some i => some i
    | none =>
        match st.separatorParentById.lookup entry.parentId with
        | some p => p
        | none => none

/-- The row kinds: empty, `session`, `separator`. -/
def knownKind (e : LaunchEntry) : Bool :=
  e.kind.isEmpty || e.kind = kindSessionW || e.kind = kindSeparatorW

/-- The separator of an entry. -/
def startupSeparator (entry : LaunchEntry) (parent after : Option ℕ) : StartupSeparator :=
  { id := entry.id
    style := if entry.separatorStyle = styleSpaceW then styleSpaceW else styleLineW
    height := normalizeSeparatorHeight entry.height
    placement := if entry.placement = placementBottomW then placementBottomW else placementInlineW
    label := entry.name
    collapsed := entry.collapsed && !entry.name.isEmpty
    parentSpawnIndex := parent
    afterSpawnIndex := after }

/-- The session of an entry. -/
def startupSession (host : Host) (defaultProfile : Profile) (entry : LaunchEntry)
    (parent : Option ℕ) : StartupSession :=
  { action := newTabAction host defaultProfile entry
    labelTemplate := entry.name
    id := entry.id
    iconOverride := entry.icon
    iconColor := entry.color
    colorTarget := entry.colorTarget
    parentIndex := parent }

/-- One round of the loop. -/
def loadEntry (host : Host) (defaultProfile : Profile) (st : LoadState) (entry : LaunchEntry) :
    LoadState :=
  if !knownKind entry then st
  else
    let parent := st.resolveParent entry
    if entry.isSeparator then
      { st with
        outSeparators := st.outSeparators ++
          [startupSeparator entry parent (st.lastSessionInScope.lookup parent)]
        separatorParentById :=
          if entry.id.isEmpty then st.separatorParentById
          else (entry.id, parent) :: st.separatorParentById }
    else
      let myIndex := st.result.length
      { st with
        result := st.result ++ [startupSession host defaultProfile entry parent]
        indexById := if entry.id.isEmpty then st.indexById else (entry.id, myIndex) :: st.indexById
        lastSessionInScope := (parent, myIndex) :: st.lastSessionInScope }

/-- The entries of the settings; `none` for null settings. Source: `LoadStartupTree` -/
def loadStartupTree (host : Host) (settings : Option (List LaunchEntry)) :
    List StartupSession × List StartupSeparator :=
  match settings, host.defaultProfile with
  | some entries, some defaultProfile =>
      let st := entries.foldl (loadEntry host defaultProfile) {}
      if st.result.isEmpty then ([], []) else (st.result, st.outSeparators)
  | _, _ => ([], [])

/-! ### What the parent ids mean -/

/-- The number of sessions in a list of known entries. -/
def sessionCount (l : List LaunchEntry) : ℕ := l.countP fun e => !e.isSeparator

/-- The number of separators in a list of entries. -/
def separatorCount (l : List LaunchEntry) : ℕ := l.countP LaunchEntry.isSeparator

/-- The spawn index of the latest session of an id; the entries are given latest first. -/
def sessionNamed (pid : WString) : List LaunchEntry → Option ℕ
  | [] => none
  | e :: older =>
      if !e.isSeparator && e.id = pid then some (sessionCount older) else sessionNamed pid older

/-- The scope of the latest separator of an id; the entries are given latest first. -/
def separatorScope : List LaunchEntry → WString → Option ℕ
  | [], _ => none
  | e :: older, pid =>
      if e.isSeparator && e.id = pid then
        if e.parentId.isEmpty then none
        else (sessionNamed e.parentId older).or (separatorScope older e.parentId)
      else separatorScope older pid

/-- The scope a parent id names among the entries before, given latest first: a session of that
id, else the scope of a separator of that id, else the top level. -/
def parentIn (older : List LaunchEntry) (pid : WString) : Option ℕ :=
  if pid.isEmpty then none else (sessionNamed pid older).or (separatorScope older pid)

/-- An entry in its place. -/
structure Row where
  /-- The spawn index of the session the entry is under, or `none` at the top level. -/
  scope : Option ℕ
  entry : LaunchEntry
  /-- The number of earlier entries of the same sort: the spawn index of a session. -/
  rank : ℕ
  deriving DecidableEq, Repr

/-- The number of earlier entries of the sort of `e`. -/
def rankIn (older : List LaunchEntry) (e : LaunchEntry) : ℕ :=
  if e.isSeparator then separatorCount older else sessionCount older

/-- The rows of the entries behind `older`, which is given latest first. -/
def rowsFrom (older : List LaunchEntry) : List LaunchEntry → List Row
  | [] => []
  | e :: rest => ⟨parentIn older e.parentId, e, rankIn older e⟩ :: rowsFrom (e :: older) rest

/-- The entries of a known kind in list order, each in its place. -/
def rows (entries : List LaunchEntry) : List Row := rowsFrom [] (entries.filter knownKind)

/-- The spawn index of the latest session of a scope; the rows are given latest first. -/
def lastIn (q : Option ℕ) : List Row → Option ℕ
  | [] => none
  | r :: older => if !r.entry.isSeparator && r.scope = q then some r.rank else lastIn q older

/-- The separators of the rows behind `done`, which is given latest first: each follows the
latest session of its scope. -/
def separatorsFrom (done : List Row) : List Row → List StartupSeparator
  | [] => []
  | r :: rest =>
      if r.entry.isSeparator then
        startupSeparator r.entry r.scope (lastIn r.scope done) :: separatorsFrom (r :: done) rest
      else separatorsFrom (r :: done) rest

/-- The sessions of some rows. -/
def sessionsOf (host : Host) (defaultProfile : Profile) (rs : List Row) : List StartupSession :=
  (rs.filter fun r => !r.entry.isSeparator).map fun r =>
    startupSession host defaultProfile r.entry r.scope

/-- An earlier session has a lower index. -/
theorem sessionNamed_lt {pid : WString} {older : List LaunchEntry} {i : ℕ}
    (h : sessionNamed pid older = some i) : i < sessionCount older := by
  induction older with
  | nil => cases h
  | cons e older ih =>
      rw [sessionNamed] at h
      rw [sessionCount, List.countP_cons]
      by_cases he : (!e.isSeparator && e.id = pid) = true
      · rw [if_pos he, Option.some.injEq] at h
        simp only [Bool.and_eq_true, Bool.not_eq_true'] at he
        simp [he.1, ← h, sessionCount]
      · rw [if_neg he] at h
        exact (ih h).trans_le (Nat.le_add_right _ _)

/-- So has the session above a separator. -/
theorem separatorScope_lt {pid : WString} {older : List LaunchEntry} {i : ℕ}
    (h : separatorScope older pid = some i) : i < sessionCount older := by
  induction older generalizing pid with
  | nil => cases h
  | cons e older ih =>
      rw [separatorScope] at h
      have hle : sessionCount older ≤ sessionCount (e :: older) := by
        rw [sessionCount, sessionCount, List.countP_cons]
        exact Nat.le_add_right _ _
      apply lt_of_lt_of_le _ hle
      by_cases he : (e.isSeparator && e.id = pid) = true
      · rw [if_pos he] at h
        split at h
        · cases h
        · rcases Option.or_eq_some_iff.mp h with h | ⟨-, h⟩
          · exact sessionNamed_lt h
          · exact ih h
      · rw [if_neg he] at h
        exact ih h

/-- A scope is the spawn index of an earlier session. -/
theorem parentIn_lt {pid : WString} {older : List LaunchEntry} {i : ℕ}
    (h : parentIn older pid = some i) : i < sessionCount older := by
  rw [parentIn] at h
  split at h
  · cases h
  · rcases Option.or_eq_some_iff.mp h with h | ⟨-, h⟩
    · exact sessionNamed_lt h
    · exact separatorScope_lt h

/-! ### The loader returns the rows -/

/-- What the maps of the loop hold behind some entries and their rows, both latest first. -/
structure Loaded (older : List LaunchEntry) (done : List Row) (st : LoadState) : Prop where
  size : st.result.length = sessionCount older
  byId : ∀ pid : WString, pid ≠ [] → st.indexById.lookup pid = sessionNamed pid older
  separators : ∀ pid : WString, pid ≠ [] →
    (st.separatorParentById.lookup pid).join = separatorScope older pid
  last : ∀ q, st.lastSessionInScope.lookup q = lastIn q done

/-- The parent is that of the id, among the earlier entries. -/
theorem Loaded.resolveParent {older : List LaunchEntry} {done : List Row} {st : LoadState}
    (h : Loaded older done st) (e : LaunchEntry) :
    st.resolveParent e = parentIn older e.parentId := by
  rw [LoadState.resolveParent, parentIn]
  by_cases hp : e.parentId.isEmpty = true
  · rw [if_pos hp, if_pos hp]
  · have hne : e.parentId ≠ [] := fun h => hp (List.isEmpty_iff.mpr h)
    rw [if_neg hp, if_neg hp, h.byId _ hne, ← h.separators _ hne]
    cases sessionNamed e.parentId older with
    | some i => rfl
    | none => cases st.separatorParentById.lookup e.parentId <;> rfl

variable (host : Host) (defaultProfile : Profile)

/-- One more entry is loaded. -/
theorem Loaded.step {older : List LaunchEntry} {done : List Row} {st : LoadState}
    (h : Loaded older done st) {e : LaunchEntry} (he : knownKind e = true) :
    Loaded (e :: older) (⟨parentIn older e.parentId, e, rankIn older e⟩ :: done)
      (loadEntry host defaultProfile st e) := by
  have hparent := h.resolveParent e
  rw [loadEntry, if_neg (by simp [he])]
  cases hsep : e.isSeparator with
  | true =>
      refine ⟨?_, ?_, ?_, ?_⟩
      · simpa [sessionCount, hsep] using h.size
      · intro pid hpid
        simpa [sessionNamed, hsep] using h.byId pid hpid
      · intro pid hpid
        simp only [if_true, separatorScope, hsep, Bool.true_and, decide_eq_true_eq]
        by_cases hid : e.id = pid
        · have hne : ¬ e.id.isEmpty = true := fun h => hpid (hid ▸ List.isEmpty_iff.mp h)
          rw [if_neg hne, if_pos hid, List.lookup_cons, hid, beq_self_eq_true, hparent]
          rfl
        · have hbeq : (pid == e.id) = false := beq_false_of_ne (Ne.symm hid)
          rw [if_neg hid, ← h.separators pid hpid]
          split
          · rfl
          · rw [List.lookup_cons, hbeq]
      · intro q
        simpa [lastIn, hsep] using h.last q
  | false =>
      refine ⟨?_, ?_, ?_, ?_⟩
      · simp [sessionCount, hsep, h.size]
      · intro pid hpid
        simp only [Bool.false_eq_true, if_false, sessionNamed, hsep, Bool.not_false, Bool.true_and,
          decide_eq_true_eq]
        by_cases hid : e.id = pid
        · have hne : ¬ e.id.isEmpty = true := fun h => hpid (hid ▸ List.isEmpty_iff.mp h)
          rw [if_neg hne, if_pos hid, List.lookup_cons, hid, beq_self_eq_true, h.size]
        · have hbeq : (pid == e.id) = false := beq_false_of_ne (Ne.symm hid)
          rw [if_neg hid, ← h.byId pid hpid]
          split
          · rfl
          · rw [List.lookup_cons, hbeq]
      · intro pid hpid
        simpa [separatorScope, hsep] using h.separators pid hpid
      · intro q
        simp only [Bool.false_eq_true, if_false, lastIn, hsep, Bool.not_false, Bool.true_and,
          decide_eq_true_eq, List.lookup_cons, hparent, rankIn]
        by_cases hq : q = parentIn older e.parentId
        · rw [if_pos hq.symm, hq, beq_self_eq_true, h.size]
        · rw [if_neg (Ne.symm hq), beq_false_of_ne hq, h.last]

/-- So are all of them, sessions and separators apart. -/
theorem foldl_loadEntry {older : List LaunchEntry} {done : List Row} {st : LoadState}
    (h : Loaded older done st) {rest : List LaunchEntry} (hk : ∀ e ∈ rest, knownKind e = true) :
    (rest.foldl (loadEntry host defaultProfile) st).result =
        st.result ++ sessionsOf host defaultProfile (rowsFrom older rest) ∧
      (rest.foldl (loadEntry host defaultProfile) st).outSeparators =
        st.outSeparators ++ separatorsFrom done (rowsFrom older rest) := by
  induction rest generalizing older done st with
  | nil => simp [rowsFrom, sessionsOf, separatorsFrom]
  | cons e rest ih =>
      have he := hk e List.mem_cons_self
      have hstep := ih (h.step host defaultProfile he)
        fun d hd => hk d (List.mem_cons_of_mem _ hd)
      have hparent := h.resolveParent e
      rw [List.foldl_cons, hstep.1, hstep.2, rowsFrom]
      rw [loadEntry, if_neg (by simp [he])]
      cases hsep : e.isSeparator with
      | true => simp [sessionsOf, separatorsFrom, hsep, hparent, h.last]
      | false => simp [sessionsOf, separatorsFrom, hsep, hparent]

/-- An unknown kind is left out. -/
theorem foldl_loadEntry_filter (st : LoadState) (entries : List LaunchEntry) :
    entries.foldl (loadEntry host defaultProfile) st =
      (entries.filter knownKind).foldl (loadEntry host defaultProfile) st := by
  induction entries generalizing st with
  | nil => rfl
  | cons e entries ih =>
      cases hk : knownKind e with
      | true => rw [List.filter_cons_of_pos hk, List.foldl_cons, List.foldl_cons, ih]
      | false =>
          rw [List.filter_cons_of_neg (by simp [hk]), List.foldl_cons, loadEntry, if_pos (by simp [hk]),
            ih]

/-- A row for a session of the list. -/
def HasSession (entries : List LaunchEntry) : Prop :=
  ∃ e ∈ entries, knownKind e = true ∧ e.isSeparator = false

/-- Each entry has a row. -/
theorem map_entry_rowsFrom (older rest : List LaunchEntry) :
    (rowsFrom older rest).map Row.entry = rest := by
  induction rest generalizing older with
  | nil => rfl
  | cons e rest ih => rw [rowsFrom, List.map_cons, ih]

/-- The scope of a row is what its parent id names among the entries before it. -/
theorem scope_of_rowsFrom {older rest : List LaunchEntry} {j : ℕ} {r : Row}
    (hr : (rowsFrom older rest)[j]? = some r) :
    r.scope = parentIn ((rest.take j).reverse ++ older) r.entry.parentId := by
  induction rest generalizing older j with
  | nil => cases hr
  | cons e rest ih =>
      cases j with
      | zero =>
          cases hr
          rfl
      | succ j =>
          rw [rowsFrom, List.getElem?_cons_succ] at hr
          simpa using ih hr

/-- **The loader returns the rows of the entries.** -/
theorem loadStartupTree_eq {host : Host} {defaultProfile : Profile} {entries : List LaunchEntry}
    (hd : host.defaultProfile = some defaultProfile) (hs : HasSession entries) :
    loadStartupTree host (some entries) =
      (sessionsOf host defaultProfile (rows entries), separatorsFrom [] (rows entries)) := by
  have hempty : Loaded [] [] {} := ⟨rfl, fun _ _ => rfl, fun _ _ => rfl, fun _ => rfl⟩
  have hknown : ∀ e ∈ entries.filter knownKind, knownKind e = true := fun e he =>
    (List.mem_filter.mp he).2
  have hfold := foldl_loadEntry host defaultProfile hempty hknown
  rw [← foldl_loadEntry_filter] at hfold
  have hne : sessionsOf host defaultProfile (rows entries) ≠ [] := by
    obtain ⟨e, he, hk, hsep⟩ := hs
    have hmem : e ∈ (rows entries).map Row.entry := by
      rw [rows, map_entry_rowsFrom]
      exact List.mem_filter.mpr ⟨he, hk⟩
    obtain ⟨r, hr, rfl⟩ := List.mem_map.mp hmem
    refine List.ne_nil_of_mem (List.mem_map_of_mem (a := r) ?_)
    exact List.mem_filter.mpr ⟨hr, by simp [hsep]⟩
  simp only [loadStartupTree, hd, hfold.1, hfold.2, List.nil_append]
  rw [if_neg]
  · rfl
  · exact fun h => hne (List.isEmpty_iff.mp h)

/-! ### Parents come first -/

/-- Nothing is loaded, or the loop over the entries. -/
theorem loadStartupTree_cases (settings : Option (List LaunchEntry)) :
    (loadStartupTree host settings).1 = [] ∨
      ∃ (entries : List LaunchEntry) (dp : Profile), (loadStartupTree host settings).1 =
        (entries.foldl (loadEntry host dp) {}).result := by
  cases settings with
  | none => exact Or.inl rfl
  | some entries =>
      cases hd : host.defaultProfile with
      | none => exact Or.inl (by simp [loadStartupTree, hd])
      | some dp =>
          by_cases h : (entries.foldl (loadEntry host dp) {}).result.isEmpty = true
          · exact Or.inl (by simp [loadStartupTree, hd, h])
          · exact Or.inr ⟨entries, dp, by simp [loadStartupTree, hd, h]⟩

/-- A parent comes before its children. -/
theorem loadEntry_parents {st : LoadState} (e : LaunchEntry) {older : List LaunchEntry}
    {done : List Row} (h : Loaded older done st)
    (hst : ∀ (k : ℕ) s, st.result[k]? = some s → ∀ i, s.parentIndex = some i → i < k) :
    ∀ (k : ℕ) s, (loadEntry host defaultProfile st e).result[k]? = some s →
      ∀ i, s.parentIndex = some i → i < k := by
  rw [loadEntry]
  by_cases hk : knownKind e = true
  · rw [if_neg (by simp [hk])]
    cases hsep : e.isSeparator with
    | true => exact hst
    | false =>
        intro k s hs i hi
        simp only [Bool.false_eq_true, if_false, List.getElem?_append] at hs
        split at hs
        · exact hst k s hs i hi
        · rename_i hlen
          obtain ⟨hidx, rfl⟩ := List.getElem?_eq_some_iff.mp hs
          simp only [List.getElem_singleton, startupSession, h.resolveParent] at hi
          have := parentIn_lt hi
          rw [← h.size] at this
          omega
  · rw [if_pos (by simpa using hk)]
    exact hst

/-- A parent of a loaded session has a smaller spawn index. -/
theorem loadStartupTree_parents (settings : Option (List LaunchEntry)) (k : ℕ)
    (s : StartupSession) (hs : (loadStartupTree host settings).1[k]? = some s) (i : ℕ)
    (hi : s.parentIndex = some i) : i < k := by
  have hfold : ∀ (rest older : List LaunchEntry) (done : List Row) (st : LoadState)
      (dp : Profile), Loaded older done st →
      (∀ (k : ℕ) s, st.result[k]? = some s → ∀ i, s.parentIndex = some i → i < k) →
      ∀ (k : ℕ) s, (rest.foldl (loadEntry host dp) st).result[k]? = some s →
        ∀ i, s.parentIndex = some i → i < k := by
    intro rest
    induction rest with
    | nil => exact fun _ _ _ _ _ h => h
    | cons e rest ih =>
        intro older done st dp hl hst
        have hst' := loadEntry_parents host dp e hl hst
        by_cases hk : knownKind e = true
        · exact ih _ _ _ dp (hl.step host dp hk) hst'
        · have heq : loadEntry host dp st e = st := by rw [loadEntry, if_pos (by simpa using hk)]
          rw [List.foldl_cons, heq]
          exact ih older done st dp hl hst
  have hempty : Loaded [] [] {} := ⟨rfl, fun _ _ => rfl, fun _ _ => rfl, fun _ => rfl⟩
  rcases loadStartupTree_cases host settings with h | ⟨entries, dp, h⟩
  · rw [h] at hs
    cases hs
  · rw [h] at hs
    exact hfold entries [] [] {} dp hempty (fun _ _ h => by cases h) k s hs i hi

end Axan.SessionTree
