import Axan.Base.Settings
import Axan.LinuxSidebar.Sidebar

/-!
# The start of a window from the launch entries of a profile

The client expands the launch entries into tabs, each with the number of its parent tab, and asks
the server for one shell after another. The server adds a row and hangs it at the parent's row.

* `expandProfileLaunchEntries` — the tabs (`terminal-options.cc`).
* `createInstance` — what the server does for one tab (`terminal-gdbus.cc`).
* `createTabs`, `handleOptions` — the loop of the client (`terminal.cc`).

A screen is known by the number of its creation, and stands for its object path. The command line
has asked for nothing, so that the entries are used.
-/

namespace Axan.LinuxSidebar

open Axan.Base.Settings

/-- An element of `default-launch-entries`. -/
structure LaunchEntry where
  id : Text
  parentId : Text := []
  name : Text := []
  directory : Text := []
  command : Text := []
  icon : Text := []
  color : Text := []
  colorTarget : Text := []
  deriving DecidableEq, Repr

/-- What the client reads of its environment. -/
structure Environment where
  /-- `$SHELL` -/
  shell : Option Text := none
  /-- `g_get_home_dir` -/
  homeDir : Text := []

/-- A tab to open. -/
structure InitialTab where
  nameTemplate : Option Text := none
  icon : Option Text := none
  color : Option Text := none
  colorTarget : Option Text := none
  workingDir : Option Text := none
  execArgv : Option (List Text) := none
  /-- The number of the parent tab; none is -1. -/
  parentTabIndex : Option ℕ := none
  active : Bool := false
  deriving DecidableEq, Repr

/-! ### The client -/

/-- A copy of a text that is not empty. -/
def nonEmpty (s : Text) : Option Text := if s.isEmpty then none else some s

/-- Source: `expand_tilde_dir` -/
def expandTildeDir (env : Environment) (path : Text) : Option Text :=
  match path with
  | [] => none
  | c :: rest =>
      if c = '~' && (rest.isEmpty || rest.head? = some '/') then some (env.homeDir ++ rest)
      else some path

/-- The shell around a command, which stays when the command ends. -/
def execArgv (env : Environment) (command : Text) : Option (List Text) :=
  if command.isEmpty then none
  else
    let userShell := ((env.shell.bind nonEmpty).getD "/bin/bash".toList)
    some [userShell, "-c".toList, command ++ "; exec ".toList ++ userShell]

/-- The first pass: the place of each id. A later entry of the same id takes it over. -/
def idToIndex : ℕ → List LaunchEntry → (Text → Option ℕ) → Text → Option ℕ
  | _, [], map => map
  | idx, e :: entries, map =>
      idToIndex (idx + 1) entries
        (if e.id.isEmpty then map else Function.update map e.id (some idx))

/-- The parent of the entry at `idx`: the place of its parent id, when that is before `idx`. -/
def parentTabIndex (map : Text → Option ℕ) (idx : ℕ) (parentId : Text) : Option ℕ :=
  if parentId.isEmpty then none
  else
    match map parentId with
    | none => none
    | some resolved => if resolved < idx then some resolved else none

/-- The tab of an entry. -/
def initialTab (env : Environment) (map : Text → Option ℕ) (idx : ℕ) (e : LaunchEntry) :
    InitialTab where
  nameTemplate := nonEmpty e.name
  icon := nonEmpty e.icon
  color := nonEmpty e.color
  colorTarget := nonEmpty e.colorTarget
  workingDir := expandTildeDir env e.directory
  execArgv := execArgv env e.command
  parentTabIndex := parentTabIndex map idx e.parentId
  active := idx = 0

/-- The tabs of the entries; without entries the default tab stays.
Source: `terminal_options_expand_profile_launch_entries` -/
def expandProfileLaunchEntries (env : Environment) (entries : List LaunchEntry) :
    Option (List InitialTab) :=
  if entries.isEmpty then none
  else
    let map := idToIndex 0 entries fun _ => none
    some (entries.mapIdx (initialTab env map))

/-! ### The server -/

/-- A new shell in the window. Source: `terminal_factory_impl_create_instance` -/
def createInstance (positionPref : NewTabPosition) (s : TerminalSidebar) (screen : ℕ)
    (sidebarParent : Option ℕ) (active : Bool) : Option TerminalSidebar := do
  let added := windowAddScreen s screen positionPref
  let placed ← match sidebarParent with
    | none => some added
    | some parent => (added.setScreenParent screen (some parent)).map Prod.fst
  some (if active then placed.selectRow screen else placed)

/-! ### The loop -/

/-- One tab after another. The number of the next tab counts the paths; a shell that could not be
made leaves an empty place among them. Source: `handle_options` -/
def createTabs (positionPref : NewTabPosition) :
    List (InitialTab × Bool) → List (Option ℕ) → TerminalSidebar →
      Option (TerminalSidebar × List (Option ℕ))
  | [], tabObjectPaths, s => some (s, tabObjectPaths)
  | (it, success) :: tabs, tabObjectPaths, s => do
      let screen := tabObjectPaths.length
      let parent := it.parentTabIndex.bind fun i => (tabObjectPaths[i]?).join
      if success then
        let s' ← createInstance positionPref s screen parent it.active
        createTabs positionPref tabs (tabObjectPaths ++ [some screen]) s'
      else createTabs positionPref tabs (tabObjectPaths ++ [none]) s

/-- All tabs in a fresh window; every shell is made. -/
def handleOptions (positionPref : NewTabPosition) (tabs : List InitialTab) :
    Option TerminalSidebar :=
  (createTabs positionPref (tabs.map fun it => (it, true)) [] {}).map Prod.fst

end Axan.LinuxSidebar
