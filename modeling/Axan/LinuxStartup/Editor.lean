import Axan.Base.Traversal
import Axan.LinuxSidebar.Startup

/-!
# The editor of the launch entries of a profile

The Startup tab keeps one row of a list box for each entry. Each row has an id and the id of its
parent row; the order of the rows should be the pre-order of that forest. Every change writes all
rows to `default-launch-entries` (`profile-editor.cc`).

* `startupSaveEntries`, `startupLoadEntries` — the rows and the value of the key.
* `startupReorderToPreOrder` — the traversal of the forest from its roots.
* `startupMoveRow`, `startupIndent`, `startupOutdent`, `startupRemove`, `startupAdd` — the buttons.
* `Editor.step` — one operation.

A row is known by its id. A new id comes from `g_uuid_string_random`, and is given. The labels, the
indent of a row and the sensitivity of its buttons are drawing.
-/

namespace Axan.LinuxStartup

open Axan.Base Axan.Base.Forest Axan.Base.Settings
open Axan.LinuxSidebar (LaunchEntry)

/-! ### Rows -/

/-- The colours that are offered. Source: `kStartupColors` -/
inductive StartupColor where
  | none | red | orange | yellow | green | blue | purple
  deriving DecidableEq, Repr

namespace StartupColor

def id : StartupColor → Text
  | .none => []
  | .red => "red".toList
  | .orange => "orange".toList
  | .yellow => "yellow".toList
  | .green => "green".toList
  | .blue => "blue".toList
  | .purple => "purple".toList

def all : List StartupColor := [.none, .red, .orange, .yellow, .green, .blue, .purple]

end StartupColor

/-- What a colour is used for. Source: `kStartupColorTargets` -/
inductive StartupColorTarget where
  | both | icon | text
  deriving DecidableEq, Repr

namespace StartupColorTarget

def id : StartupColorTarget → Text
  | .both => "both".toList
  | .icon => "icon".toList
  | .text => "text".toList

def all : List StartupColorTarget := [.both, .icon, .text]

end StartupColorTarget

/-- A row: what is stashed on it, and what its fields show. A combo box may have no active item. -/
structure StartupRow where
  id : Text
  parentId : Text := []
  icon : Text := []
  nameEntry : Text := []
  dirEntry : Text := []
  cmdEntry : Text := []
  colorCombo : Option StartupColor := some .none
  targetCombo : Option StartupColorTarget := some .both
  deriving DecidableEq, Repr

/-- A combo box makes the item with the id active, if it has one. Source: `startup_create_row` -/
def startupCreateRow (e : LaunchEntry) : StartupRow where
  id := e.id
  parentId := e.parentId
  icon := e.icon
  nameEntry := e.name
  dirEntry := e.directory
  cmdEntry := e.command
  colorCombo := StartupColor.all.find? fun c => c.id = e.color
  targetCombo :=
    let active := if e.colorTarget.isEmpty then "both".toList else e.colorTarget
    StartupColorTarget.all.find? fun t => t.id = active

/-! ### The hierarchy -/

/-- The ids of the rows. -/
def knownIds (rows : List StartupRow) : List Text :=
  (rows.map StartupRow.id).filter fun id => !id.isEmpty

/-- A parent id that no row has counts as no parent. -/
def promote (rows : List StartupRow) (pid : Text) : Text :=
  if !pid.isEmpty && !(knownIds rows).contains pid then [] else pid

/-- The row with an id; of several the last. Source: `startup_build_id_map` -/
def startupBuildIdMap (rows : List StartupRow) (id : Text) : Option StartupRow :=
  rows.reverse.find? fun r => !r.id.isEmpty && r.id = id

/-- Follow the parent ids, at most `n` of them. -/
def walkDepth (rows : List StartupRow) : ℕ → Text → ℕ
  | 0, _ => 0
  | n + 1, pid =>
      if pid.isEmpty then 0
      else
        match startupBuildIdMap rows pid with
        | none => 0
        | some parent => walkDepth rows n parent.parentId + 1

/-- Source: `startup_row_depth` -/
def startupRowDepth (rows : List StartupRow) (row : StartupRow) : ℕ :=
  walkDepth rows 128 row.parentId

/-- Source: `startup_subtree_end` -/
def startupSubtreeEnd (rows : List StartupRow) (startIdx : ℕ) : ℕ :=
  match rows[startIdx]? with
  | none => startIdx
  | some source =>
      let below := (rows.drop (startIdx + 1)).takeWhile fun r =>
        !(startupRowDepth rows r ≤ startupRowDepth rows source)
      startIdx + 1 + below.length

/-- The order of the rows that the parent ids ask for; none when the walk over them does not end.
No row is met twice while the ids are distinct. -/
def desiredOrder (rows : List StartupRow) : Option (List StartupRow) :=
  let kids (pid : Text) := rows.filter fun r => promote rows r.parentId = pid
  depthFirst (fun r => kids r.id) rows.length (kids [])

/-- The rows in pre-order, and whether that changed them.
Source: `startup_reorder_to_pre_order` -/
def startupReorderToPreOrder (rows : List StartupRow) : Option (List StartupRow × Bool) :=
  (desiredOrder rows).map fun desired => (desired, decide (desired ≠ rows))

/-! ### The value of the key -/

/-- Source: `startup_save_entries` -/
def startupSaveEntries (rows : List StartupRow) : List LaunchEntry :=
  (rows.filter fun r => !r.id.isEmpty).map fun r =>
    { id := r.id
      parentId := promote rows r.parentId
      name := r.nameEntry
      directory := r.dirEntry
      command := r.cmdEntry
      icon := r.icon
      color := (r.colorCombo.map StartupColor.id).getD []
      colorTarget := (r.targetCombo.map StartupColorTarget.id).getD [] }

/-- The editor: the rows, and the value of `default-launch-entries`. -/
structure Editor where
  rows : List StartupRow
  defaultLaunchEntries : List LaunchEntry
  deriving DecidableEq, Repr

namespace Editor

/-- Write the rows. -/
def save (s : Editor) : Editor :=
  { s with defaultLaunchEntries := startupSaveEntries s.rows }

end Editor

/-- An entry without an id gets a new one. A list that is not in pre-order is healed, and written.
Source: `startup_load_entries` -/
def startupLoadEntries (uuid : ℕ → Text) (entries : List LaunchEntry) : Option Editor :=
  let loaded := entries.mapIdx fun i e =>
    startupCreateRow { e with id := if e.id.isEmpty then uuid i else e.id }
  (startupReorderToPreOrder loaded).map fun (rows, differs) =>
    let s : Editor := { rows := rows, defaultLaunchEntries := entries }
    if differs then s.save else s

/-! ### The buttons -/

/-- The place of a row. Source: `gtk_list_box_row_get_index` -/
def rowIndex (rows : List StartupRow) (id : Text) : Option ℕ := rows.findIdx? fun r => r.id = id

/-- Source: `startup_row_set_parent_id` -/
def setParentId (rows : List StartupRow) (id parentId : Text) : List StartupRow :=
  rows.map fun r => if r.id = id then { r with parentId := parentId } else r

/-- The directions of a move. -/
inductive MoveDirection where
  | up | down
  deriving DecidableEq, Repr

/-- The nearest row in front of `i` with the parent id. -/
def siblingBefore (rows : List StartupRow) (parentId : Text) : ℕ → Option ℕ
  | 0 => none
  | i + 1 =>
      match rows[i]? with
      | none => none
      | some r => if r.parentId = parentId then some i else siblingBefore rows parentId i

/-- Source: `startup_find_sibling_index` -/
def startupFindSiblingIndex (rows : List StartupRow) (fromIdx : ℕ) (direction : MoveDirection)
    (parentId : Text) : Option ℕ :=
  match direction with
  | .up => siblingBefore rows parentId fromIdx
  | .down =>
      ((rows.drop (fromIdx + 1)).findIdx? fun r => r.parentId = parentId).map (fromIdx + 1 + ·)

/-- Take a range of rows out and put it at an index of the others. -/
def moveRange (rows : List StartupRow) (removeStart removeEnd insertAt : ℕ) : List StartupRow :=
  let moving := (rows.drop removeStart).take (removeEnd - removeStart)
  let rest := rows.take removeStart ++ rows.drop removeEnd
  rest.take insertAt ++ (moving ++ rest.drop insertAt)

/-- The rows after a move; none without a sibling on that side. Source: `startup_move_row` -/
def startupMoveRow (rows : List StartupRow) (myIdx : ℕ) (row : StartupRow)
    (direction : MoveDirection) : Option (List StartupRow) :=
  let myEnd := startupSubtreeEnd rows myIdx
  match direction with
  | .up =>
      (startupFindSiblingIndex rows myIdx .up row.parentId).map fun prevIdx =>
        moveRange rows myIdx myEnd prevIdx
  | .down =>
      (startupFindSiblingIndex rows (myEnd - 1) .down row.parentId).map fun nextIdx =>
        moveRange rows nextIdx (startupSubtreeEnd rows nextIdx) myIdx

/-- A field of a row. -/
inductive FieldEdit where
  | name (text : Text)
  | directory (text : Text)
  | command (text : Text)
  | icon (id : Text)
  | color (c : StartupColor)
  | colorTarget (t : StartupColorTarget)
  deriving DecidableEq, Repr

/-- Source: `startup_icon_changed_cb`; the other fields are read when the rows are written. -/
def editField (r : StartupRow) : FieldEdit → StartupRow
  | .name text => { r with nameEntry := text }
  | .directory text => { r with dirEntry := text }
  | .command text => { r with cmdEntry := text }
  | .icon id => { r with icon := id }
  | .color c => { r with colorCombo := some c }
  | .colorTarget t => { r with targetCombo := some t }

/-- What the user can do. The row of a button or a field is given by its id. -/
inductive Operation where
  | add (newId : Text)
  | remove (id : Text)
  | indent (id : Text)
  | outdent (id : Text)
  | move (id : Text) (direction : MoveDirection)
  | edit (id : Text) (field : FieldEdit)
  deriving DecidableEq, Repr

namespace Editor

/-- Source: `startup_add_clicked_cb` -/
def startupAdd (s : Editor) (newId : Text) : Editor :=
  { s with rows := s.rows ++ [startupCreateRow { id := newId }] }.save

/-- Source: `startup_remove_clicked_cb` -/
def startupRemove (s : Editor) (idx : ℕ) : Editor := { s with rows := s.rows.eraseIdx idx }.save

/-- The rows with a new parent id are put in order, and written. -/
def reparent (s : Editor) (id parentId : Text) : Option Editor :=
  (startupReorderToPreOrder (setParentId s.rows id parentId)).map fun (rows, _) =>
    { s with rows := rows }.save

/-- Source: `startup_indent_clicked_cb` -/
def startupIndent (s : Editor) (idx : ℕ) (row : StartupRow) : Option Editor :=
  match idx with
  | 0 => some s
  | i + 1 =>
      match s.rows[i]? with
      | none => some s
      | some prev => s.reparent row.id prev.id

/-- Source: `startup_outdent_clicked_cb` -/
def startupOutdent (s : Editor) (row : StartupRow) : Option Editor :=
  if row.parentId.isEmpty then some s
  else
    let grandparentId := ((startupBuildIdMap s.rows row.parentId).map StartupRow.parentId).getD []
    s.reparent row.id grandparentId

/-- Do something with a row of the list. -/
def onRow (s : Editor) (id : Text) (f : ℕ → StartupRow → Option Editor) : Option Editor :=
  match rowIndex s.rows id with
  | none => some s
  | some idx =>
      match s.rows[idx]? with
      | none => some s
      | some row => f idx row

/-- One operation. -/
def step (s : Editor) : Operation → Option Editor
  | .add newId => some (s.startupAdd newId)
  | .remove id => s.onRow id fun idx _ => some (s.startupRemove idx)
  | .indent id => s.onRow id fun idx row => s.startupIndent idx row
  | .outdent id => s.onRow id fun _ row => s.startupOutdent row
  | .move id direction => s.onRow id fun idx row =>
      match startupMoveRow s.rows idx row direction with
      | none => some s
      | some rows => some { s with rows := rows }.save
  | .edit id field => s.onRow id fun idx row =>
      some { s with rows := s.rows.set idx (editField row field) }.save

end Editor

end Axan.LinuxStartup
