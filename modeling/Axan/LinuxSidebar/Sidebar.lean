import Axan.Base.Lines

/-!
# The Linux sidebar: a tree of shells in a flat list box

Each row of the list box has a pointer to its parent row; the order of the rows is kept as a
pre-order traversal, so that a subtree is a range of rows.

* `rowDepth`, `rowIsDescendantOf`, `subtreeEndIndex` — the walks over the pointers. They have no
  result when a chain of pointers does not end, or leads to a row that is gone.
* `addScreen`, `removeScreen`, `moveSubtree`, `dragDataReceived`, `setScreenParent`,
  `reorderScreen` — the operations.
* `step`, `run` — any sequence of them, and of selections.

A row is known by its screen. The zone of a drop is given; which part of a row it stands for is
drawing.
-/

namespace Axan.LinuxSidebar

open Axan.Base Axan.Base.Forest

/-- A row: its screen, and the screen of its parent row. -/
abbrev Row := Line ℕ

/-! ### The hierarchy -/

/-- Source: `row_depth` -/
def rowDepth (rows : List Row) (row : Row) : Option ℕ :=
  (ancestors rows rows.length row.parent).map List.length

/-- Does the chain of pointers from `p` meet the row? -/
def walkMeets (rows : List Row) (ancestor : ℕ) : ℕ → Option ℕ → Option Bool
  | _, none => some false
  | 0, some _ => none
  | n + 1, some p =>
      if p = ancestor then some true
      else do
        let parent ← parentOf rows p
        walkMeets rows ancestor n parent

/-- Source: `row_is_descendant_of` -/
def rowIsDescendantOf (rows : List Row) (row : Row) (ancestor : ℕ) : Option Bool :=
  walkMeets rows ancestor rows.length row.parent

/-- Walk forward over the rows that are deeper than `depth`. -/
def walkDeeper (rows : List Row) (depth : ℕ) : ℕ → List Row → Option ℕ
  | i, [] => some i
  | i, r :: rs => do
      let d ← rowDepth rows r
      if d ≤ depth then some i else walkDeeper rows depth (i + 1) rs

/-- The end of the subtree at an index, exclusive. Source: `subtree_end_index` -/
def subtreeEndIndex (rows : List Row) (startIndex : ℕ) : Option ℕ :=
  match rows[startIndex]? with
  | none => some startIndex
  | some source => do
      let depth ← rowDepth rows source
      walkDeeper rows depth (startIndex + 1) (rows.drop (startIndex + 1))

/-! ### The list box -/

/-- Source: `gtk_list_box_row_get_index` -/
def rowGetIndex (rows : List Row) (screen : ℕ) : Option ℕ := rows.findIdx? fun r => r.key = screen

/-- Rows at a position and behind it; no position, or one past the end, is the end.
Source: `gtk_list_box_insert` -/
def listBoxInsert (rows moving : List Row) : Option ℕ → List Row
  | none => rows ++ moving
  | some i => rows.take i ++ (moving ++ rows.drop i)

/-- Source: `row_set_parent` -/
def rowSetParent (screen : ℕ) (parent : Option ℕ) (r : Row) : Row :=
  if r.key = screen then { r with parent := parent } else r

/-- The sidebar. -/
structure TerminalSidebar where
  rows : List Row := []
  /-- The selected row of the list box. -/
  selectedRow : Option ℕ := none
  activeScreen : Option ℕ := none
  deriving DecidableEq, Repr

namespace TerminalSidebar

/-- Source: `sidebar_lookup_row` -/
def lookupRow (s : TerminalSidebar) (screen : ℕ) : Option Row :=
  s.rows.find? fun r => r.key = screen

/-- A row that leaves the list box loses the selection, and `row-selected` is emitted without a row.
Source: `on_row_selected` -/
def deselect (s : TerminalSidebar) (moving : List Row) : TerminalSidebar :=
  if moving.any fun r => s.selectedRow = some r.key then
    { s with selectedRow := none, activeScreen := none }
  else s

/-- Source: `gtk_list_box_select_row`, `on_row_selected` -/
def selectRow (s : TerminalSidebar) (screen : ℕ) : TerminalSidebar :=
  { s with selectedRow := some screen, activeScreen := some screen }

/-! ### New shells -/

/-- Source: `terminal_sidebar_add_screen` -/
def addScreen (s : TerminalSidebar) (screen : ℕ) (position : Option ℕ) : TerminalSidebar :=
  let s' := { s with rows := listBoxInsert s.rows [⟨screen, none⟩] position }
  if s.activeScreen.isNone then s'.selectRow screen else s'

/-- Source: `terminal_sidebar_get_active_screen_num` -/
def getActiveScreenNum (s : TerminalSidebar) : Option ℕ := s.selectedRow.bind (rowGetIndex s.rows)

end TerminalSidebar

/-- Where a new shell goes. -/
inductive NewTabPosition where
  | next
  | last
  deriving DecidableEq, Repr

/-- The position of a new shell. Without an active row `next` is the front. -/
def newPosition (s : TerminalSidebar) : NewTabPosition → Option ℕ
  | .next => some ((s.getActiveScreenNum.map (· + 1)).getD 0)
  | .last => none

/-- A new shell, with position -1. Source: `terminal_window_add_screen` -/
def windowAddScreen (s : TerminalSidebar) (screen : ℕ) (positionPref : NewTabPosition) :
    TerminalSidebar :=
  if (s.lookupRow screen).isSome then s else s.addScreen screen (newPosition s positionPref)

namespace TerminalSidebar

/-! ### Closed shells -/

/-- The row goes; its children move up to its parent. Source: `terminal_sidebar_remove_screen` -/
def removeScreen (s : TerminalSidebar) (screen : ℕ) : Option TerminalSidebar :=
  match s.lookupRow screen with
  | none => some s
  | some row => do
      let rowIndex ← rowGetIndex s.rows screen
      let subtreeEnd ← subtreeEndIndex s.rows rowIndex
      let below := (s.rows.drop (rowIndex + 1)).take (subtreeEnd - (rowIndex + 1))
      let hoisted := below.map fun r =>
        if r.parent = some screen then { r with parent := row.parent } else r
      let s' := s.deselect [row]
      some
        { s' with
          rows := s.rows.take rowIndex ++ (hoisted ++ s.rows.drop subtreeEnd)
          activeScreen := if s'.activeScreen = some screen then none else s'.activeScreen }

/-! ### Moves of a subtree -/

/-- Take the subtree of a row out and put it at the index, which counts the rows before the move.
Source: the last parts of `on_listbox_drag_data_received` and `terminal_sidebar_set_screen_parent` -/
def moveSubtree (s : TerminalSidebar) (source : ℕ) (newParent insertIndex : Option ℕ) :
    Option TerminalSidebar := do
  let sourceStart ← rowGetIndex s.rows source
  let sourceEnd ← subtreeEndIndex s.rows sourceStart
  let subtreeSize := sourceEnd - sourceStart
  let dest := insertIndex.bind fun i =>
    if sourceStart < i then (if subtreeSize ≤ i then some (i - subtreeSize) else none) else some i
  let moving := (s.rows.drop sourceStart).take subtreeSize
  let rest := s.rows.take sourceStart ++ s.rows.drop sourceEnd
  some
    { s.deselect moving with
      rows := listBoxInsert rest (moving.map (rowSetParent source newParent)) dest }

/-- The parts of a row. -/
inductive DropZone where
  | siblingBefore
  | child
  | siblingAfter
  deriving DecidableEq, Repr

/-- The active row is selected again after a move. -/
def reselect (s : TerminalSidebar) (source : ℕ) : TerminalSidebar :=
  if s.activeScreen = some source then s.selectRow source else s

/-- A drop of a row on a row, or below all rows. Source: `on_listbox_drag_data_received` -/
def dragDataReceived (s : TerminalSidebar) (source : ℕ) (target : Option (ℕ × DropZone)) :
    Option TerminalSidebar :=
  match s.lookupRow source, target with
  | none, _ => some s
  | some _, none => (s.moveSubtree source none none).map fun s' => s'.reselect source
  | some _, some (t, zone) =>
      match s.lookupRow t with
      | none => some s
      | some targetRow => do
          let inside ← rowIsDescendantOf s.rows targetRow source
          if inside || (source = t && zone = .child) then some s
          else
            let targetIndex ← rowGetIndex s.rows t
            let targetEnd ← subtreeEndIndex s.rows targetIndex
            let moved ← match zone with
              | .siblingBefore => s.moveSubtree source targetRow.parent (some targetIndex)
              | .siblingAfter => s.moveSubtree source targetRow.parent (some targetEnd)
              | .child => s.moveSubtree source (some t) (some targetEnd)
            some (moved.reselect source)

/-- Hang a row at another, behind its subtree, or make it a root at the end; `false` when that is
refused. Source: `terminal_sidebar_set_screen_parent` -/
def setScreenParent (s : TerminalSidebar) (child : ℕ) (parent : Option ℕ) :
    Option (TerminalSidebar × Bool) :=
  if parent = some child then some (s, false)
  else
    match s.lookupRow child, parent with
    | none, _ => some (s, false)
    | some _, none => (s.moveSubtree child none none).map fun s' => (s', true)
    | some _, some p =>
        match s.lookupRow p with
        | none => some (s, false)
        | some parentRow => do
            let inside ← rowIsDescendantOf s.rows parentRow child
            if inside then some (s, false)
            else
              let parentIndex ← rowGetIndex s.rows p
              let parentEnd ← subtreeEndIndex s.rows parentIndex
              (s.moveSubtree child (some p) (some parentEnd)).map fun s' => (s', true)

/-! ### Move left and move right -/

/-- The directions of `reorderScreen`. -/
inductive Direction where
  | left
  | right
  deriving DecidableEq, Repr

/-- The index after the move; it wraps around. -/
def newPos (n pos : ℕ) : Direction → ℕ
  | .left => if pos = 0 then n - 1 else pos - 1
  | .right => if n ≤ pos + 1 then 0 else pos + 1

/-- One row goes to the next place of the list. Source: `terminal_sidebar_reorder_screen` -/
def reorderScreen (s : TerminalSidebar) (screen : ℕ) (direction : Direction) : TerminalSidebar :=
  match s.lookupRow screen, rowGetIndex s.rows screen with
  | some row, some pos =>
      let rest := s.rows.eraseIdx pos
      { s with rows := listBoxInsert rest [row] (some (newPos s.rows.length pos direction)) }.selectRow
        screen
  | _, _ => s

/-! ### Runs -/

/-- What can happen. -/
inductive Event where
  | newShell (screen : ℕ) (positionPref : NewTabPosition)
  | closeShell (screen : ℕ)
  | drop (source : ℕ) (target : Option (ℕ × DropZone))
  | setScreenParent (child : ℕ) (parent : Option ℕ)
  | reorder (screen : ℕ) (direction : Direction)
  | select (screen : Option ℕ)
  deriving DecidableEq, Repr

/-- One event. -/
def step (s : TerminalSidebar) : Event → Option TerminalSidebar
  | .newShell screen positionPref => some (windowAddScreen s screen positionPref)
  | .closeShell screen => s.removeScreen screen
  | .drop source target => s.dragDataReceived source target
  | .setScreenParent child parent => (s.setScreenParent child parent).map Prod.fst
  | .reorder screen direction => some (s.reorderScreen screen direction)
  | .select none => some { s with selectedRow := none, activeScreen := none }
  | .select (some screen) =>
      some (if (s.lookupRow screen).isSome then s.selectRow screen else s)

/-- The sidebar after the events, from an empty one. -/
def run (events : List Event) : Option TerminalSidebar := events.foldlM step {}

end TerminalSidebar

end Axan.LinuxSidebar
