import Axan.LinuxSidebar.Sidebar

/-!
# The collapsed column of the Linux sidebar

In the collapsed state the sidebar shows a column of cells, a copy of the list box that every
operation has to make anew. Most of them do so at their end; `terminal_sidebar_set_screen_parent`
does not, and only the selection that gets lost on the way may make a copy, of half a list.

* `buildColumn`, `rebuild` — the copy, with the dividers between subtrees.
* `CollapsibleSidebar`, `step`, `run` — the sidebar with its state and its column.
* `Refreshed` — the steps that leave the column right; `run_mirrors` — in a run of them it always
  is. `startedCollapsed_not_mirrors` — a start into the collapsed state, where it is not.
-/

namespace Axan.LinuxSidebar

open Axan.Base Axan.Base.Forest
open TerminalSidebar (Direction DropZone)

/-! ### The column -/

/-- What stands in the column. -/
inductive ColumnItem where
  | divider
  | cell (screen : ℕ) (nested : Bool)
  deriving DecidableEq, Repr

/-- The cell of an item. -/
def ColumnItem.cell? : ColumnItem → Option (ℕ × Bool)
  | .divider => none
  | .cell screen nested => some (screen, nested)

/-- The loop over the rows, with the depth of the row before; the pointers lead over `all` rows.
There is no result when a chain of pointers leads to a row that is gone.
Source: `sidebar_rebuild_collapsed_list`, `sidebar_make_collapsed_cell` -/
def buildColumn (all : List Row) : ℕ → List Row → Option (List ColumnItem)
  | _, [] => some []
  | prevDepth, r :: rs => do
      let depth ← rowDepth all r
      let rest ← buildColumn all depth rs
      some ((if 0 < prevDepth ∧ depth = 0 then [.divider] else []) ++
        .cell r.key (decide (0 < depth)) :: rest)

/-- Source: `TerminalSidebarState` -/
inductive SidebarState where
  | expanded
  | collapsed
  | minimized
  deriving DecidableEq, Repr

/-- The sidebar with its state and the collapsed column. -/
structure CollapsibleSidebar where
  box : TerminalSidebar := {}
  state : SidebarState
  collapsedList : List ColumnItem := []
  deriving DecidableEq, Repr

namespace CollapsibleSidebar

/-- A copy of some rows, in the collapsed state only. -/
def rebuildFrom (s : CollapsibleSidebar) (rows : List Row) : Option CollapsibleSidebar :=
  if s.state = .collapsed then
    (buildColumn s.box.rows 0 rows).map fun items => { s with collapsedList := items }
  else some s

/-- Source: `sidebar_rebuild_collapsed_list` -/
def rebuild (s : CollapsibleSidebar) : Option CollapsibleSidebar := s.rebuildFrom s.box.rows

/-! ### The operations -/

/-- A new list box, and a copy of it. -/
def refreshWith (s : CollapsibleSidebar) (box : TerminalSidebar) : Option CollapsibleSidebar :=
  { s with box }.rebuild

/-- Source: `terminal_window_add_screen`, `terminal_sidebar_add_screen` -/
def newShell (s : CollapsibleSidebar) (screen : ℕ) (positionPref : NewTabPosition) :
    Option CollapsibleSidebar :=
  if (s.box.lookupRow screen).isSome then some s
  else s.refreshWith (windowAddScreen s.box screen positionPref)

/-- Source: `terminal_sidebar_remove_screen` -/
def removeScreen (s : CollapsibleSidebar) (screen : ℕ) : Option CollapsibleSidebar :=
  if (s.box.lookupRow screen).isSome then s.box.removeScreen screen >>= s.refreshWith else some s

/-- Source: `terminal_sidebar_reorder_screen` -/
def reorderScreen (s : CollapsibleSidebar) (screen : ℕ) (direction : Direction) :
    Option CollapsibleSidebar :=
  if (s.box.lookupRow screen).isSome then s.refreshWith (s.box.reorderScreen screen direction)
  else some s

/-- Source: `on_listbox_drag_data_received` -/
def dragDataReceived (s : CollapsibleSidebar) (source : ℕ) (target : Option (ℕ × DropZone)) :
    Option CollapsibleSidebar :=
  match s.box.lookupRow source, target with
  | none, _ => some s
  | some _, none => s.box.dragDataReceived source none >>= s.refreshWith
  | some _, some (t, zone) =>
      match s.box.lookupRow t with
      | none => some s
      | some targetRow => do
          let inside ← rowIsDescendantOf s.box.rows targetRow source
          if inside || (source = t && zone = .child) then some s
          else s.box.dragDataReceived source (some (t, zone)) >>= s.refreshWith

/-- A selected row among the rows that are taken out, from the last to the first, loses the selection
when it is the next to go: if it was active, what is left of the rows then is copied.
Source: `on_row_selected` -/
def copyOnDeselect (s : CollapsibleSidebar) (source : ℕ) : Option CollapsibleSidebar := do
  let sourceStart ← rowGetIndex s.box.rows source
  let sourceEnd ← subtreeEndIndex s.box.rows sourceStart
  let moving := (s.box.rows.drop sourceStart).take (sourceEnd - sourceStart)
  match s.box.activeScreen, moving.findIdx? fun r => s.box.selectedRow = some r.key with
  | some _, some i =>
      s.rebuildFrom (s.box.rows.take (sourceStart + i) ++ s.box.rows.drop sourceEnd)
  | _, _ => some s

/-- Nothing is copied at the end. Source: `terminal_sidebar_set_screen_parent` -/
def setScreenParent (s : CollapsibleSidebar) (child : ℕ) (parent : Option ℕ) :
    Option (CollapsibleSidebar × Bool) := do
  let (box, accepted) ← s.box.setScreenParent child parent
  if accepted then
    let copied ← s.copyOnDeselect child
    some ({ copied with box }, true)
  else some (s, false)

/-- The row that gets selected, or none. Source: `on_row_selected` -/
def select (s : CollapsibleSidebar) (screen : Option ℕ) : Option CollapsibleSidebar := do
  let box ← s.box.step (.select screen)
  if box.activeScreen = s.box.activeScreen then some { s with box } else s.refreshWith box

/-- Source: `sidebar_apply_state` -/
def applyState (s : CollapsibleSidebar) (newState : SidebarState) : Option CollapsibleSidebar :=
  if newState = s.state then some s else { s with state := newState }.rebuild

/-! ### Runs -/

/-- What can happen: an event of the list box, a new state, or a setting or icon that makes the
column anew. -/
inductive Event where
  | list (e : TerminalSidebar.Event)
  | state (newState : SidebarState)
  | refresh
  deriving DecidableEq, Repr

/-- One event. -/
def step (s : CollapsibleSidebar) : Event → Option CollapsibleSidebar
  | .list (.newShell screen positionPref) => s.newShell screen positionPref
  | .list (.closeShell screen) => s.removeScreen screen
  | .list (.drop source target) => s.dragDataReceived source target
  | .list (.setScreenParent child parent) => (s.setScreenParent child parent).map Prod.fst
  | .list (.reorder screen direction) => s.reorderScreen screen direction
  | .list (.select screen) => s.select screen
  | .state newState => s.applyState newState
  | .refresh => s.rebuild

/-- The sidebar after the events, from an empty one in its first state. -/
def run (first : SidebarState) (events : List Event) : Option CollapsibleSidebar :=
  events.foldlM step { state := first }

/-! ### The list box is the same -/

section ListBox

variable {s s' : CollapsibleSidebar}

/-- A new copy does not change the list box. -/
theorem box_of_rebuildFrom {rows : List Row} (h : s.rebuildFrom rows = some s') :
    s'.box = s.box ∧ s'.state = s.state := by
  unfold rebuildFrom at h
  split_ifs at h
  · obtain ⟨items, -, rfl⟩ := Option.map_eq_some_iff.mp h
    exact ⟨rfl, rfl⟩
  · cases h
    exact ⟨rfl, rfl⟩

/-- An operation ends with a copy of its new list box, or changes neither the rows nor the copy. -/
inductive Recopied (s : CollapsibleSidebar) (o : Option TerminalSidebar) (s' : CollapsibleSidebar) :
    Prop
  | copied (box : TerminalSidebar) (hbox : o = some box) (hcopy : s.refreshWith box = some s')
  | kept (hbox : o = some s'.box) (hrows : s'.box.rows = s.box.rows)
      (hstate : s'.state = s.state) (hlist : s'.collapsedList = s.collapsedList)

variable {o : Option TerminalSidebar}

theorem Recopied.same (hbox : o = some s.box) : Recopied s o s := .kept hbox rfl rfl rfl

/-- A new shell ends with a copy. -/
theorem recopied_newShell (screen : ℕ) (positionPref : NewTabPosition)
    (h : s.newShell screen positionPref = some s') :
    Recopied s (some (windowAddScreen s.box screen positionPref)) s' := by
  unfold newShell at h
  split_ifs at h with hknown
  · cases h
    unfold windowAddScreen
    rw [if_pos hknown]
    exact .same rfl
  · exact .copied _ rfl h

/-- So does closing one. -/
theorem recopied_removeScreen (screen : ℕ) (h : s.removeScreen screen = some s') :
    Recopied s (s.box.removeScreen screen) s' := by
  unfold removeScreen at h
  split_ifs at h with hknown
  · obtain ⟨box, hbox, hcopy⟩ := Option.bind_eq_some_iff.mp h
    exact .copied box hbox hcopy
  · cases h
    unfold TerminalSidebar.removeScreen
    rw [Option.not_isSome_iff_eq_none.mp hknown]
    exact .same rfl

/-- So does a move left or right. -/
theorem recopied_reorderScreen (screen : ℕ) (direction : Direction)
    (h : s.reorderScreen screen direction = some s') :
    Recopied s (some (s.box.reorderScreen screen direction)) s' := by
  unfold reorderScreen at h
  split_ifs at h with hknown
  · exact .copied _ rfl h
  · cases h
    unfold TerminalSidebar.reorderScreen
    rw [Option.not_isSome_iff_eq_none.mp hknown]
    exact .same rfl

theorem recopied_dragDataReceived (source : ℕ) (target : Option (ℕ × DropZone))
    (h : s.dragDataReceived source target = some s') :
    Recopied s (s.box.dragDataReceived source target) s' := by
  unfold dragDataReceived at h
  split at h
  next hnone =>
    cases h
    unfold TerminalSidebar.dragDataReceived
    rw [hnone]
    exact .same rfl
  next hsource =>
    obtain ⟨box, hbox, hcopy⟩ := Option.bind_eq_some_iff.mp h
    exact .copied box hbox hcopy
  next row t zone hsource =>
    split at h
    next hnone =>
      cases h
      unfold TerminalSidebar.dragDataReceived
      simp only [hsource, hnone]
      exact .same rfl
    next targetRow htarget =>
      obtain ⟨inside, hinside, h⟩ := Option.bind_eq_some_iff.mp h
      split_ifs at h with hrefused
      · cases h
        unfold TerminalSidebar.dragDataReceived
        simp only [hsource, htarget, hinside, Option.bind_eq_bind, Option.bind_some,
          if_pos hrefused]
        exact .same rfl
      · obtain ⟨box, hbox, hcopy⟩ := Option.bind_eq_some_iff.mp h
        exact .copied box hbox hcopy

/-- A selection ends with a copy, or changes no row. -/
theorem recopied_select (screen : Option ℕ) (h : s.select screen = some s') :
    Recopied s (s.box.step (.select screen)) s' := by
  obtain ⟨box, hbox, h⟩ := Option.bind_eq_some_iff.mp h
  split_ifs at h
  · cases h
    refine .kept hbox ?_ rfl rfl
    cases screen with
    | none =>
        cases hbox
        rfl
    | some screen =>
        cases hbox
        change (if _ then _ else _ : TerminalSidebar).rows = _
        split <;> rfl
  · exact .copied box hbox h

/-- The copy on the way keeps the state. -/
theorem state_of_copyOnDeselect {child : ℕ} (h : s.copyOnDeselect child = some s') :
    s'.state = s.state := by
  obtain ⟨start, -, h⟩ := Option.bind_eq_some_iff.mp h
  obtain ⟨stop, -, h⟩ := Option.bind_eq_some_iff.mp h
  dsimp only at h
  split at h
  next => exact (box_of_rebuildFrom h).2
  next =>
    cases h
    rfl

/-- The call is refused, if it has a result. -/
def Refused (box : TerminalSidebar) (child : ℕ) (parent : Option ℕ) : Prop :=
  parent = some child ∨ (box.lookupRow child).isNone ∨
    ∃ p ∈ parent, ∀ row ∈ box.lookupRow p, rowIsDescendantOf box.rows row child ≠ some false

instance (box : TerminalSidebar) (child : ℕ) (parent : Option ℕ) :
    Decidable (Refused box child parent) := inferInstanceAs (Decidable (_ ∨ _ ∨ _))

/-- The index at which a child of a row is inserted. -/
def childIndex (rows : List Row) : Option ℕ → Option (Option ℕ)
  | none => some none
  | some p => do
      let parentIndex ← rowGetIndex rows p
      let parentEnd ← subtreeEndIndex rows parentIndex
      some (some parentEnd)

/-- A call is refused and changes nothing, or hangs the row at the index of a child. -/
theorem setScreenParent_inv {box box' : TerminalSidebar} {child : ℕ} {parent : Option ℕ}
    {accepted : Bool} (h : box.setScreenParent child parent = some (box', accepted)) :
    (accepted = false ∧ box' = box) ∨
      accepted = true ∧ ¬ Refused box child parent ∧
        ∃ insertIndex ∈ childIndex box.rows parent,
          box.moveSubtree child parent insertIndex = some box' := by
  unfold TerminalSidebar.setScreenParent at h
  split_ifs at h with hself
  · cases h
    exact Or.inl ⟨rfl, rfl⟩
  · split at h
    next =>
      cases h
      exact Or.inl ⟨rfl, rfl⟩
    next row hrow =>
      obtain ⟨moved, hmoved, heq⟩ := Option.map_eq_some_iff.mp h
      cases heq
      refine Or.inr ⟨rfl, ?_, none, rfl, hmoved⟩
      simp [Refused, hrow]
    next row p hrow =>
      split at h
      next =>
        cases h
        exact Or.inl ⟨rfl, rfl⟩
      next parentRow hparent =>
        obtain ⟨inside, hinside, h⟩ := Option.bind_eq_some_iff.mp h
        split_ifs at h with hyes
        · cases h
          exact Or.inl ⟨rfl, rfl⟩
        · obtain ⟨i, hi, h⟩ := Option.bind_eq_some_iff.mp h
          obtain ⟨e, he, h⟩ := Option.bind_eq_some_iff.mp h
          obtain ⟨moved, hmoved, heq⟩ := Option.map_eq_some_iff.mp h
          cases heq
          refine Or.inr ⟨rfl, ?_, some e, ?_, hmoved⟩
          · obtain rfl : inside = false := Bool.eq_false_iff.mpr hyes
            rintro (heq | hnone | ⟨q, hq, hwalk⟩)
            · exact hself heq
            · rw [hrow] at hnone
              cases hnone
            · cases hq
              exact hwalk parentRow hparent hinside
          · unfold childIndex
            simp only [hi, he, Option.bind_eq_bind, Option.bind_some, Option.mem_def]

/-- Hanging a row changes the list box as before, and the copy only on the way. -/
theorem setScreenParent_cases {child : ℕ} {parent : Option ℕ} {accepted : Bool}
    (h : s.setScreenParent child parent = some (s', accepted)) :
    s.box.setScreenParent child parent = some (s'.box, accepted) ∧ s'.state = s.state ∧
      if accepted then
        ∃ copied, s.copyOnDeselect child = some copied ∧ s'.collapsedList = copied.collapsedList
      else s' = s := by
  obtain ⟨⟨box, taken⟩, hbox, h⟩ := Option.bind_eq_some_iff.mp h
  cases taken with
  | false =>
      cases h
      obtain ⟨-, rfl⟩ | ⟨htrue, -⟩ := setScreenParent_inv hbox
      · exact ⟨hbox, rfl, rfl⟩
      · cases htrue
  | true =>
      obtain ⟨copied, hcopied, h⟩ := Option.bind_eq_some_iff.mp h
      have hstate := state_of_copyOnDeselect hcopied
      cases h
      exact ⟨hbox, hstate, copied, hcopied, rfl⟩

end ListBox

/-! ### The promise -/

/-- In the collapsed state the cells are the rows, and those with a parent are nested. -/
def Mirrors (s : CollapsibleSidebar) : Prop :=
  s.state = .collapsed → s.collapsedList.filterMap ColumnItem.cell? =
    s.box.rows.map fun r => (r.key, r.parent.isSome)

instance (s : CollapsibleSidebar) : Decidable (Mirrors s) := inferInstanceAs (Decidable (_ → _))

/-- Of `n` rows, those from `start` to `stop` are put back where they were. An index that gets
negative is the end of the list. -/
def PutBack (n start stop : ℕ) : Option ℕ → Prop
  | none => stop = n
  | some i => i = start ∨ i = stop ∨ stop = n ∧ start < i ∧ i < stop - start

instance (n start stop : ℕ) : (insertIndex : Option ℕ) → Decidable (PutBack n start stop insertIndex)
  | none => inferInstanceAs (Decidable (_ = _))
  | some _ => inferInstanceAs (Decidable (_ ∨ _ ∨ _))

/-- The call moves nothing: the row had a parent if it gets one, its subtree is put back where it
was, and the active row is not in it. -/
def InPlace (box : TerminalSidebar) (child : ℕ) (parent : Option ℕ) : Prop :=
  (∀ r ∈ box.rows, r.key = child → r.parent.isSome = parent.isSome) ∧
    ∀ start ∈ rowGetIndex box.rows child, ∀ stop ∈ subtreeEndIndex box.rows start,
      (∀ i ∈ childIndex box.rows parent, PutBack box.rows.length start stop i) ∧
        (box.activeScreen = none ∨
          ∀ r ∈ (box.rows.drop start).take (stop - start), box.selectedRow ≠ some r.key)

instance (box : TerminalSidebar) (child : ℕ) (parent : Option ℕ) :
    Decidable (InPlace box child parent) := inferInstanceAs (Decidable (_ ∧ _))

/-- The row that an event hangs, and its new parent. -/
def Event.hung : Event → Option (ℕ × Option ℕ)
  | .list (.setScreenParent child parent) => some (child, parent)
  | _ => none

/-- In the collapsed state no row is hung, unless that is refused or moves nothing. -/
def Refreshed (s : CollapsibleSidebar) (e : Event) : Prop :=
  s.state = .collapsed → ∀ h ∈ e.hung, Refused s.box h.1 h.2 ∨ InPlace s.box h.1 h.2

instance (s : CollapsibleSidebar) (e : Event) : Decidable (Refreshed s e) :=
  inferInstanceAs (Decidable (_ → _))

/-! ### A copy mirrors the list -/

/-- A row with a parent is deeper than the roots. -/
theorem pos_of_rowDepth {all : List Row} {r : Row} {d : ℕ} (h : rowDepth all r = some d) :
    decide (0 < d) = r.parent.isSome := by
  obtain ⟨up, hup, rfl⟩ := Option.map_eq_some_iff.mp h
  cases hparent : r.parent with
  | none =>
      rw [hparent] at hup
      obtain rfl : [] = up := by
        cases hn : all.length with
        | zero =>
            rw [hn] at hup
            exact Option.some.inj hup
        | succ n =>
            rw [hn] at hup
            exact Option.some.inj hup
      rfl
  | some p =>
      rw [hparent] at hup
      cases hn : all.length with
      | zero =>
          rw [hn] at hup
          cases hup
      | succ n =>
          rw [hn, ancestors] at hup
          obtain ⟨q, -, hup⟩ := Option.bind_eq_some_iff.mp hup
          obtain ⟨up', -, hup⟩ := Option.bind_eq_some_iff.mp hup
          cases hup
          rfl

/-- The dividers aside, the column is the list of the rows. -/
theorem cells_buildColumn {all rows : List Row} {prevDepth : ℕ} {items : List ColumnItem}
    (h : buildColumn all prevDepth rows = some items) :
    items.filterMap ColumnItem.cell? = rows.map fun r => (r.key, r.parent.isSome) := by
  induction rows generalizing prevDepth items with
  | nil =>
      cases h
      rfl
  | cons r rs ih =>
      obtain ⟨depth, hdepth, h⟩ := Option.bind_eq_some_iff.mp h
      obtain ⟨rest, hrest, h⟩ := Option.bind_eq_some_iff.mp h
      cases h
      have hdivider : (if 0 < prevDepth ∧ depth = 0 then [ColumnItem.divider]
          else []).filterMap ColumnItem.cell? = [] := by
        split <;> rfl
      have hcell : (ColumnItem.cell r.key (decide (0 < depth))).cell? =
          some (r.key, r.parent.isSome) := by rw [← pos_of_rowDepth hdepth]; rfl
      rw [List.filterMap_append, hdivider, List.nil_append, List.filterMap_cons_some hcell,
        ih hrest, List.map_cons]

variable {s s' : CollapsibleSidebar}

/-- A copy of the rows mirrors them. -/
theorem mirrors_of_rebuild (h : s.rebuild = some s') : Mirrors s' := by
  unfold rebuild rebuildFrom at h
  split_ifs at h with hstate
  · obtain ⟨items, hitems, rfl⟩ := Option.map_eq_some_iff.mp h
    exact fun _ => cells_buildColumn hitems
  · cases h
    exact fun hcollapsed => absurd hcollapsed hstate

/-- After an operation that ends so, the copy mirrors the rows. -/
theorem Recopied.mirrors {o : Option TerminalSidebar} (h : Recopied s o s') (hs : Mirrors s) :
    Mirrors s' := by
  cases h with
  | copied box hbox hcopy => exact mirrors_of_rebuild hcopy
  | kept hbox hrows hstate hlist =>
      intro hcollapsed
      rw [hlist, hrows]
      exact hs (hstate ▸ hcollapsed)

/-! ### A subtree that is put back -/

/-- The walk stays inside of the list. -/
theorem walkDeeper_bounds {all rows : List Row} {depth i e : ℕ}
    (h : walkDeeper all depth i rows = some e) : i ≤ e ∧ e ≤ i + rows.length := by
  induction rows generalizing i with
  | nil =>
      cases h
      exact ⟨le_rfl, le_rfl⟩
  | cons r rs ih =>
      obtain ⟨d, -, h⟩ := Option.bind_eq_some_iff.mp h
      rw [List.length_cons]
      split_ifs at h
      · cases h
        exact ⟨le_rfl, by omega⟩
      · have hle := ih h
        omega

/-- The subtree of a row has the row, and ends in the list. -/
theorem subtreeEndIndex_bounds {rows : List Row} {screen start stop : ℕ}
    (hstart : rowGetIndex rows screen = some start)
    (hstop : subtreeEndIndex rows start = some stop) : start < stop ∧ stop ≤ rows.length := by
  obtain ⟨hlt, -⟩ := List.findIdx?_eq_some_iff_getElem.mp hstart
  unfold subtreeEndIndex at hstop
  rw [List.getElem?_eq_getElem hlt] at hstop
  obtain ⟨depth, -, hwalk⟩ := Option.bind_eq_some_iff.mp hstop
  have hle := walkDeeper_bounds hwalk
  rw [List.length_drop] at hle
  omega

/-- Rows that are put back are where they were. -/
theorem listBoxInsert_of_putBack {rows moved : List Row} {start stop : ℕ} {insertIndex : Option ℕ}
    (hlt : start < stop) (hle : stop ≤ rows.length)
    (h : PutBack rows.length start stop insertIndex) :
    listBoxInsert (rows.take start ++ rows.drop stop) moved (insertIndex.bind fun i =>
      if start < i then (if stop - start ≤ i then some (i - (stop - start)) else none) else some i) =
      rows.take start ++ (moved ++ rows.drop stop) := by
  have hend (hn : stop = rows.length) : listBoxInsert (rows.take start ++ rows.drop stop) moved none =
      rows.take start ++ (moved ++ rows.drop stop) := by
    rw [hn, List.drop_length, List.append_nil, List.append_nil]
    rfl
  have hback : listBoxInsert (rows.take start ++ rows.drop stop) moved (some start) =
      rows.take start ++ (moved ++ rows.drop stop) := by
    have hlen : (rows.take start).length = start := by
      rw [List.length_take]
      omega
    rw [listBoxInsert, List.take_left' hlen, List.drop_left' hlen]
  cases insertIndex with
  | none => exact hend h
  | some i =>
      rw [Option.bind_some]
      rcases h with rfl | rfl | ⟨hn, hi, hsize⟩
      · rw [if_neg (lt_irrefl i)]
        exact hback
      · rw [if_pos hlt, if_pos (Nat.sub_le i start), Nat.sub_sub_self hlt.le]
        exact hback
      · rw [if_pos hi, if_neg (by omega)]
        exact hend hn

/-- A new parent for a row that had one, or no parent for one without, nests no cell. -/
theorem nested_rowSetParent {child : ℕ} {parent : Option ℕ} {r : Row}
    (h : r.key = child → r.parent.isSome = parent.isSome) :
    ((rowSetParent child parent r).key, (rowSetParent child parent r).parent.isSome) =
      (r.key, r.parent.isSome) := by
  unfold rowSetParent
  split_ifs with hkey
  · rw [h hkey]
  · rfl

/-- What is taken out for a row that is hung. -/
theorem exists_of_moveSubtree {box box' : TerminalSidebar} {source : ℕ}
    {newParent insertIndex : Option ℕ} (h : box.moveSubtree source newParent insertIndex = some box') :
    ∃ start stop, rowGetIndex box.rows source = some start ∧
      subtreeEndIndex box.rows start = some stop ∧
      box'.rows = listBoxInsert (box.rows.take start ++ box.rows.drop stop)
        (((box.rows.drop start).take (stop - start)).map (rowSetParent source newParent))
        (insertIndex.bind fun i =>
          if start < i then (if stop - start ≤ i then some (i - (stop - start)) else none)
          else some i) := by
  obtain ⟨start, hstart, h⟩ := Option.bind_eq_some_iff.mp h
  obtain ⟨stop, hstop, h⟩ := Option.bind_eq_some_iff.mp h
  cases h
  exact ⟨start, stop, hstart, hstop, rfl⟩

/-- A subtree that is put back does not change the cells. -/
theorem cells_of_inPlace {box box' : TerminalSidebar} {child : ℕ} {parent insertIndex : Option ℕ}
    (h : InPlace box child parent) (hindex : insertIndex ∈ childIndex box.rows parent)
    (hmove : box.moveSubtree child parent insertIndex = some box') :
    box'.rows.map (fun r => (r.key, r.parent.isSome)) =
      box.rows.map fun r => (r.key, r.parent.isSome) := by
  obtain ⟨start, stop, hstart, hstop, hrows⟩ := exists_of_moveSubtree hmove
  obtain ⟨hlt, hle⟩ := subtreeEndIndex_bounds hstart hstop
  obtain ⟨hparent, hplace⟩ := h
  have hback := (hplace start hstart stop hstop).1 insertIndex hindex
  have hsplit : box.rows.take start ++ ((box.rows.drop start).take (stop - start) ++
      box.rows.drop stop) = box.rows := by
    have hdrop : box.rows.drop stop = (box.rows.drop start).drop (stop - start) := by
      rw [List.drop_drop, Nat.add_sub_cancel' hlt.le]
    rw [hdrop, List.take_append_drop, List.take_append_drop]
  rw [hrows, listBoxInsert_of_putBack hlt hle hback]
  conv_rhs => rw [← hsplit]
  simp only [List.map_append, List.map_map]
  congr 2
  refine List.map_congr_left fun r hr => nested_rowSetParent (hparent r ?_)
  exact List.mem_of_mem_drop (List.mem_of_mem_take hr)

/-- If the active row is not in the subtree, no copy is made on the way. -/
theorem copyOnDeselect_of_inPlace {child : ℕ} {parent : Option ℕ}
    (h : InPlace s.box child parent) (hcopy : s.copyOnDeselect child = some s') : s' = s := by
  obtain ⟨start, hstart, hcopy⟩ := Option.bind_eq_some_iff.mp hcopy
  obtain ⟨stop, hstop, hcopy⟩ := Option.bind_eq_some_iff.mp hcopy
  dsimp only at hcopy
  split at hcopy
  next active i hactive hfind =>
    rcases (h.2 start hstart stop hstop).2 with hnone | hout
    · rw [hnone] at hactive
      cases hactive
    · obtain ⟨hlt, hselected, -⟩ := List.findIdx?_eq_some_iff_getElem.mp hfind
      exact absurd (of_decide_eq_true hselected) (hout _ (List.getElem_mem hlt))
  next =>
    cases hcopy
    rfl

/-! ### Runs -/

/-- **One step that meets its condition keeps the column right.** -/
theorem mirrors_step {e : Event} (hs : Mirrors s) (he : Refreshed s e) (h : s.step e = some s') :
    Mirrors s' := by
  cases e with
  | list e =>
      cases e with
      | newShell screen positionPref => exact (recopied_newShell screen positionPref h).mirrors hs
      | closeShell screen => exact (recopied_removeScreen screen h).mirrors hs
      | drop source target => exact (recopied_dragDataReceived source target h).mirrors hs
      | setScreenParent child parent =>
          obtain ⟨⟨s', accepted⟩, hhang, rfl⟩ := Option.map_eq_some_iff.mp h
          obtain ⟨hbox, hstate, hlist⟩ := setScreenParent_cases hhang
          intro hcollapsed
          have hcollapsed' : s.state = .collapsed := hstate ▸ hcollapsed
          obtain ⟨rfl, -⟩ | ⟨rfl, haccepted, insertIndex, hindex, hmove⟩ := setScreenParent_inv hbox
          · obtain rfl : s' = s := hlist
            exact hs hcollapsed
          · have hplace := (he hcollapsed' _ rfl).resolve_left haccepted
            obtain ⟨copied, hcopied, hlist⟩ := hlist
            obtain rfl := copyOnDeselect_of_inPlace hplace hcopied
            rw [hlist, hs hcollapsed', cells_of_inPlace hplace hindex hmove]
      | reorder screen direction => exact (recopied_reorderScreen screen direction h).mirrors hs
      | select screen => exact (recopied_select screen h).mirrors hs
  | state newState =>
      have h : s.applyState newState = some s' := h
      unfold applyState at h
      split_ifs at h
      · cases h
        exact hs
      · exact mirrors_of_rebuild h
  | refresh => exact mirrors_of_rebuild h

/-- Every event of a run meets its condition, in the state in front of it. -/
def AllRefreshed (s : CollapsibleSidebar) : List Event → Prop
  | [] => True
  | e :: es => Refreshed s e ∧ ∀ s' ∈ s.step e, AllRefreshed s' es

instance (s : CollapsibleSidebar) : (events : List Event) → Decidable (AllRefreshed s events)
  | [] => inferInstanceAs (Decidable True)
  | _ :: es =>
      have : ∀ s', Decidable (AllRefreshed s' es) := fun s' => instDecidableAllRefreshed s' es
      inferInstanceAs (Decidable (_ ∧ _))

/-- What holds of a run holds of its front. -/
theorem AllRefreshed.of_append {before after : List Event}
    (h : AllRefreshed s (before ++ after)) : AllRefreshed s before := by
  induction before generalizing s with
  | nil => trivial
  | cons e es ih => exact ⟨h.1, fun s' hs' => ih (h.2 s' hs')⟩

/-- So it is after any run of such steps. -/
theorem mirrors_foldlM {events : List Event} (hs : Mirrors s) (hall : AllRefreshed s events)
    (h : events.foldlM step s = some s') : Mirrors s' := by
  induction events generalizing s with
  | nil =>
      cases h
      exact hs
  | cons e es ih =>
      rw [List.foldlM_cons] at h
      obtain ⟨next, hnext, h⟩ := Option.bind_eq_some_iff.mp h
      exact ih (mirrors_step hs hall.1 hnext) (hall.2 next hnext) h

/-- **In a run of steps that meet their conditions the column mirrors the list**, in every state
that is reached. -/
theorem run_mirrors (first : SidebarState) {before after : List Event} {reached : CollapsibleSidebar}
    (hall : AllRefreshed { state := first } (before ++ after))
    (hrun : run first before = some reached) : Mirrors reached := by
  have hempty : Mirrors { state := first } := fun _ => rfl
  exact mirrors_foldlM hempty hall.of_append hrun

/-- A family that is put together in the expanded state, and seen in the collapsed one. -/
def familySeen : List Event :=
  [.list (.newShell 0 .last), .list (.newShell 1 .last), .state .expanded,
    .list (.setScreenParent 1 (some 0)), .state .collapsed]

/-- Hanging the child once more, or the parent at the child, does no harm. -/
theorem familySeen_mirrors :
    ∃ reached, run .collapsed familySeen = some reached ∧
      reached.collapsedList = [.cell 0 false, .cell 1 true] ∧ Mirrors reached := by
  refine ⟨_, rfl, rfl, @run_mirrors .collapsed familySeen
    [.list (.setScreenParent 1 (some 0)), .list (.setScreenParent 0 (some 1))] _ ?_ rfl⟩
  decide

/-- A start into the collapsed state: two shells, and then the second is hung at the first. -/
def startedCollapsed : List Event :=
  [.list (.newShell 0 .last), .list (.newShell 1 .last), .list (.setScreenParent 1 (some 0))]

/-- The cell of the child is not nested. -/
theorem startedCollapsed_not_mirrors :
    ∃ reached, run .collapsed startedCollapsed = some reached ∧
      reached.box.rows = [⟨0, none⟩, ⟨1, some 0⟩] ∧
      reached.collapsedList = [.cell 0 false, .cell 1 false] ∧ ¬ Mirrors reached :=
  ⟨_, rfl, rfl, rfl, by decide⟩

end CollapsibleSidebar

end Axan.LinuxSidebar
