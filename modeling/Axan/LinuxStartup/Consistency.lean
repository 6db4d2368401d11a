import Axan.LinuxStartup.Keeps

/-!
# The rows and the written entries stay in step

* `Consistent` — the promise after an operation: the rows are the pre-order of the forest that was
  written, and loading it again shows them.
* `KeepsOrder` — the operations that keep it: every one but the removal of a row whose children
  would be left between rows of the same tree, and a move of more than one row from depth 128 on.
* `consistent_iff_keepsOrder` — **whole runs**.
-/

namespace Axan.LinuxStartup

open Axan.Base Axan.Base.Forest Axan.Base.Settings
open Axan.LinuxSidebar (LaunchEntry nonEmpty)

/-! ### The promise -/

/-- An entry as a line of its forest. -/
def entryLine (e : LaunchEntry) : Line Text := ⟨e.id, nonEmpty e.parentId⟩

/-- A row as a line, with the parent id it has. -/
def rowLine (r : StartupRow) : Line Text := ⟨r.id, nonEmpty r.parentId⟩

/-- What a row shows: a parent that is gone is no parent. -/
def shown (rows : List StartupRow) (r : StartupRow) : StartupRow :=
  { r with parentId := promote rows r.parentId }

/-- The rows and the value of the key belong together. -/
structure Consistent (s : Editor) : Prop where
  listBox : s.rows.map StartupRow.id = s.defaultLaunchEntries.map LaunchEntry.id
  preOrder : PreOrder (s.defaultLaunchEntries.map entryLine)
  earlier : ∀ X e Z, s.defaultLaunchEntries = X ++ e :: Z → e.parentId ≠ [] →
    e.parentId ∈ X.map LaunchEntry.id
  reload : ∀ uuid, startupLoadEntries uuid s.defaultLaunchEntries =
    some ⟨s.rows.map (shown s.rows), s.defaultLaunchEntries⟩

/-- Add and remove change the number of entries by one, the others do not. -/
def Counted (s : Editor) (op : Operation) (s' : Editor) : Prop :=
  match op with
  | .add _ => s'.defaultLaunchEntries.length = s.defaultLaunchEntries.length + 1
  | .remove _ => s'.defaultLaunchEntries.length + 1 = s.defaultLaunchEntries.length
  | _ => s'.defaultLaunchEntries.length = s.defaultLaunchEntries.length

/-- The operation does what it should. -/
def Promised (s : Editor) (op : Operation) : Prop :=
  ∃ s', s.step op = some s' ∧ Consistent s' ∧ Counted s op s'

/-- Every combo box has an active item. -/
def Chosen (rows : List StartupRow) : Prop :=
  ∀ r ∈ rows, r.colorCombo.isSome ∧ r.targetCombo.isSome

/-- A button belongs to a row, and a new id is new. -/
def Possible (s : Editor) : Operation → Prop
  | .add newId => newId ≠ [] ∧ newId ∉ s.rows.map StartupRow.id ∧
      ∀ r ∈ s.rows, r.parentId ≠ newId
  | .remove id | .indent id | .outdent id | .move id _ | .edit id _ => id ∈ s.rows.map StartupRow.id

/-- Something holds at every operation of a run. -/
def Along (P : Editor → Operation → Prop) : Editor → List Operation → Prop
  | _, [] => True
  | s, op :: ops => P s op ∧ ∀ s', s.step op = some s' → Along P s' ops

/-! ### The condition -/

/-- The row whose subtree a move takes along: the row itself, or the next sibling. -/
def movedRow (rows : List StartupRow) (id : Text) (direction : MoveDirection) : Option StartupRow := do
  let idx ← rowIndex rows id
  let row ← rows[idx]?
  match direction with
  | .up => (startupFindSiblingIndex rows idx .up row.parentId).map fun _ => row
  | .down =>
      (startupFindSiblingIndex rows (startupSubtreeEnd rows idx - 1) .down row.parentId).bind
        (rows[·]?)

/-- A removed row has no children, or no row behind it hangs at a row in front of it. A subtree that
moves starts above depth 128, or is one row. -/
def KeepsOrder (s : Editor) : Operation → Prop
  | .remove id => Leaf s.rows id ∨ ∀ idx ∈ rowIndex s.rows id, ∀ r ∈ s.rows.drop (idx + 1),
      r.parentId ∉ (s.rows.take idx).map StartupRow.id
  | .move id direction => ∀ row ∈ movedRow s.rows id direction,
      startupRowDepth s.rows row < 128 ∨ Leaf s.rows row.id
  | _ => True

/-! ### Saving and loading -/

section Saving

variable {rows : List StartupRow}

/-- The entry of a row. -/
def entryOf (rows : List StartupRow) (r : StartupRow) : LaunchEntry where
  id := r.id
  parentId := promote rows r.parentId
  name := r.nameEntry
  directory := r.dirEntry
  command := r.cmdEntry
  icon := r.icon
  color := (r.colorCombo.map StartupColor.id).getD []
  colorTarget := (r.targetCombo.map StartupColorTarget.id).getD []

/-- Rows with ids are written row by row. -/
theorem startupSaveEntries_eq (hne : ∀ r ∈ rows, r.id ≠ []) :
    startupSaveEntries rows = rows.map (entryOf rows) := by
  rw [startupSaveEntries, List.filter_eq_self.mpr]
  · rfl
  · intro r hr
    simpa using hne r hr

/-- The lines that are written are those of the tree. -/
theorem map_entryLine (hne : ∀ r ∈ rows, r.id ≠ []) :
    (startupSaveEntries rows).map entryLine = treeLines rows := by
  rw [startupSaveEntries_eq hne, List.map_map, treeLines]
  apply List.map_congr_left
  intro r _
  have hparent : nonEmpty (promote rows r.parentId) = treeParent (rows.map StartupRow.id) r := by
    cases hparent : treeParent (rows.map StartupRow.id) r with
    | none => rw [(promote_eq_nil_iff hne r).mpr hparent]; rfl
    | some p =>
        have hp : p ≠ [] := by
          obtain ⟨r', hr', rfl⟩ := List.mem_map.mp (treeParent_eq_some_iff.mp hparent).2
          exact hne r' hr'
        rw [(promote_eq_iff hne r hp).mpr hparent, nonEmpty, if_neg (by simpa using hp)]
  exact congrArg (Line.mk r.id) hparent

/-- A colour is found by its id. -/
theorem StartupColor.find?_id (c : StartupColor) :
    StartupColor.all.find? (fun c' => c'.id = c.id) = some c := by
  cases c <;> rfl

theorem StartupColorTarget.find?_id (t : StartupColorTarget) :
    StartupColorTarget.all.find? (fun t' => t'.id = t.id) = some t := by
  cases t <;> rfl

/-- A written row comes back as it was shown. -/
theorem startupCreateRow_entryOf {r : StartupRow} (hcolor : r.colorCombo.isSome)
    (htarget : r.targetCombo.isSome) : startupCreateRow (entryOf rows r) = shown rows r := by
  obtain ⟨c, hc⟩ := Option.isSome_iff_exists.mp hcolor
  obtain ⟨t, ht⟩ := Option.isSome_iff_exists.mp htarget
  have hactive : (if t.id.isEmpty then "both".toList else t.id) = t.id := by cases t <;> rfl
  have hcolor' : (startupCreateRow (entryOf rows r)).colorCombo = r.colorCombo := by
    rw [hc, startupCreateRow, entryOf, hc]
    exact StartupColor.find?_id c
  have htarget' : (startupCreateRow (entryOf rows r)).targetCombo = r.targetCombo := by
    rw [ht, startupCreateRow, entryOf, ht]
    simp only [Option.map_some, Option.getD_some, hactive]
    exact StartupColorTarget.find?_id t
  rw [shown]
  cases r
  simp only at hcolor' htarget'
  rw [startupCreateRow] at hcolor' htarget' ⊢
  simp only at hcolor' htarget'
  rw [StartupRow.mk.injEq]
  exact ⟨rfl, rfl, rfl, rfl, rfl, rfl, hcolor', htarget'⟩

/-- What is shown of a row has the row's parent. -/
theorem promote_promote (hne : ∀ r ∈ rows, r.id ≠ []) (r : StartupRow) :
    treeParent (rows.map StartupRow.id) (shown rows r) =
      treeParent (rows.map StartupRow.id) r := by
  cases hparent : treeParent (rows.map StartupRow.id) r with
  | none =>
      have hnil : (shown rows r).parentId = [] := (promote_eq_nil_iff hne r).mpr hparent
      rw [treeParent_eq_none_iff, hnil]
      intro hmem
      obtain ⟨r', hr', hid⟩ := List.mem_map.mp hmem
      exact hne r' hr' hid
  | some p =>
      obtain ⟨-, hmem⟩ := treeParent_eq_some_iff.mp hparent
      have hp : p ≠ [] := by
        obtain ⟨r', hr', rfl⟩ := List.mem_map.mp hmem
        exact hne r' hr'
      exact treeParent_eq_some_iff.mpr ⟨(promote_eq_iff hne r hp).mpr hparent, hmem⟩

/-- The rows with the parents they show. -/
theorem tree_shown (h : Tree rows) : Tree (rows.map (shown rows)) := by
  have hids : (rows.map (shown rows)).map StartupRow.id = rows.map StartupRow.id := by
    rw [List.map_map]
    rfl
  constructor
  · intro r hr
    obtain ⟨r', hr', rfl⟩ := List.mem_map.mp hr
    exact h.nonempty r' hr'
  · have hlines : treeLines (rows.map (shown rows)) = treeLines rows := by
      rw [treeLines, hids, List.map_map]
      apply List.map_congr_left
      intro r _
      exact congrArg (Line.mk r.id) (promote_promote h.nonempty r)
    rw [hlines]
    exact h.preOrder

/-- **Loading what was written shows the rows again.** -/
theorem startupLoadEntries_eq (h : Tree rows) (hchosen : Chosen rows) (uuid : ℕ → Text) :
    startupLoadEntries uuid (startupSaveEntries rows) =
      some ⟨rows.map (shown rows), startupSaveEntries rows⟩ := by
  have hloaded : (startupSaveEntries rows).mapIdx (fun i e =>
      startupCreateRow { e with id := if e.id.isEmpty then uuid i else e.id }) =
      rows.map (shown rows) := by
    rw [startupSaveEntries_eq h.nonempty]
    apply List.ext_getElem?
    intro i
    rw [List.getElem?_mapIdx, List.getElem?_map, List.getElem?_map, Option.map_map]
    cases hr : rows[i]? with
    | none => rfl
    | some r =>
        have hmem := List.mem_of_getElem? hr
        have hid : (entryOf rows r).id.isEmpty = false := by simpa [entryOf] using h.nonempty r hmem
        rw [Option.map_some, Option.map_some, Function.comp_apply, hid,
          ← startupCreateRow_entryOf (hchosen r hmem).1 (hchosen r hmem).2]
        rfl
  rw [startupLoadEntries]
  simp only
  rw [hloaded, startupReorderToPreOrder, desiredOrder_of_tree (tree_shown h)]
  simp

end Saving

/-! ### The invariant -/

/-- The rows are a tree and were written. -/
structure Inv (s : Editor) : Prop where
  tree : Tree s.rows
  chosen : Chosen s.rows
  written : s.defaultLaunchEntries = startupSaveEntries s.rows

/-- The invariant implies the promise. -/
theorem Inv.consistent {s : Editor} (h : Inv s) : Consistent s := by
  have hlines := map_entryLine h.tree.nonempty
  constructor
  · rw [h.written, startupSaveEntries_eq h.tree.nonempty, List.map_map]
    rfl
  · rw [h.written, hlines]
    exact h.tree.preOrder
  · intro X e Z hsplit hparent
    have hpre := h.tree.preOrder
    rw [← hlines, ← h.written, hsplit, List.map_append, List.map_cons] at hpre
    have hsome : (entryLine e).parent = some e.parentId := if_neg (by simpa using hparent)
    have hmem := hpre.parent_front hsome
    rw [List.map_map] at hmem
    exact hmem
  · intro uuid
    rw [h.written]
    exact startupLoadEntries_eq h.tree h.chosen uuid

/-- The rows of a consistent editor whose rows were written are a tree. -/
theorem tree_of_consistent {rows : List StartupRow} (hne : ∀ r ∈ rows, r.id ≠ [])
    (h : Consistent ⟨rows, startupSaveEntries rows⟩) : Tree rows := by
  refine ⟨hne, ?_⟩
  rw [← map_entryLine hne]
  exact h.preOrder

/-- One entry for each row. -/
theorem length_startupSaveEntries {rows : List StartupRow} (hne : ∀ r ∈ rows, r.id ≠ []) :
    (startupSaveEntries rows).length = rows.length := by
  rw [startupSaveEntries_eq hne, List.length_map]

/-- Rows with the same ids are not empty. -/
theorem nonempty_of_perm {rows rows' : List StartupRow} (hne : ∀ r ∈ rows, r.id ≠ [])
    (hids : (rows'.map StartupRow.id).Perm (rows.map StartupRow.id)) : ∀ r ∈ rows', r.id ≠ [] := by
  intro r hr heq
  obtain ⟨r', hr', hid⟩ := List.mem_map.mp (hids.mem_iff.mp (List.mem_map_of_mem hr))
  exact hne r' hr' (hid.trans heq)

/-- What is chosen does not depend on the order. -/
theorem Chosen.perm {rows rows' : List StartupRow} (h : Chosen rows) (hperm : rows'.Perm rows) :
    Chosen rows' := fun r hr => h r (hperm.mem_iff.mp hr)

theorem Chosen.setParentId {rows : List StartupRow} (h : Chosen rows) (id parentId : Text) :
    Chosen (setParentId rows id parentId) := by
  intro r hr
  obtain ⟨r', hr', rfl⟩ := List.mem_map.mp hr
  have hchosen := h r' hr'
  split
  · exact hchosen
  · exact hchosen

/-! ### One operation -/

section Step

variable {s : Editor} {RA RZ : List StartupRow} {row : StartupRow}

/-- A row is found at its index. -/
theorem rowIndex_eq (h : Tree s.rows) (hrows : s.rows = RA ++ row :: RZ) :
    rowIndex s.rows row.id = some RA.length := by
  have hnodup := h.nodup
  rw [hrows, List.map_append, List.nodup_append] at hnodup
  rw [rowIndex, hrows, List.findIdx?_eq_some_iff_getElem]
  refine ⟨by simp, by simp, fun j hj => ?_⟩
  rw [List.getElem_append_left hj]
  have hne := hnodup.2.2 _ (List.mem_map_of_mem (List.getElem_mem hj)) row.id (by simp)
  simpa using hne

/-- An operation on a row. -/
theorem onRow_eq (h : Tree s.rows) (hrows : s.rows = RA ++ row :: RZ)
    (f : ℕ → StartupRow → Option Editor) : s.onRow row.id f = f RA.length row := by
  have hget : s.rows[RA.length]? = some row := by
    rw [hrows]
    exact getElem?_split RA RZ row
  rw [Editor.onRow, rowIndex_eq h hrows]
  simp only [hget]

/-- What one operation does: it keeps the invariant under the condition, and only then. -/
def Spec (s : Editor) (op : Operation) : Prop :=
  ∃ s', s.step op = some s' ∧ Counted s op s' ∧ (KeepsOrder s op → Inv s') ∧
    (Consistent s' → KeepsOrder s op)

/-- There are as many entries as rows. -/
theorem Inv.length_eq (h : Inv s) : s.defaultLaunchEntries.length = s.rows.length := by
  rw [h.written, length_startupSaveEntries h.tree.nonempty]

/-- A new row behind the others. -/
theorem spec_add (h : Inv s) {newId : Text} (hne : newId ≠ [])
    (hid : newId ∉ s.rows.map StartupRow.id) (hparent : ∀ r ∈ s.rows, r.parentId ≠ newId) :
    Spec s (.add newId) := by
  let r := startupCreateRow { id := newId }
  have htree : Tree (s.rows ++ [r]) := tree_add h.tree hne rfl hid hparent
  have hchosen : Chosen (s.rows ++ [r]) := by
    intro r' hr'
    rcases List.mem_append.mp hr' with hr' | hr'
    · exact h.chosen r' hr'
    · obtain rfl := List.mem_singleton.mp hr'
      exact ⟨rfl, rfl⟩
  refine ⟨s.startupAdd newId, rfl, ?_, fun _ => ⟨htree, hchosen, rfl⟩, fun _ => trivial⟩
  have hlen : (startupSaveEntries (s.rows ++ [r])).length = (s.rows ++ [r]).length :=
    length_startupSaveEntries htree.nonempty
  rw [List.length_append, List.length_singleton, ← h.length_eq] at hlen
  exact hlen

/-- A row that goes, with its children promoted. -/
theorem spec_remove (h : Inv s) (hrows : s.rows = RA ++ row :: RZ) : Spec s (.remove row.id) := by
  obtain ⟨RB, RC, O, A, up, B, C, rfl, hp⟩ := h.tree.exists_placed hrows
  have herase : s.rows.eraseIdx RA.length = RA ++ (RB ++ RC) := by
    rw [hrows, List.eraseIdx_append_of_length_le le_rfl, Nat.sub_self]
    rfl
  have hkeeps : KeepsOrder s (.remove row.id) ↔ Tree (RA ++ (RB ++ RC)) := by
    have hdrop : s.rows.drop (RA.length + 1) = RB ++ RC := by
      rw [hrows]
      exact drop_split RA (RB ++ RC) row
    have htake : s.rows.take RA.length = RA := by
      rw [hrows, List.take_left]
    rw [tree_remove_iff hp h.tree, KeepsOrder, rowIndex_eq h.tree hrows]
    simp only [Option.mem_def, Option.some.injEq, forall_eq', hdrop, htake]
  have hmem : ∀ r ∈ RA ++ (RB ++ RC), r ∈ s.rows := by
    intro r hr
    rw [hrows]
    simp only [List.mem_append, List.mem_cons] at hr ⊢
    tauto
  have hne : ∀ r ∈ RA ++ (RB ++ RC), r.id ≠ [] := fun r hr => h.tree.nonempty r (hmem r hr)
  have hremove : s.startupRemove RA.length =
      ⟨RA ++ (RB ++ RC), startupSaveEntries (RA ++ (RB ++ RC))⟩ := by
    rw [Editor.startupRemove, herase]
    rfl
  refine ⟨⟨RA ++ (RB ++ RC), startupSaveEntries (RA ++ (RB ++ RC))⟩, ?_, ?_, ?_, ?_⟩
  · rw [Editor.step, onRow_eq h.tree hrows, hremove]
  · have hlen : (startupSaveEntries (RA ++ (RB ++ RC))).length + 1 =
        s.defaultLaunchEntries.length := by
      rw [length_startupSaveEntries hne, h.length_eq, hrows]
      simp only [List.length_append, List.length_cons]
      omega
    exact hlen
  · intro hcond
    exact ⟨hkeeps.mp hcond, fun r hr => h.chosen r (hmem r hr), rfl⟩
  · exact fun hcons => hkeeps.mpr (tree_of_consistent hne hcons)

/-- An operation without effect. -/
theorem spec_of_eq (h : Inv s) {op : Operation} (hstep : s.step op = some s)
    (hcount : Counted s op s) (hkeeps : KeepsOrder s op) : Spec s op :=
  ⟨s, hstep, hcount, fun _ => h, fun _ => hkeeps⟩

/-- New rows that are written. -/
theorem spec_of_rows (h : Inv s) {op : Operation} (rows' : List StartupRow)
    (hstep : s.step op = some ⟨rows', startupSaveEntries rows'⟩)
    (hcount : ∀ s' : Editor, s'.defaultLaunchEntries.length = s.defaultLaunchEntries.length →
      Counted s op s')
    (hids : (rows'.map StartupRow.id).Perm (s.rows.map StartupRow.id)) (hchosen : Chosen rows')
    (hkeeps : KeepsOrder s op ↔ Tree rows') : Spec s op := by
  have hne := nonempty_of_perm h.tree.nonempty hids
  refine ⟨_, hstep, hcount _ ?_, fun hcond => ⟨hkeeps.mp hcond, hchosen, rfl⟩, fun hcons =>
    hkeeps.mpr (tree_of_consistent hne hcons)⟩
  have hlen := hids.length_eq
  simp only [List.length_map] at hlen
  simp only [length_startupSaveEntries hne, h.length_eq, hlen]

/-- A new parent, and rows in order. -/
theorem reparent_eq {id parentId : Text} {rows' : List StartupRow}
    (hdesired : desiredOrder (setParentId s.rows id parentId) = some rows') :
    s.reparent id parentId = some ⟨rows', startupSaveEntries rows'⟩ := by
  rw [Editor.reparent, startupReorderToPreOrder, hdesired]
  rfl

/-- Below the row above it a row stays where it is, and so do the others. -/
theorem step_indent {prev : StartupRow} (h : Tree s.rows) (hrows : s.rows = RA ++ prev :: row :: RZ) :
    Tree (setParentId s.rows row.id prev.id) ∧ s.step (.indent row.id) =
      some ⟨setParentId s.rows row.id prev.id,
        startupSaveEntries (setParentId s.rows row.id prev.id)⟩ := by
  have hsplit : s.rows = (RA ++ [prev]) ++ row :: RZ := by
    rw [hrows]
    simp
  obtain ⟨RB, RC, O, A, up, B, C, rfl, hp⟩ := h.exists_placed hsplit
  have htree := tree_indent hp h rfl
  have hprev : s.rows[RA.length]? = some prev := by
    rw [hrows]
    exact getElem?_split RA _ prev
  refine ⟨htree, ?_⟩
  rw [Editor.step, onRow_eq h hsplit, List.length_append, List.length_singleton,
    Editor.startupIndent]
  simp only [hprev]
  exact reparent_eq (desiredOrder_of_tree htree)

/-- A row that becomes a child of the sibling in front. -/
theorem spec_indent (h : Inv s) (hrows : s.rows = RA ++ row :: RZ) : Spec s (.indent row.id) := by
  rcases List.eq_nil_or_concat RA with rfl | ⟨RA', prev, hRA⟩
  · refine spec_of_eq h ?_ rfl trivial
    rw [Editor.step, onRow_eq h.tree hrows]
    rfl
  · have hsplit : s.rows = RA' ++ prev :: row :: RZ := by
      rw [hrows, hRA]
      simp
    obtain ⟨htree, hstep⟩ := step_indent h.tree hsplit
    refine spec_of_rows h (setParentId s.rows row.id prev.id) hstep (fun _ hlen => hlen) ?_
      (h.chosen.setParentId _ _) ⟨fun _ => htree, fun _ => trivial⟩
    rw [map_id_setParentId]

/-- The row gets its grandparent, which is the parent id of the row that its own names. -/
theorem step_outdent (h : Tree s.rows) (hrows : s.rows = RA ++ row :: RZ) (hroot : row.parentId ≠ [])
    {grandparentId : Text} {rows' : List StartupRow}
    (hgrand : ((startupBuildIdMap s.rows row.parentId).map StartupRow.parentId).getD [] =
      grandparentId) (hdesired : desiredOrder (setParentId s.rows row.id grandparentId) = some rows') :
    s.step (.outdent row.id) = some ⟨rows', startupSaveEntries rows'⟩ := by
  rw [Editor.step, onRow_eq h hrows, Editor.startupOutdent, if_neg (by simpa using hroot)]
  simp only [hgrand]
  exact reparent_eq hdesired

/-- The parent of the parent. -/
theorem getD_parentId_of_mem (h : Tree s.rows) {parent : StartupRow} (hmem : parent ∈ s.rows) :
    ((startupBuildIdMap s.rows parent.id).map StartupRow.parentId).getD [] = parent.parentId := by
  rw [startupBuildIdMap_of_mem h hmem]
  rfl

/-- A row that becomes a sibling of its parent. -/
theorem spec_outdent (h : Inv s) (hrows : s.rows = RA ++ row :: RZ) : Spec s (.outdent row.id) := by
  obtain ⟨RB, RC, O, A, up, B, C, rfl, hp⟩ := h.tree.exists_placed hrows
  by_cases hroot : row.parentId = []
  · refine spec_of_eq h ?_ rfl trivial
    rw [Editor.step, onRow_eq h.tree hrows, Editor.startupOutdent, hroot]
    rfl
  · by_cases hmem : row.parentId ∈ s.rows.map StartupRow.id
    · obtain ⟨parent, hparent, hid⟩ := List.mem_map.mp hmem
      obtain ⟨rows', hdesired, htree, hperm⟩ := tree_outdent hp h.tree hparent hid.symm
      have hgrand := getD_parentId_of_mem h.tree hparent
      rw [hid] at hgrand
      refine spec_of_rows h rows' (step_outdent h.tree hrows hroot hgrand hdesired)
        (fun _ hlen => hlen) ?_ ((h.chosen.setParentId _ _).perm hperm)
        ⟨fun _ => htree, fun _ => trivial⟩
      rw [← map_id_setParentId s.rows row.id parent.parentId]
      exact hperm.map _
    · have htree := tree_setParentId_nil hp h.tree hmem
      refine spec_of_rows h (setParentId s.rows row.id []) ?_ (fun _ hlen => hlen) ?_
        (h.chosen.setParentId _ _) ⟨fun _ => htree, fun _ => trivial⟩
      · refine step_outdent h.tree hrows hroot ?_ (desiredOrder_of_tree htree)
        rw [startupBuildIdMap_eq_none hmem]
        rfl
      · rw [map_id_setParentId]

/-- A row with another text. -/
theorem spec_edit (h : Inv s) (hrows : s.rows = RA ++ row :: RZ) (field : FieldEdit) :
    Spec s (.edit row.id field) := by
  have hid : (editField row field).id = row.id := by cases field <;> rfl
  have hparent : (editField row field).parentId = row.parentId := by cases field <;> rfl
  have hset : s.rows.set RA.length (editField row field) = RA ++ editField row field :: RZ := by
    rw [hrows, List.set_append_right _ _ le_rfl, Nat.sub_self]
    rfl
  have hids : (RA ++ editField row field :: RZ).map StartupRow.id = s.rows.map StartupRow.id := by
    rw [hrows]
    simp [hid]
  have htree : Tree (RA ++ editField row field :: RZ) := by
    refine ⟨nonempty_of_perm h.tree.nonempty (hids ▸ List.Perm.refl _), ?_⟩
    have hlines : treeLines (RA ++ editField row field :: RZ) = treeLines s.rows := by
      rw [treeLines, hids, treeLines]
      nth_rewrite 3 [hrows]
      rw [List.map_append, List.map_cons, List.map_append, List.map_cons, treeLine, hid, treeParent,
        hparent]
      rfl
    rw [hlines]
    exact h.tree.preOrder
  have hchosen : Chosen (RA ++ editField row field :: RZ) := by
    intro r hr
    rcases List.mem_append.mp hr with hr | hr
    · exact h.chosen r (by rw [hrows]; exact List.mem_append_left _ hr)
    · rcases List.mem_cons.mp hr with rfl | hr
      · have hrow := h.chosen row (by rw [hrows]; simp)
        cases field with
        | color c => exact ⟨rfl, hrow.2⟩
        | colorTarget t => exact ⟨hrow.1, rfl⟩
        | _ => exact hrow
      · exact h.chosen r (by rw [hrows]; simp [hr])
  refine spec_of_rows h (RA ++ editField row field :: RZ) ?_ (fun _ hlen => hlen)
    (hids ▸ List.Perm.refl _) hchosen ⟨fun _ => htree, fun _ => trivial⟩
  rw [Editor.step, onRow_eq h.tree hrows, hset]
  rfl

/-! ### Moves -/

/-- The sibling in front of a row. -/
theorem siblingBefore_eq_some {rows : List StartupRow} {parentId : Text} {i j : ℕ}
    (hi : i ≤ rows.length) (h : siblingBefore rows parentId i = some j) :
    ∃ X sibling D, rows.take i = X ++ sibling :: D ∧ X.length = j ∧ sibling.parentId = parentId := by
  induction i with
  | zero => cases h
  | succ i ih =>
      have hlt : i < rows.length := hi
      have htake : rows.take (i + 1) = rows.take i ++ [rows[i]] := (List.take_append_getElem hlt).symm
      rw [siblingBefore, List.getElem?_eq_getElem hlt] at h
      simp only at h
      split_ifs at h with hsame
      · obtain rfl := Option.some.inj h
        refine ⟨rows.take i, rows[i], [], htake, ?_, hsame⟩
        rw [List.length_take]
        omega
      · obtain ⟨X, sibling, D, hX, hj, hparent⟩ := ih hlt.le h
        exact ⟨X, sibling, D ++ [rows[i]], by rw [htake, hX]; simp, hj, hparent⟩

/-- The next row with the parent id, from an index on. -/
theorem siblingAfter_eq_some {rows : List StartupRow} {parentId : Text} {e n : ℕ}
    (h : ((rows.drop e).findIdx? fun r => r.parentId = parentId).map (e + ·) = some n) :
    ∃ next, rows[n]? = some next ∧ e ≤ n ∧ next.parentId = parentId := by
  obtain ⟨m, hm, rfl⟩ := Option.map_eq_some_iff.mp h
  obtain ⟨hlt, hparent, -⟩ := List.findIdx?_eq_some_iff_getElem.mp hm
  refine ⟨(rows.drop e)[m], ?_, Nat.le_add_right e m, by simpa using hparent⟩
  rw [← List.getElem?_drop, List.getElem?_eq_getElem hlt]

/-- The subtree of `row` goes in front of its sibling. -/
theorem spec_moveRange (h : Inv s) {op : Operation} {RX RD : List StartupRow} {sibling : StartupRow}
    (hrows : s.rows = RA ++ row :: RZ) (hRA : RA = RX ++ sibling :: RD)
    (hparent : sibling.parentId = row.parentId)
    (hstep : s.step op = some { s with
      rows := moveRange s.rows RA.length (startupSubtreeEnd s.rows RA.length) RX.length }.save)
    (hcount : ∀ s' : Editor, s'.defaultLaunchEntries.length = s.defaultLaunchEntries.length →
      Counted s op s')
    (hkeeps : KeepsOrder s op ↔ startupRowDepth s.rows row < 128 ∨ Leaf s.rows row.id) :
    Spec s op := by
  obtain ⟨RB, RC, O, A, up, B, C, rfl, hp⟩ := h.tree.exists_placed hrows
  obtain ⟨hperm, hiff⟩ := tree_moveRange_iff hp h.tree hRA hparent
  exact spec_of_rows h _ hstep hcount (hperm.map _) (h.chosen.perm hperm) (hkeeps.trans hiff.symm)

/-- A row that changes places with the sibling in front. -/
theorem spec_move_up (h : Inv s) (hrows : s.rows = RA ++ row :: RZ) : Spec s (.move row.id .up) := by
  have hget : s.rows[RA.length]? = some row := by
    rw [hrows]
    exact getElem?_split RA RZ row
  have hle : RA.length ≤ s.rows.length := by
    rw [hrows, List.length_append]
    omega
  have htake : s.rows.take RA.length = RA := by
    rw [hrows, List.take_left]
  have hmoved : movedRow s.rows row.id .up =
      (siblingBefore s.rows row.parentId RA.length).map fun _ => row := by
    rw [movedRow, rowIndex_eq h.tree hrows]
    simp only [Option.bind_eq_bind, Option.bind_some, hget, startupFindSiblingIndex]
  cases hsibling : siblingBefore s.rows row.parentId RA.length with
  | none =>
      refine spec_of_eq h ?_ rfl ?_
      · rw [Editor.step, onRow_eq h.tree hrows, startupMoveRow]
        simp only [startupFindSiblingIndex, hsibling, Option.map_none]
      · rw [KeepsOrder, hmoved, hsibling]
        simp
  | some j =>
      obtain ⟨RX, sibling, RD, hRA, rfl, hparent⟩ := siblingBefore_eq_some hle hsibling
      rw [htake] at hRA
      refine spec_moveRange h hrows hRA hparent ?_ (fun _ hlen => hlen) ?_
      · rw [Editor.step, onRow_eq h.tree hrows, startupMoveRow]
        simp only [startupFindSiblingIndex, hsibling, Option.map_some]
      · rw [KeepsOrder, hmoved, hsibling]
        simp

theorem spec_move_down (h : Inv s) (hrows : s.rows = RA ++ row :: RZ) :
    Spec s (.move row.id .down) := by
  have hget : s.rows[RA.length]? = some row := by
    rw [hrows]
    exact getElem?_split RA RZ row
  obtain ⟨RB, RC, O, A, up, B, C, rfl, hp⟩ := h.tree.exists_placed hrows
  have hend : RA.length + 1 ≤ startupSubtreeEnd s.rows RA.length := by
    rw [startupSubtreeEnd_eq hp h.tree]
    omega
  have hfrom : startupSubtreeEnd s.rows RA.length - 1 + 1 = startupSubtreeEnd s.rows RA.length := by
    omega
  have hfind : startupFindSiblingIndex s.rows (startupSubtreeEnd s.rows RA.length - 1) .down
      row.parentId = ((s.rows.drop (startupSubtreeEnd s.rows RA.length)).findIdx?
        fun r => r.parentId = row.parentId).map (startupSubtreeEnd s.rows RA.length + ·) := by
    rw [startupFindSiblingIndex, hfrom]
  have hmoved : movedRow s.rows row.id .down = (startupFindSiblingIndex s.rows
      (startupSubtreeEnd s.rows RA.length - 1) .down row.parentId).bind (s.rows[·]?) := by
    rw [movedRow, rowIndex_eq h.tree hrows]
    simp only [Option.bind_eq_bind, Option.bind_some, hget]
  cases hsibling : startupFindSiblingIndex s.rows (startupSubtreeEnd s.rows RA.length - 1) .down
      row.parentId with
  | none =>
      refine spec_of_eq h ?_ rfl ?_
      · rw [Editor.step, onRow_eq h.tree hrows, startupMoveRow]
        simp only [hsibling, Option.map_none]
      · rw [KeepsOrder, hmoved, hsibling]
        simp
  | some n =>
      obtain ⟨next, hnext, hle, hparent⟩ := siblingAfter_eq_some (hfind.symm.trans hsibling)
      -- the rows in front of the next sibling start with this row
      obtain ⟨hlt, hnext'⟩ := List.getElem?_eq_some_iff.mp hnext
      obtain ⟨Y, Z, hsplit, hY⟩ : ∃ Y Z, s.rows = Y ++ next :: Z ∧ Y.length = n := by
        refine ⟨s.rows.take n, s.rows.drop (n + 1), ?_, ?_⟩
        · rw [← hnext', ← List.drop_eq_getElem_cons hlt, List.take_append_drop]
        · rw [List.length_take]
          omega
      obtain ⟨RD, hRD⟩ : ∃ RD, Y = RA ++ row :: RD := by
        have hlen : (RA ++ [row]).length ≤ Y.length := by
          rw [List.length_append, List.length_singleton]
          omega
        have hsame : RA ++ [row] ++ (RB ++ RC) = Y ++ next :: Z := by
          rw [← hsplit, hrows]
          simp
        obtain ⟨RD, hRD⟩ := List.prefix_of_prefix_length_le ⟨RB ++ RC, hsame⟩
          (List.prefix_append Y _) hlen
        exact ⟨RD, by rw [← hRD]; simp⟩
      subst hY
      refine spec_moveRange h hsplit hRD hparent.symm ?_ (fun _ hlen => hlen) ?_
      · rw [Editor.step, onRow_eq h.tree hrows, startupMoveRow]
        simp only [hsibling, Option.map_some]
      · rw [KeepsOrder, hmoved, hsibling]
        simp only [Option.bind_some, hnext, Option.mem_def, Option.some.injEq, forall_eq']

/-- **One operation.** -/
theorem step_spec (h : Inv s) {op : Operation} (hpossible : Possible s op) : Spec s op := by
  have hsplit {id : Text} (hid : id ∈ s.rows.map StartupRow.id) :
      ∃ RA row RZ, s.rows = RA ++ row :: RZ ∧ row.id = id := by
    obtain ⟨row, hrow, rfl⟩ := List.mem_map.mp hid
    obtain ⟨RA, RZ, hrows⟩ := List.append_of_mem hrow
    exact ⟨RA, row, RZ, hrows, rfl⟩
  cases op with
  | add newId => exact spec_add h hpossible.1 hpossible.2.1 hpossible.2.2
  | remove id =>
      obtain ⟨RA, row, RZ, hrows, rfl⟩ := hsplit hpossible
      exact spec_remove h hrows
  | indent id =>
      obtain ⟨RA, row, RZ, hrows, rfl⟩ := hsplit hpossible
      exact spec_indent h hrows
  | outdent id =>
      obtain ⟨RA, row, RZ, hrows, rfl⟩ := hsplit hpossible
      exact spec_outdent h hrows
  | move id direction =>
      obtain ⟨RA, row, RZ, hrows, rfl⟩ := hsplit hpossible
      cases direction with
      | up => exact spec_move_up h hrows
      | down => exact spec_move_down h hrows
  | edit id field =>
      obtain ⟨RA, row, RZ, hrows, rfl⟩ := hsplit hpossible
      exact spec_edit h hrows field

end Step

/-! ### Whole runs -/

/-- The editor with these rows, which are written. -/
def Editor.start (rows : List StartupRow) : Editor := ⟨rows, startupSaveEntries rows⟩

/-- With parents that are there, a row hangs at the parent it names. -/
theorem treeLines_eq {rows : List StartupRow} (hne : ∀ r ∈ rows, r.id ≠ [])
    (h : PreOrder (rows.map rowLine)) : treeLines rows = rows.map rowLine := by
  apply List.map_congr_left
  intro r hr
  refine congrArg (Line.mk r.id) ?_
  by_cases hroot : r.parentId = []
  · rw [hroot, treeParent_eq_none_iff.mpr]
    · rfl
    · rw [hroot]
      intro hmem
      obtain ⟨r', hr', hid⟩ := List.mem_map.mp hmem
      exact hne r' hr' hid
  · have hsome : nonEmpty r.parentId = some r.parentId := if_neg (by simpa using hroot)
    have hmem := h.parent_mem (List.mem_map_of_mem hr) hsome
    rw [List.map_map] at hmem
    rw [hsome]
    exact treeParent_eq_some_iff.mpr ⟨rfl, hmem⟩

/-- From a state with the invariant, the runs that keep the promise are those whose steps keep the
order. -/
theorem promised_iff_keepsOrder_of_inv {s : Editor} (h : Inv s) {ops : List Operation}
    (hpossible : Along Possible s ops) : Along Promised s ops ↔ Along KeepsOrder s ops := by
  induction ops generalizing s with
  | nil => exact Iff.rfl
  | cons op ops ih =>
      obtain ⟨s', hstep, hcount, hkeeps, hcons⟩ := step_spec h hpossible.1
      constructor
      · rintro ⟨⟨s'', hstep', hpromised, -⟩, hrest⟩
        obtain rfl := Option.some.inj (hstep.symm.trans hstep')
        have hcond := hcons hpromised
        refine ⟨hcond, fun t ht => ?_⟩
        obtain rfl := Option.some.inj (hstep.symm.trans ht)
        exact (ih (hkeeps hcond) (hpossible.2 _ hstep)).mp (hrest _ hstep)
      · rintro ⟨hcond, hrest⟩
        refine ⟨⟨s', hstep, (hkeeps hcond).consistent, hcount⟩, fun t ht => ?_⟩
        obtain rfl := Option.some.inj (hstep.symm.trans ht)
        exact (ih (hkeeps hcond) (hpossible.2 _ hstep)).mpr (hrest _ hstep)

/-- **From rows in pre-order whose pickers show what is offered, every operation of a run keeps the
rows and the written entries in step exactly when every operation meets the condition.** -/
theorem consistent_iff_keepsOrder {rows : List StartupRow} (hne : ∀ r ∈ rows, r.id ≠ [])
    (hpre : PreOrder (rows.map rowLine)) (hchosen : Chosen rows) {ops : List Operation}
    (hpossible : Along Possible (Editor.start rows) ops) :
    Along Promised (Editor.start rows) ops ↔ Along KeepsOrder (Editor.start rows) ops := by
  have htree : Tree rows := ⟨hne, (treeLines_eq hne hpre).symm ▸ hpre⟩
  exact promised_iff_keepsOrder_of_inv ⟨htree, hchosen, rfl⟩ hpossible

/-- Two children of a root; the second goes up, and the first is removed. -/
def twoChildren : List StartupRow :=
  [{ id := "a".toList }, { id := "b".toList, parentId := "a".toList },
    { id := "c".toList, parentId := "a".toList }]

theorem twoChildren_promised :
    Along Promised (Editor.start twoChildren) [.move "c".toList .up, .remove "b".toList] := by
  have hpre : PreOrder (twoChildren.map rowLine) :=
    ⟨.node "a".toList (.node "b".toList .nil (.node "c".toList .nil .nil)) .nil, by decide, rfl⟩
  refine (consistent_iff_keepsOrder (by decide) hpre (by unfold Chosen; decide) ?_).mpr ?_
  · refine ⟨by unfold Possible; decide, fun s' hs' => ?_⟩
    obtain rfl := Option.some.inj hs'
    exact ⟨by unfold Possible; decide, fun _ _ => trivial⟩
  · refine ⟨by unfold KeepsOrder; decide, fun s' hs' => ?_⟩
    obtain rfl := Option.some.inj hs'
    exact ⟨by unfold KeepsOrder; decide, fun _ _ => trivial⟩

/-- A grandchild between two children of a root. -/
def grandchild : List StartupRow :=
  [{ id := "a".toList }, { id := "b".toList, parentId := "a".toList },
    { id := "c".toList, parentId := "b".toList }, { id := "d".toList, parentId := "a".toList }]

/-- Its parent is removed: the written forest is a, d, c, and that is what a reload shows. -/
theorem grandchild_not_promised :
    (∀ r ∈ grandchild, r.id ≠ []) ∧ PreOrder (grandchild.map rowLine) ∧ Chosen grandchild ∧
      Along Possible (Editor.start grandchild) [.remove "b".toList] ∧
      ¬ Along Promised (Editor.start grandchild) [.remove "b".toList] := by
  have hpre : PreOrder (grandchild.map rowLine) :=
    ⟨.node "a".toList (.node "b".toList (.node "c".toList .nil .nil) (.node "d".toList .nil .nil))
      .nil, by decide, rfl⟩
  refine ⟨by decide, hpre, by unfold Chosen; decide,
    ⟨by unfold Possible; decide, fun _ _ => trivial⟩, ?_⟩
  rintro ⟨⟨s', hstep, hcons, -⟩, -⟩
  obtain rfl := Option.some.inj hstep
  exact absurd (hcons.reload fun _ => []) (by decide)

end Axan.LinuxStartup
