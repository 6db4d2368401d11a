import Axan.LinuxStartup.Consistency

/-!
# Loading any array

The key may hold anything: ids that repeat, parents that lead in a circle. The traversal of
`startup_reorder_to_pre_order` starts at the roots and looks children up by id; a row that it does
not meet is removed from the list box, and one that it meets twice comes back twice. It keeps no
record of what it has met, and need not end.

* `startupReorderWithin`, `startupLoadEntriesWithin` — the traversal with a number of rounds.
* `loadsEachOnce_iff` — **which arrays load with one row for each entry**.
-/

namespace Axan.LinuxStartup

open Axan.Base Axan.Base.Forest Axan.Base.Settings
open Axan.LinuxSidebar (LaunchEntry)

/-- The order that the parent ids ask for; none when the stack is not empty after the rounds. -/
def desiredOrderWithin (rounds : ℕ) (rows : List StartupRow) : Option (List StartupRow) :=
  let kids (pid : Text) := rows.filter fun r => promote rows r.parentId = pid
  depthFirst (fun r => kids r.id) rounds (kids [])

/-- Source: `startup_reorder_to_pre_order` -/
def startupReorderWithin (rounds : ℕ) (rows : List StartupRow) : Option (List StartupRow × Bool) :=
  (desiredOrderWithin rounds rows).map fun desired => (desired, decide (desired ≠ rows))

/-- The rows that are created, in the order of the entries. -/
def createdRows (uuid : ℕ → Text) (entries : List LaunchEntry) : List StartupRow :=
  entries.mapIdx fun i e => startupCreateRow { e with id := if e.id.isEmpty then uuid i else e.id }

/-- Source: `startup_load_entries` -/
def startupLoadEntriesWithin (rounds : ℕ) (uuid : ℕ → Text) (entries : List LaunchEntry) :
    Option Editor :=
  (startupReorderWithin rounds (createdRows uuid entries)).map fun (rows, differs) =>
    let s : Editor := { rows := rows, defaultLaunchEntries := entries }
    if differs then s.save else s

/-- With one round for each entry it is the load of the other operations. -/
theorem startupLoadEntriesWithin_length (uuid : ℕ → Text) (entries : List LaunchEntry) :
    startupLoadEntriesWithin entries.length uuid entries = startupLoadEntries uuid entries := by
  have hlen : (createdRows uuid entries).length = entries.length := List.length_mapIdx
  rw [startupLoadEntriesWithin, startupReorderWithin, ← hlen]
  rfl

/-! ### Arrays in pre-order -/

/-- The array is the pre-order of a forest: the ids are distinct and not empty, and every parent id
is the id of an entry. -/
structure InPreOrder (entries : List LaunchEntry) : Prop where
  nonempty : ∀ e ∈ entries, e.id ≠ []
  preOrder : PreOrder (entries.map entryLine)

namespace InPreOrder

variable {entries : List LaunchEntry}

/-- No new id is drawn for entries that have one. -/
theorem createdRows_eq (h : InPreOrder entries) (uuid : ℕ → Text) :
    createdRows uuid entries = entries.map startupCreateRow := by
  apply List.ext_getElem?
  intro i
  rw [createdRows, List.getElem?_mapIdx, List.getElem?_map]
  cases he : entries[i]? with
  | none => rfl
  | some e =>
      have hid : e.id.isEmpty = false := by simpa using h.nonempty e (List.mem_of_getElem? he)
      rw [Option.map_some, Option.map_some, hid]
      rfl

/-- No row is without an id. -/
theorem rows_nonempty (h : InPreOrder entries) : ∀ r ∈ entries.map startupCreateRow, r.id ≠ [] := by
  intro r hr
  obtain ⟨e, he, rfl⟩ := List.mem_map.mp hr
  exact h.nonempty e he

/-- The lines of the rows are those of the entries. -/
theorem map_rowLine (entries : List LaunchEntry) :
    (entries.map startupCreateRow).map rowLine = entries.map entryLine := by
  rw [List.map_map]
  rfl

theorem map_id (entries : List LaunchEntry) :
    (entries.map startupCreateRow).map StartupRow.id = entries.map LaunchEntry.id := by
  rw [List.map_map]
  rfl

/-- The rows are a tree. -/
theorem tree (h : InPreOrder entries) : Tree (entries.map startupCreateRow) := by
  have hpre : PreOrder ((entries.map startupCreateRow).map rowLine) := by
    rw [map_rowLine]
    exact h.preOrder
  exact ⟨h.rows_nonempty, (treeLines_eq h.rows_nonempty hpre).symm ▸ hpre⟩

/-- There is nothing to heal, and nothing is written. -/
theorem load (h : InPreOrder entries) (uuid : ℕ → Text) :
    startupLoadEntries uuid entries = some ⟨entries.map startupCreateRow, entries⟩ := by
  have hcreated : startupLoadEntries uuid entries =
      (startupReorderToPreOrder (createdRows uuid entries)).map fun (rows, differs) =>
        let s : Editor := { rows := rows, defaultLaunchEntries := entries }
        if differs then s.save else s := rfl
  rw [hcreated, h.createdRows_eq, startupReorderToPreOrder, desiredOrder_of_tree h.tree]
  simp

/-- Every parent id is written as it is. -/
theorem promote_eq (h : InPreOrder entries) {e : LaunchEntry} (he : e ∈ entries) :
    promote (entries.map startupCreateRow) e.parentId = e.parentId := by
  by_cases hroot : e.parentId = []
  · rw [hroot]
    rfl
  · have hparent : (entryLine e).parent = some e.parentId := if_neg (by simpa using hroot)
    have hmem := h.preOrder.parent_mem (List.mem_map_of_mem he) hparent
    rw [List.map_map] at hmem
    refine (promote_eq_iff h.rows_nonempty (startupCreateRow e) hroot).mpr
      (treeParent_eq_some_iff.mpr ⟨rfl, ?_⟩)
    rw [map_id]
    exact hmem

end InPreOrder

/-! ### Every entry once -/

/-- The load ends; there is one row for each entry, and what healing writes has every entry once. -/
def LoadsEachOnce (uuid : ℕ → Text) (entries : List LaunchEntry) : Prop :=
  ∃ rounds s, startupLoadEntriesWithin rounds uuid entries = some s ∧
    s.rows.Perm (createdRows uuid entries) ∧
    (s.rows ≠ createdRows uuid entries → s.defaultLaunchEntries.Perm
      ((createdRows uuid entries).map (entryOf (createdRows uuid entries))))

section Created

variable {uuid : ℕ → Text} (entries : List LaunchEntry)

/-- A new id is not empty, so every row has an id. -/
theorem createdRows_nonempty (huuid : ∀ i, uuid i ≠ []) :
    ∀ r ∈ createdRows uuid entries, r.id ≠ [] := by
  intro r hr
  obtain ⟨i, hi, rfl⟩ := List.mem_mapIdx.mp hr
  rw [startupCreateRow]
  simp only
  split_ifs with hempty
  · exact huuid i
  · simpa using hempty

end Created

section Rows

variable {rows rows' : List StartupRow}

/-- Promoting does not depend on the order. -/
theorem promote_perm (hperm : rows'.Perm rows) (pid : Text) : promote rows' pid = promote rows pid := by
  have hknown : (knownIds rows').contains pid = (knownIds rows).contains pid := by
    rw [List.contains_eq_mem, List.contains_eq_mem, decide_eq_decide, knownIds, knownIds]
    exact ((hperm.map _).filter _).mem_iff
  rw [promote, promote, hknown]

/-- What is written of rows in another order. -/
theorem startupSaveEntries_perm (hne : ∀ r ∈ rows, r.id ≠ []) (hperm : rows'.Perm rows) :
    (startupSaveEntries rows').Perm (rows.map (entryOf rows)) := by
  have hne' : ∀ r ∈ rows', r.id ≠ [] := fun r hr => hne r (hperm.mem_iff.mp hr)
  have hentry : entryOf rows' = entryOf rows := by
    funext r
    rw [entryOf, entryOf, promote_perm hperm]
  rw [startupSaveEntries_eq hne', hentry]
  exact hperm.map _

/-- The traversal of the rows as a walk over their lines. -/
theorem desiredOrderWithin_perm_iff (hne : ∀ r ∈ rows, r.id ≠ []) :
    (∃ rounds desired, desiredOrderWithin rounds rows = some desired ∧ desired.Perm rows) ↔
      ParentsUnique (treeLine (rows.map StartupRow.id)) rows ∧
        ∀ r ∈ rows, Rooted (treeLine (rows.map StartupRow.id)) rows r := by
  have hroots : (rows.filter fun r => promote rows r.parentId = []) =
      rows.filter fun c => (treeLine (rows.map StartupRow.id) c).parent = none :=
    List.filter_congr fun r _ => decide_eq_decide.mpr (promote_eq_nil_iff hne r)
  have hkids : ∀ q ∈ rows, (rows.filter fun r => promote rows r.parentId = q.id) =
      rows.filter fun c => (treeLine (rows.map StartupRow.id) c).parent =
        some (treeLine (rows.map StartupRow.id) q).key :=
    fun q hq => List.filter_congr fun r _ => decide_eq_decide.mpr (promote_eq_iff hne r (hne q hq))
  rw [← walk_perm_iff hkids, ← hroots, exists_comm]
  refine exists_congr fun desired => ?_
  rw [exists_and_right, ← exists_depthFirst_iff]
  rfl

end Rows

/-- **Every entry has one row exactly when every parent id that an entry has belongs to one entry,
and the parents of every entry lead to one without a parent.** -/
theorem loadsEachOnce_iff {uuid : ℕ → Text} (huuid : ∀ i, uuid i ≠ []) (entries : List LaunchEntry) :
    LoadsEachOnce uuid entries ↔
      ParentsUnique (treeLine ((createdRows uuid entries).map StartupRow.id))
          (createdRows uuid entries) ∧
        ∀ r ∈ createdRows uuid entries,
          Rooted (treeLine ((createdRows uuid entries).map StartupRow.id))
            (createdRows uuid entries) r := by
  have hne := createdRows_nonempty entries huuid
  rw [← desiredOrderWithin_perm_iff hne]
  constructor
  · rintro ⟨rounds, s, hload, hperm, -⟩
    rw [startupLoadEntriesWithin, startupReorderWithin, Option.map_map] at hload
    obtain ⟨desired, hdesired, rfl⟩ := Option.map_eq_some_iff.mp hload
    refine ⟨rounds, desired, hdesired, ?_⟩
    simp only [Function.comp_apply] at hperm
    split at hperm
    · exact hperm
    · exact hperm
  · rintro ⟨rounds, desired, hdesired, hperm⟩
    by_cases hsame : desired = createdRows uuid entries
    · refine ⟨rounds, ⟨desired, entries⟩, ?_, hperm, fun hne' => absurd hsame hne'⟩
      rw [startupLoadEntriesWithin, startupReorderWithin, hdesired, hsame]
      simp
    · refine ⟨rounds, ⟨desired, startupSaveEntries desired⟩, ?_, hperm, fun _ => ?_⟩
      · rw [startupLoadEntriesWithin, startupReorderWithin, hdesired]
        simp [hsame, Editor.save]
      · exact startupSaveEntries_perm hne hperm

/-- A child in front of its parent, and an id that two rows without children share. -/
def forwardReference : List LaunchEntry :=
  [{ id := "b".toList, parentId := "a".toList }, { id := "a".toList },
    { id := "b".toList, name := "again".toList }]

theorem forwardReference_loads : LoadsEachOnce (fun _ => "new".toList) forwardReference := by
  refine (loadsEachOnce_iff (fun _ => by decide) forwardReference).mpr
    ⟨by unfold ParentsUnique; decide, ?_⟩
  have hrows : createdRows (fun _ => "new".toList) forwardReference =
      [{ id := "b".toList, parentId := "a".toList }, { id := "a".toList },
        { id := "b".toList, nameEntry := "again".toList }] := rfl
  have hroot : Rooted (treeLine ((createdRows (fun _ => "new".toList) forwardReference).map
      StartupRow.id)) (createdRows (fun _ => "new".toList) forwardReference)
      { id := "a".toList } := .root (by decide)
  intro r hr
  obtain rfl | rfl | rfl : r = { id := "b".toList, parentId := "a".toList } ∨
      r = { id := "a".toList } ∨ r = { id := "b".toList, nameEntry := "again".toList } := by
    rw [hrows] at hr
    simpa only [List.mem_cons, List.not_mem_nil, or_false] using hr
  · exact .child (by decide) (by decide) hroot
  · exact hroot
  · exact .root (by decide)

/-- An entry that is its own parent: the list box is empty, and so is the array that is written. -/
theorem own_parent_lost :
    startupLoadEntriesWithin 0 (fun _ => "new".toList)
        [{ id := "a".toList, parentId := "a".toList }] = some ⟨[], []⟩ ∧
      ¬ LoadsEachOnce (fun _ => "new".toList) [{ id := "a".toList, parentId := "a".toList }] := by
  refine ⟨by decide, ?_⟩
  rintro ⟨rounds, s, hload, hperm, -⟩
  have hempty : ∀ rounds, startupLoadEntriesWithin rounds (fun _ => "new".toList)
      [{ id := "a".toList, parentId := "a".toList }] = some ⟨[], []⟩ := by
    intro rounds
    cases rounds with
    | zero => decide
    | succ n => rfl
  obtain rfl := Option.some.inj (hload.symm.trans (hempty rounds))
  exact absurd hperm.length_eq (by decide)

end Axan.LinuxStartup
