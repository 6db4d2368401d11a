import Axan.Base.ParentsFirst
import Axan.LinuxSidebar.CrossDrag
import Axan.LinuxSidebar.StartupTree

/-!
# Capturing the sidebar as launch entries

* `captureEntries` — one entry for each row, in the order of the list (`terminal-sidebar.cc`).
* `Reproduced` — launching the entries gives the captured tree again.
* `reproduced_iff` — that is so exactly when every row stands behind its parent.
* `reproduced_iff_keepsParents` — **whole runs**: which steps keep the rows behind their parents.
-/

namespace Axan.LinuxSidebar

open Axan.Base Axan.Base.Forest Axan.Base.Settings TerminalSidebar

/-! ### The capture -/

/-- What a screen tells about itself. -/
structure ScreenInfo where
  /-- `terminal_screen_get_display_name_template` -/
  displayNameTemplate : Option Text := none
  /-- `terminal_screen_get_current_dir` -/
  currentDir : Option Text := none

/-- The entries of the rows, with a new id for each row. Source: `terminal_sidebar_capture_entries` -/
def captureEntries (uuid : ℕ → Text) (screen : ℕ → ScreenInfo) (rows : List Row) :
    List LaunchEntry :=
  rows.map fun r =>
    { id := uuid r.key
      parentId :=
        match r.parent with
        | none => []
        | some p => if p ∈ rows.map Line.key then uuid p else []
      name := (screen r.key).displayNameTemplate.getD []
      directory := (screen r.key).currentDir.getD [] }

/-- The entries are those of the rows, and launch their tree. -/
structure Reproduced (env : Environment) (uuid : ℕ → Text) (screen : ℕ → ScreenInfo)
    (rows : List Row) : Prop where
  entries : (captureEntries uuid screen rows).map LaunchEntry.id = rows.map fun r => uuid r.key
  distinct : ((captureEntries uuid screen rows).map LaunchEntry.id).Nodup
  earlier : ∀ X e Z, captureEntries uuid screen rows = X ++ e :: Z → e.parentId ≠ [] →
    e.parentId ∈ X.map LaunchEntry.id
  launched : ∀ tabs, expandProfileLaunchEntries env (captureEntries uuid screen rows) = some tabs →
    ∀ (i : ℕ) (r : Row) (it : InitialTab), rows[i]? = some r → tabs[i]? = some it →
      (it.parentTabIndex.bind fun j => (rows[j]?).map Line.key) = r.parent

section Launch

variable {uuid : ℕ → Text} {screen : ℕ → ScreenInfo} {rows : List Row}

/-- Every row has the id of its shell. -/
theorem map_id_captureEntries :
    (captureEntries uuid screen rows).map LaunchEntry.id = rows.map fun r => uuid r.key := by
  rw [captureEntries, List.map_map]
  rfl

/-- Different shells have different ids. -/
theorem nodup_captureEntries (huuid : Function.Injective uuid) (hnd : (rows.map Line.key).Nodup) :
    ((captureEntries uuid screen rows).map LaunchEntry.id).Nodup := by
  have hmap : (rows.map fun r => uuid r.key) = (rows.map Line.key).map uuid := by
    rw [List.map_map]
    rfl
  rw [map_id_captureEntries, hmap]
  exact hnd.map huuid

/-- The launcher finds the row that stands earlier. -/
theorem parentTabIndex_captureEntries (hne : ∀ k, uuid k ≠ []) (huuid : Function.Injective uuid)
    (hnd : (rows.map Line.key).Nodup) {i : ℕ} {r : Row} (hr : rows[i]? = some r)
    {e : LaunchEntry} (he : (captureEntries uuid screen rows)[i]? = some e) {j : ℕ} :
    parentTabIndex (idToIndex 0 (captureEntries uuid screen rows) fun _ => none) i e.parentId =
      some j ↔ j < i ∧ ∃ r', rows[j]? = some r' ∧ r.parent = some r'.key := by
  have hid : ∀ e ∈ captureEntries uuid screen rows, e.id ≠ [] := by
    intro e he
    obtain ⟨r, -, rfl⟩ := List.mem_map.mp he
    exact hne r.key
  have hget (n : ℕ) : ((captureEntries uuid screen rows)[n]?).map LaunchEntry.id =
      (rows[n]?).map fun r => uuid r.key := by
    rw [← List.getElem?_map, map_id_captureEntries, List.getElem?_map]
  rw [parentTabIndex_eq hid (nodup_captureEntries huuid hnd) he, earlierEntry_eq_some_iff he]
  have hparentId : e.parentId = match r.parent with
      | none => []
      | some p => if p ∈ rows.map Line.key then uuid p else [] := by
    rw [captureEntries, List.getElem?_map, hr] at he
    obtain rfl := Option.some.inj he
    rfl
  constructor
  · rintro ⟨hji, hj, -⟩
    rw [hget] at hj
    obtain ⟨r', hr', hkey⟩ := Option.map_eq_some_iff.mp hj
    refine ⟨hji, r', hr', ?_⟩
    cases hp : r.parent with
    | none =>
        rw [hp] at hparentId
        exact absurd (hkey.trans hparentId) (hne _)
    | some p =>
        rw [hp] at hparentId
        simp only at hparentId
        split_ifs at hparentId with hmem
        · exact congrArg some (huuid (hkey.trans hparentId)).symm
        · exact absurd (hkey.trans hparentId) (hne _)
  · rintro ⟨hji, r', hr', hparent⟩
    have hmem : r'.key ∈ rows.map Line.key := List.mem_map_of_mem (List.mem_of_getElem? hr')
    rw [hparent] at hparentId
    simp only [hmem, if_true] at hparentId
    refine ⟨hji, by rw [hget, hr', hparentId]; rfl, fun j' hj' hsame => ?_⟩
    rw [hget, hparentId] at hsame
    obtain ⟨r'', hr'', hkey⟩ := Option.map_eq_some_iff.mp hsame
    have hlt : j' < (rows.map Line.key).length := by
      rw [List.length_map]
      exact (List.getElem?_eq_some_iff.mp hr'').1
    have heq : j' = j := by
      apply (List.getElem?_inj hlt hnd).mp
      rw [List.getElem?_map, List.getElem?_map, hr'', hr', Option.map_some, Option.map_some,
        huuid hkey]
    omega

/-- **The captured tree is launched again exactly when every row stands behind its parent.** -/
theorem reproduced_iff (env : Environment) (screen : ℕ → ScreenInfo) (hne : ∀ k, uuid k ≠ [])
    (huuid : Function.Injective uuid) (hnd : (rows.map Line.key).Nodup) :
    Reproduced env uuid screen rows ↔ ParentsFirst rows := by
  have htabs (hrows : rows ≠ []) : expandProfileLaunchEntries env (captureEntries uuid screen rows) =
      some ((captureEntries uuid screen rows).mapIdx
        (initialTab env (idToIndex 0 (captureEntries uuid screen rows) fun _ => none))) := by
    rw [expandProfileLaunchEntries, if_neg]
    simpa [captureEntries] using hrows
  constructor
  · intro h
    refine ParentsFirst.of_front hnd fun X r Z hsplit p hp => ?_
    have hr : rows[X.length]? = some r := by
      rw [hsplit, List.getElem?_append_right le_rfl, Nat.sub_self]
      rfl
    obtain ⟨e, he⟩ : ∃ e, (captureEntries uuid screen rows)[X.length]? = some e := by
      rw [captureEntries, List.getElem?_map, hr]
      exact ⟨_, rfl⟩
    have hlaunched := h.launched _ (htabs (by rw [hsplit]; simp)) X.length r _ hr
      (by rw [List.getElem?_mapIdx, he]; rfl)
    rw [Option.mem_def.mp hp] at hlaunched
    obtain ⟨j, hj, hkey⟩ := Option.bind_eq_some_iff.mp hlaunched
    obtain ⟨hlt, r', hr', -⟩ := (parentTabIndex_captureEntries hne huuid hnd hr he).mp hj
    rw [hr'] at hkey
    obtain rfl := Option.some.inj hkey
    rw [hsplit] at hr'
    exact List.mem_map_of_mem (mem_of_getElem?_lt hr' hlt)
  · intro h
    refine ⟨map_id_captureEntries, nodup_captureEntries huuid hnd, ?_, ?_⟩
    · intro X e Z hsplit hparent
      obtain ⟨X', D, hrows, hX', hD⟩ := List.map_eq_append_iff.mp hsplit
      obtain ⟨r, Z', rfl, rfl, -⟩ := List.map_eq_cons_iff.mp hD
      cases hp : r.parent with
      | none =>
          simp only [hp] at hparent
          exact absurd rfl hparent
      | some p =>
          have hmem := h.parent_front hrows hp
          have hin : p ∈ rows.map Line.key := h.parent_mem (by rw [hrows]; simp) hp
          simp only [hin, if_true]
          obtain ⟨r', hr', rfl⟩ := List.mem_map.mp hmem
          rw [← hX', List.map_map]
          exact List.mem_map.mpr ⟨r', hr', rfl⟩
    · intro tabs htabs' i r it hr hit
      have hrows : rows ≠ [] := List.ne_nil_of_mem (List.mem_of_getElem? hr)
      obtain rfl := Option.some.inj ((htabs hrows).symm.trans htabs')
      rw [List.getElem?_mapIdx] at hit
      obtain ⟨e, he, rfl⟩ := Option.map_eq_some_iff.mp hit
      have hiff {j : ℕ} := parentTabIndex_captureEntries (j := j) hne huuid hnd hr he
      cases hp : r.parent with
      | none =>
          have hnone : (initialTab env (idToIndex 0 (captureEntries uuid screen rows) fun _ => none) i
              e).parentTabIndex = none := by
            rw [Option.eq_none_iff_forall_ne_some]
            intro j hj
            obtain ⟨-, r', -, hparent⟩ := hiff.mp hj
            rw [hp] at hparent
            cases hparent
          rw [hnone]
          rfl
      | some p =>
          obtain ⟨X, Z, hsplit, rfl⟩ := split_of_getElem? hr
          obtain ⟨r', hr', rfl⟩ := List.mem_map.mp (h.parent_front hsplit hp)
          obtain ⟨X₁, X₂, rfl⟩ := List.append_of_mem hr'
          have hget : rows[X₁.length]? = some r' := by
            rw [hsplit, List.append_assoc, List.getElem?_append_right le_rfl, Nat.sub_self]
            rfl
          have hsome := hiff.mpr ⟨by simp, r', hget, hp⟩
          have hindex : (initialTab env (idToIndex 0 (captureEntries uuid screen rows) fun _ => none)
              (X₁ ++ r' :: X₂).length e).parentTabIndex = some X₁.length := hsome
          rw [hindex, Option.bind_some, hget]
          rfl

/-- What is reproduced has its parents first. -/
theorem Reproduced.parentsFirst {env : Environment} (h : Reproduced env uuid screen rows)
    (hne : ∀ k, uuid k ≠ []) (huuid : Function.Injective uuid) : ParentsFirst rows := by
  have hnd : (rows.map Line.key).Nodup := by
    have hdistinct := h.distinct
    rw [map_id_captureEntries] at hdistinct
    have hmap : (rows.map fun r => uuid r.key) = (rows.map Line.key).map uuid := by
      rw [List.map_map]
      rfl
    rw [hmap] at hdistinct
    exact hdistinct.of_map
  exact (reproduced_iff env screen hne huuid hnd).mp h

end Launch

/-! ### When a step keeps the rows behind their parents -/

/-- The rows in front of a place. -/
def frontOf (rest : List Row) : Option ℕ → List Row
  | none => rest
  | some i => rest.take i

/-- The rows behind a place. -/
def backOf (rest : List Row) : Option ℕ → List Row
  | none => []
  | some i => rest.drop i

/-- The rows that are moved hang at each other or in front of the place they go to, and no row in
front of that place hangs at one of them. -/
def MoveKeeps (rows : List Row) (source : ℕ) (newParent insertIndex : Option ℕ) : Prop :=
  ∀ i e, rowGetIndex rows source = some i → subtreeEndIndex rows i = some e →
    let below := (rows.drop (i + 1)).take (e - (i + 1))
    let front := frontOf (rows.take i ++ rows.drop e) (blockIndex i (e - i) insertIndex)
    (∀ p ∈ newParent, p ∈ front.map Line.key) ∧
    (∀ r ∈ below, ∀ p ∈ r.parent, p ∈ source :: below.map Line.key ∨ p ∈ front.map Line.key) ∧
    ∀ r ∈ front, ∀ p ∈ r.parent, p ∉ source :: below.map Line.key

/-- A drop that is not refused moves the subtree of a row. -/
def DropKeeps (rows : List Row) (source : ℕ) (target : Option (ℕ × DropZone)) : Prop :=
  dropRefused rows source target = some false → ∀ newParent insertIndex,
    dropPlan rows target = some (newParent, insertIndex) →
      MoveKeeps rows source newParent insertIndex

/-- **The condition of a step.** The children of a closed shell are found; what is moved stays behind
its parent and in front of its children. -/
def KeepsParents (s : TerminalSidebar) : Event → Prop
  | .closeShell screen => ∀ i e, rowGetIndex s.rows screen = some i →
      subtreeEndIndex s.rows i = some e → ∀ r ∈ s.rows.drop e, r.parent ≠ some screen
  | .drop source target => DropKeeps s.rows source target
  | .setScreenParent child parent => DropKeeps s.rows child (parent.map fun p => (p, .child))
  | .reorder screen direction => ∀ i ∈ rowGetIndex s.rows screen, ∀ row ∈ s.rows[i]?,
      let front := (s.rows.eraseIdx i).take (newPos s.rows.length i direction)
      (∀ p ∈ row.parent, p ∈ front.map Line.key) ∧ ∀ r ∈ front, r.parent ≠ some screen
  | _ => True

/-- Rows are inserted between two parts of the others. -/
theorem listBoxInsert_eq (rest moving : List Row) (position : Option ℕ) :
    listBoxInsert rest moving position = frontOf rest position ++ (moving ++ backOf rest position) ∧
      frontOf rest position ++ backOf rest position = rest := by
  cases position with
  | none => exact ⟨by simp [listBoxInsert, frontOf, backOf], List.append_nil rest⟩
  | some i => exact ⟨rfl, List.take_append_drop i rest⟩

/-- With the parents first, every walk up ends. -/
theorem settled_of_parentsFirst {rows : List Row} (h : ParentsFirst rows) : Settled rows := by
  refine ⟨h.nodup, fun r hr => ?_⟩
  obtain ⟨X, Z, hsplit⟩ := List.append_of_mem hr
  have hlen : X.length ≤ rows.length := by
    rw [hsplit, List.length_append]
    omega
  rw [rowDepth, Option.isSome_map]
  exact h.ancestors_isSome hsplit hlen

/-- A row and the rows that count as its subtree. -/
theorem Settled.exists_block {rows : List Row} (h : Settled rows) {row : Row} (hrow : row ∈ rows) :
    ∃ X T Z, rows = X ++ (row :: T ++ Z) ∧ rowGetIndex rows row.key = some X.length ∧
      subtreeEndIndex rows X.length = some (X.length + (row :: T).length) := by
  obtain ⟨X, R, hsplit⟩ := List.append_of_mem hrow
  have hlt : X.length < rows.length := by
    rw [hsplit]
    simp
  obtain ⟨e, he, hie, hen, -⟩ := h.subtreeEndIndex_eq hlt
  refine ⟨X, R.take (e - (X.length + 1)), R.drop (e - (X.length + 1)), ?_, ?_, ?_⟩
  · rw [List.cons_append, List.take_append_drop, hsplit]
  · have hnd := h.nodup
    rw [hsplit] at hnd ⊢
    exact rowGetIndex_of_split hnd
  · rw [he]
    congr 1
    rw [hsplit, List.length_append, List.length_cons] at hen
    rw [List.length_cons, List.length_take]
    omega

section Blocks

variable {rows X T Z : List Row} {row : Row}

/-- What is in front of a block. -/
theorem take_block (h : rows = X ++ (row :: T ++ Z)) : rows.take X.length = X := by
  rw [h, List.take_left]

theorem drop_block (h : rows = X ++ (row :: T ++ Z)) :
    rows.drop (X.length + (row :: T).length) = Z := by
  rw [h, ← List.append_assoc, ← List.length_append, List.drop_left]

theorem block_eq (h : rows = X ++ (row :: T ++ Z)) :
    (rows.drop X.length).take (row :: T).length = row :: T := by
  rw [h, List.drop_left, List.take_left]

/-- The block without its head. -/
theorem below_eq (h : rows = X ++ (row :: T ++ Z)) :
    (rows.drop (X.length + 1)).take (X.length + (row :: T).length - (X.length + 1)) = T := by
  have hlen : X.length + (row :: T).length - (X.length + 1) = T.length := by
    rw [List.length_cons]
    omega
  rw [hlen, h, ← List.drop_drop, List.drop_left]
  exact List.take_left

end Blocks

section Steps

variable {s : TerminalSidebar}

/-- The moved rows, the first of them with its new parent. -/
theorem map_rowSetParent_block {row : Row} {T : List Row} (hnd : ((row :: T).map Line.key).Nodup)
    (q : Option ℕ) : (row :: T).map (rowSetParent row.key q) = ⟨row.key, q⟩ :: T := by
  have hT : T.map (rowSetParent row.key q) = T := by
    conv_rhs => rw [← List.map_id T]
    apply List.map_congr_left
    intro r hr
    have hne : r.key ≠ row.key := fun heq =>
      (List.nodup_cons.mp hnd).1 (heq ▸ List.mem_map_of_mem hr)
    rw [rowSetParent, if_neg hne, id]
  rw [List.map_cons, hT, rowSetParent, if_pos rfl]

/-- A moved subtree comes behind its new parent, or the order is lost. -/
theorem parentsFirst_moveSubtree_iff (h : ParentsFirst s.rows) {row : Row} (hrow : row ∈ s.rows)
    (newParent insertIndex : Option ℕ) :
    ∃ s', s.moveSubtree row.key newParent insertIndex = some s' ∧
      (ParentsFirst s'.rows ↔ MoveKeeps s.rows row.key newParent insertIndex) := by
  obtain ⟨X, T, Z, hsplit, hindex, hend⟩ := (settled_of_parentsFirst h).exists_block hrow
  have hnd : ((row :: T).map Line.key).Nodup := by
    have hnodup := h.nodup
    rw [hsplit, List.map_append, List.map_append] at hnodup
    exact (List.nodup_append.mp (List.nodup_append.mp hnodup).2.1).1
  let dest := blockIndex X.length (row :: T).length insertIndex
  obtain ⟨hinsert, hrest⟩ := listBoxInsert_eq (X ++ Z) (⟨row.key, newParent⟩ :: T) dest
  have hmove : s.moveSubtree row.key newParent insertIndex = some
      { s.deselect (row :: T) with
        rows := frontOf (X ++ Z) dest ++ (⟨row.key, newParent⟩ :: T ++ backOf (X ++ Z) dest) } := by
    rw [moveSubtree, hindex]
    simp only [Option.bind_eq_bind, Option.bind_some, hend, block_eq hsplit, take_block hsplit,
      drop_block hsplit, map_rowSetParent_block hnd, Nat.add_sub_cancel_left]
    rw [← hinsert]
    rfl
  refine ⟨_, hmove, ?_⟩
  have hold : ParentsFirst (X ++ (⟨row.key, row.parent⟩ :: T ++ Z)) := hsplit ▸ h
  rw [parentsFirst_relocate_iff hold hrest]
  constructor
  · intro hcond i e hi he
    obtain rfl := Option.some.inj (hindex.symm.trans hi)
    obtain rfl := Option.some.inj (hend.symm.trans he)
    simp only [below_eq hsplit, take_block hsplit, drop_block hsplit, Nat.add_sub_cancel_left]
    exact hcond
  · intro hcond
    have hcond' := hcond _ _ hindex hend
    simp only [below_eq hsplit, take_block hsplit, drop_block hsplit, Nat.add_sub_cancel_left]
      at hcond'
    exact hcond'

/-- A walk over pointers that end has an answer. -/
theorem walkMeets_isSome {rows : List Row} {ancestor n : ℕ} {p : Option ℕ} {up : List ℕ}
    (hup : ancestors rows n p = some up) : ∃ b, walkMeets rows ancestor n p = some b := by
  induction n generalizing p up with
  | zero =>
      cases p with
      | none => exact ⟨false, rfl⟩
      | some q => cases hup
  | succ n ih =>
      cases p with
      | none => exact ⟨false, rfl⟩
      | some q =>
          obtain ⟨-, q', up', hparent, hup'⟩ := ancestors_succ hup
          rw [walkMeets, hparent]
          by_cases heq : q = ancestor
          · exact ⟨true, by rw [if_pos heq]⟩
          · obtain ⟨b, hb⟩ := ih hup'
            exact ⟨b, by rw [if_neg heq]; exact hb⟩

/-- Whether a row is below another can be told. -/
theorem Settled.rowIsDescendantOf_isSome {rows : List Row} (h : Settled rows) {row : Row}
    (hrow : row ∈ rows) (ancestor : ℕ) : ∃ b, rowIsDescendantOf rows row ancestor = some b := by
  obtain ⟨d, hd⟩ := h.exists_depth hrow
  obtain ⟨up, hup, -⟩ := Option.map_eq_some_iff.mp hd
  exact walkMeets_isSome hup

/-- A shell has a row or none. -/
theorem lookupRow_cases (s : TerminalSidebar) (k : ℕ) :
    (s.lookupRow k = none ∧ rowGetIndex s.rows k = none) ∨
      ∃ row ∈ s.rows, row.key = k ∧ s.lookupRow k = some row := by
  cases hrow : s.lookupRow k with
  | none =>
      refine Or.inl ⟨rfl, ?_⟩
      rw [lookupRow, List.find?_eq_none] at hrow
      rw [rowGetIndex, List.findIdx?_eq_none_iff]
      intro r hr
      simpa using hrow r hr
  | some row =>
      have hkey := List.find?_some hrow
      exact Or.inr ⟨row, List.mem_of_find?_eq_some hrow, of_decide_eq_true hkey, rfl⟩

/-- A move of a row that is not there is no move. -/
theorem MoveKeeps.of_none {rows : List Row} {source : ℕ} (h : rowGetIndex rows source = none)
    (newParent insertIndex : Option ℕ) : MoveKeeps rows source newParent insertIndex := by
  intro i e hi
  rw [h] at hi
  cases hi

/-- The row a drop goes to: it is not in the list, or it tells whether the drop is refused. -/
theorem dropRefused_cases (h : Settled s.rows) (source t : ℕ) (zone : DropZone) :
    (s.lookupRow t = none ∧ dropRefused s.rows source (some (t, zone)) = none) ∨
    ∃ row inside i e, s.lookupRow t = some row ∧
      rowIsDescendantOf s.rows row source = some inside ∧ rowGetIndex s.rows t = some i ∧
      subtreeEndIndex s.rows i = some e ∧
      dropRefused s.rows source (some (t, zone)) =
        some (inside || (source = t && zone = .child)) := by
  rcases lookupRow_cases s t with ⟨hnone, -⟩ | ⟨row, hrow, rfl, hlookup⟩
  · refine Or.inl ⟨hnone, ?_⟩
    rw [lookupRow] at hnone
    rw [dropRefused, hnone]
    rfl
  · obtain ⟨inside, hinside⟩ := h.rowIsDescendantOf_isSome hrow source
    obtain ⟨X, T, Z, -, hindex, hend⟩ := h.exists_block hrow
    refine Or.inr ⟨row, inside, _, _, hlookup, hinside, hindex, hend, ?_⟩
    rw [lookupRow] at hlookup
    rw [dropRefused, hlookup]
    simp only [Option.bind_eq_bind, Option.bind_some, hinside]

/-- A drop has no effect, or moves a subtree. -/
theorem dragDataReceived_cases (h : Settled s.rows) (source : ℕ) (target : Option (ℕ × DropZone)) :
    (s.dragDataReceived source target = some s ∧ (rowGetIndex s.rows source = none ∨
      dropRefused s.rows source target ≠ some false)) ∨
    ∃ newParent insertIndex, source ∈ s.rows.map Line.key ∧
      dropRefused s.rows source target = some false ∧
      dropPlan s.rows target = some (newParent, insertIndex) ∧
      s.dragDataReceived source target =
        (s.moveSubtree source newParent insertIndex).map fun s' => s'.reselect source := by
  rcases lookupRow_cases s source with ⟨hnone, hindex⟩ | ⟨row, hrow, hkey, hlookup⟩
  · refine Or.inl ⟨?_, Or.inl hindex⟩
    unfold dragDataReceived
    rw [hnone]
  · have hsource : source ∈ s.rows.map Line.key := hkey ▸ List.mem_map_of_mem hrow
    cases target with
    | none =>
        refine Or.inr ⟨none, none, hsource, rfl, rfl, ?_⟩
        unfold dragDataReceived
        rw [hlookup]
    | some target =>
        obtain ⟨t, zone⟩ := target
        rcases dropRefused_cases h source t zone with ⟨ht, hrefused⟩ | ⟨targetRow, inside, i, e, ht,
          hinside, hi, he, hrefused⟩
        · refine Or.inl ⟨?_, Or.inr (by rw [hrefused]; simp)⟩
          unfold dragDataReceived
          rw [hlookup]
          simp only [ht]
        · by_cases hstop : (inside || (source = t && zone = .child)) = true
          · refine Or.inl ⟨?_, Or.inr (by rw [hrefused, hstop]; simp)⟩
            unfold dragDataReceived
            rw [hlookup]
            simp only [ht, hinside, Option.bind_eq_bind, Option.bind_some, if_pos hstop]
          · have ht' : s.rows.find? (fun r => r.key = t) = some targetRow := ht
            have hgo : (inside || (source = t && zone = .child)) = false := by simpa using hstop
            cases zone with
            | siblingBefore =>
                refine Or.inr ⟨targetRow.parent, some i, hsource, by rw [hrefused, hgo], ?_, ?_⟩
                · rw [dropPlan, ht', hi]
                  simp only [Option.bind_eq_bind, Option.bind_some, he]
                · unfold dragDataReceived
                  rw [hlookup]
                  simp only [ht, hinside, hi, he, Option.bind_eq_bind, Option.bind_some,
                    if_neg hstop]
                  cases s.moveSubtree source targetRow.parent (some i) <;> rfl
            | siblingAfter =>
                refine Or.inr ⟨targetRow.parent, some e, hsource, by rw [hrefused, hgo], ?_, ?_⟩
                · rw [dropPlan, ht', hi]
                  simp only [Option.bind_eq_bind, Option.bind_some, he]
                · unfold dragDataReceived
                  rw [hlookup]
                  simp only [ht, hinside, hi, he, Option.bind_eq_bind, Option.bind_some,
                    if_neg hstop]
                  cases s.moveSubtree source targetRow.parent (some e) <;> rfl
            | child =>
                refine Or.inr ⟨some t, some e, hsource, by rw [hrefused, hgo], ?_, ?_⟩
                · rw [dropPlan, ht', hi]
                  simp only [Option.bind_eq_bind, Option.bind_some, he]
                · unfold dragDataReceived
                  rw [hlookup]
                  obtain ⟨rfl, hne⟩ : inside = false ∧ source ≠ t := by simpa using hgo
                  simp only [ht, hinside, hi, he, Option.bind_eq_bind, Option.bind_some, hne,
                    decide_false, Bool.false_and, Bool.or_false, Bool.false_eq_true, if_false]
                  cases s.moveSubtree source (some t) (some e) <;> rfl

/-- Hanging a row elsewhere has no effect, or moves a subtree as a drop on the middle zone does. -/
theorem setScreenParent_cases (h : Settled s.rows) (child : ℕ) (parent : Option ℕ) :
    ((s.setScreenParent child parent).map Prod.fst = some s ∧ (rowGetIndex s.rows child = none ∨
      dropRefused s.rows child (parent.map fun p => (p, .child)) ≠ some false)) ∨
    ∃ newParent insertIndex, child ∈ s.rows.map Line.key ∧
      dropRefused s.rows child (parent.map fun p => (p, .child)) = some false ∧
      dropPlan s.rows (parent.map fun p => (p, .child)) = some (newParent, insertIndex) ∧
      (s.setScreenParent child parent).map Prod.fst =
        s.moveSubtree child newParent insertIndex := by
  have hfst (o : Option TerminalSidebar) :
      (o.map fun s' => (s', true)).map Prod.fst = o := by
    cases o <;> rfl
  rcases lookupRow_cases s child with ⟨hnone, hindex⟩ | ⟨row, hrow, hkey, hlookup⟩
  · refine Or.inl ⟨?_, Or.inl hindex⟩
    unfold setScreenParent
    split
    · rfl
    · rw [hnone]
      rfl
  · have hchild : child ∈ s.rows.map Line.key := hkey ▸ List.mem_map_of_mem hrow
    cases parent with
    | none =>
        refine Or.inr ⟨none, none, hchild, rfl, rfl, ?_⟩
        unfold setScreenParent
        rw [if_neg (by simp), hlookup]
        exact hfst _
    | some p =>
        rcases dropRefused_cases h child p .child with ⟨hp, hrefused⟩ | ⟨parentRow, inside, i, e, hp,
          hinside, hi, he, hrefused⟩
        · refine Or.inl ⟨?_, Or.inr (by rw [Option.map_some, hrefused]; simp)⟩
          unfold setScreenParent
          split
          · rfl
          · rw [hlookup]
            simp only [hp]
            rfl
        · by_cases hself : p = child
          · refine Or.inl ⟨?_, Or.inr (by rw [Option.map_some, hrefused]; simp [hself])⟩
            unfold setScreenParent
            rw [if_pos (by rw [hself])]
            rfl
          · have hself' : ¬ child = p := fun heq => hself heq.symm
            have hsome : ¬ (some p : Option ℕ) = some child := by simpa using hself
            cases inside with
            | true =>
                refine Or.inl ⟨?_, Or.inr (by rw [Option.map_some, hrefused]; simp)⟩
                unfold setScreenParent
                rw [if_neg hsome, hlookup]
                simp only [hp, hinside, Option.bind_eq_bind, Option.bind_some, if_true]
                rfl
            | false =>
                refine Or.inr ⟨some p, some e, hchild, ?_, ?_, ?_⟩
                · rw [Option.map_some, hrefused]
                  simp [hself']
                · have hp' : s.rows.find? (fun r => r.key = p) = some parentRow := hp
                  rw [Option.map_some, dropPlan, hp', hi]
                  simp only [Option.bind_eq_bind, Option.bind_some, he]
                · unfold setScreenParent
                  rw [if_neg hsome, hlookup]
                  simp only [hp, hinside, hi, he, Option.bind_eq_bind, Option.bind_some,
                    Bool.false_eq_true, if_false]
                  exact hfst _

/-- A new shell keeps the parents first. -/
theorem parentsFirst_newShell (h : ParentsFirst s.rows) (screen : ℕ)
    (positionPref : NewTabPosition) : ParentsFirst (windowAddScreen s screen positionPref).rows := by
  rw [windowAddScreen]
  rcases lookupRow_cases s screen with ⟨hnone, hindex⟩ | ⟨row, -, -, hlookup⟩
  · have hnew : screen ∉ s.rows.map Line.key := by
      intro hmem
      obtain ⟨r, hr, rfl⟩ := List.mem_map.mp hmem
      rw [rowGetIndex, List.findIdx?_eq_none_iff] at hindex
      simpa using hindex r hr
    have hrows (position : Option ℕ) : (s.addScreen screen position).rows =
        listBoxInsert s.rows [⟨screen, none⟩] position := by
      rw [addScreen]
      split <;> rfl
    obtain ⟨hinsert, hrest⟩ :=
      listBoxInsert_eq s.rows [⟨screen, none⟩] (newPosition s positionPref)
    rw [hnone, if_neg (by simp), hrows, hinsert]
    rw [← hrest] at h hnew
    exact h.insert hnew
  · rw [hlookup, if_pos Option.isSome_some]
    exact h

/-- So does closing a shell under the condition, and only then. -/
theorem parentsFirst_closeShell_iff (h : ParentsFirst s.rows) (screen : ℕ) :
    ∃ s', s.removeScreen screen = some s' ∧
      (ParentsFirst s'.rows ↔ KeepsParents s (.closeShell screen)) := by
  rcases lookupRow_cases s screen with ⟨hnone, hindex⟩ | ⟨row, hrow, rfl, hlookup⟩
  · refine ⟨s, by rw [removeScreen, hnone], iff_of_true h ?_⟩
    intro i e hi
    rw [hindex] at hi
    cases hi
  · obtain ⟨X, T, Z, hsplit, hindex, hend⟩ := (settled_of_parentsFirst h).exists_block hrow
    rw [removeScreen, hlookup]
    simp only [hindex, hend, Option.bind_eq_bind, Option.bind_some, Option.some.injEq,
      exists_eq_left', below_eq hsplit, take_block hsplit, drop_block hsplit]
    rw [hsplit, List.cons_append] at h
    rw [parentsFirst_hoist_iff h]
    constructor
    · intro hcond i e hi he
      obtain rfl := Option.some.inj (hindex.symm.trans hi)
      obtain rfl := Option.some.inj (hend.symm.trans he)
      rw [drop_block hsplit]
      exact hcond
    · intro hcond
      have hcond' := hcond _ _ hindex hend
      rw [drop_block hsplit] at hcond'
      exact hcond'

/-- A drop or a change of parent that has no effect meets its condition. -/
theorem DropKeeps.of_not {source : ℕ} {target : Option (ℕ × DropZone)}
    (h : rowGetIndex s.rows source = none ∨ dropRefused s.rows source target ≠ some false) :
    DropKeeps s.rows source target := by
  intro hgo newParent insertIndex _
  rcases h with hnone | hrefused
  · exact MoveKeeps.of_none hnone newParent insertIndex
  · exact absurd hgo hrefused

/-- One that moves a subtree has the condition of the move. -/
theorem dropKeeps_iff {source : ℕ} {target : Option (ℕ × DropZone)}
    {newParent insertIndex : Option ℕ} (hgo : dropRefused s.rows source target = some false)
    (hplan : dropPlan s.rows target = some (newParent, insertIndex)) :
    DropKeeps s.rows source target ↔ MoveKeeps s.rows source newParent insertIndex := by
  constructor
  · intro h
    exact h hgo newParent insertIndex hplan
  · intro h _ newParent' insertIndex' hplan'
    obtain ⟨rfl, rfl⟩ := Prod.mk.inj (Option.some.inj (hplan.symm.trans hplan'))
    exact h

/-- So does a drop. -/
theorem parentsFirst_drop_iff (h : ParentsFirst s.rows) (source : ℕ)
    (target : Option (ℕ × DropZone)) :
    ∃ s', s.dragDataReceived source target = some s' ∧
      (ParentsFirst s'.rows ↔ KeepsParents s (.drop source target)) := by
  rcases dragDataReceived_cases (settled_of_parentsFirst h) source target with
    ⟨hsame, hno⟩ | ⟨newParent, insertIndex, hmem, hgo, hplan, heq⟩
  · exact ⟨s, hsame, iff_of_true h (DropKeeps.of_not hno)⟩
  · obtain ⟨row, hrow, rfl⟩ := List.mem_map.mp hmem
    obtain ⟨s', hmove, hiff⟩ := parentsFirst_moveSubtree_iff h hrow newParent insertIndex
    refine ⟨s'.reselect row.key, by rw [heq, hmove]; rfl, ?_⟩
    rw [rows_reselect, hiff]
    exact (dropKeeps_iff hgo hplan).symm

/-- So does hanging a row under another. -/
theorem parentsFirst_setScreenParent_iff (h : ParentsFirst s.rows) (child : ℕ)
    (parent : Option ℕ) :
    ∃ s', (s.setScreenParent child parent).map Prod.fst = some s' ∧
      (ParentsFirst s'.rows ↔ KeepsParents s (.setScreenParent child parent)) := by
  rcases setScreenParent_cases (settled_of_parentsFirst h) child parent with
    ⟨hsame, hno⟩ | ⟨newParent, insertIndex, hmem, hgo, hplan, heq⟩
  · exact ⟨s, hsame, iff_of_true h (DropKeeps.of_not hno)⟩
  · obtain ⟨row, hrow, rfl⟩ := List.mem_map.mp hmem
    obtain ⟨s', hmove, hiff⟩ := parentsFirst_moveSubtree_iff h hrow newParent insertIndex
    refine ⟨s', heq.trans hmove, hiff.trans ?_⟩
    exact (dropKeeps_iff hgo hplan).symm

/-- So does a move left or right. -/
theorem parentsFirst_reorder_iff (h : ParentsFirst s.rows) (screen : ℕ) (direction : Direction) :
    ParentsFirst (s.reorderScreen screen direction).rows ↔
      KeepsParents s (.reorder screen direction) := by
  rcases lookupRow_cases s screen with ⟨hnone, hindex⟩ | ⟨row, hrow, rfl, hlookup⟩
  · have hsame : s.reorderScreen screen direction = s := by
      rw [reorderScreen, hnone]
    rw [hsame]
    refine iff_of_true h fun i hi => ?_
    rw [hindex] at hi
    cases hi
  · obtain ⟨X, Z, hsplit⟩ := List.append_of_mem hrow
    have hnd := h.nodup
    have hindex : rowGetIndex s.rows row.key = some X.length := by
      rw [hsplit] at hnd ⊢
      exact rowGetIndex_of_split hnd
    have hget : s.rows[X.length]? = some row := by
      rw [hsplit, List.getElem?_append_right le_rfl, Nat.sub_self]
      rfl
    have herase : s.rows.eraseIdx X.length = X ++ Z := by
      rw [hsplit, List.eraseIdx_append_of_length_le le_rfl, Nat.sub_self, List.eraseIdx_zero,
        List.tail_cons]
    obtain ⟨k, old⟩ := row
    have hold : ParentsFirst (X ++ (⟨k, old⟩ :: [] ++ Z)) := hsplit ▸ h
    rw [reorderScreen_eq hsplit h.nodup, listBoxInsert]
    have hiff := parentsFirst_relocate_iff (q := old) hold
      (List.take_append_drop (newPos s.rows.length X.length direction) (X ++ Z))
    rw [List.cons_append, List.nil_append] at hiff
    rw [List.singleton_append, hiff, KeepsParents, hindex]
    simp only [Option.mem_def, Option.some.injEq, forall_eq', hget, herase, List.map_nil,
      List.mem_singleton, List.not_mem_nil, false_implies, implies_true, true_and]
    refine and_congr_right fun _ => forall₂_congr fun r _ => ?_
    exact ⟨fun hp heq => hp k heq rfl, fun hp p hpr heq => hp (heq ▸ hpr)⟩

/-- **One step**: it has a result, and the rows stay behind their parents exactly when the step
meets its condition. -/
theorem parentsFirst_step_iff (h : ParentsFirst s.rows) (e : Event) :
    ∃ s', step s e = some s' ∧ (ParentsFirst s'.rows ↔ KeepsParents s e) := by
  cases e with
  | newShell screen positionPref =>
      exact ⟨_, rfl, iff_of_true (parentsFirst_newShell h screen positionPref) trivial⟩
  | closeShell screen => exact parentsFirst_closeShell_iff h screen
  | drop source target => exact parentsFirst_drop_iff h source target
  | setScreenParent child parent => exact parentsFirst_setScreenParent_iff h child parent
  | reorder screen direction => exact ⟨_, rfl, parentsFirst_reorder_iff h screen direction⟩
  | select screen =>
      cases screen with
      | none => exact ⟨_, rfl, iff_of_true h trivial⟩
      | some screen =>
          refine ⟨_, rfl, iff_of_true ?_ trivial⟩
          split
          · exact h
          · exact h

end Steps

/-! ### Runs -/

/-- **The captured tree is launched again all along a run exactly when every step meets its
condition**, in the state in front of it. -/
theorem reproduced_iff_keepsParents (env : Environment) (uuid : ℕ → Text) (screen : ℕ → ScreenInfo)
    (hne : ∀ k, uuid k ≠ []) (huuid : Function.Injective uuid) (events : List Event) :
    (∀ pre, pre <+: events → ∃ s, run pre = some s ∧ Reproduced env uuid screen s.rows) ↔
      ∀ pre e, pre ++ [e] <+: events → ∃ s, run pre = some s ∧ KeepsParents s e := by
  constructor
  · intro h pre e hpre
    obtain ⟨s, hrun, hs⟩ := h pre ((List.prefix_append pre [e]).trans hpre)
    obtain ⟨s', hrun', hs'⟩ := h _ hpre
    obtain ⟨s'', hstep, hiff⟩ := parentsFirst_step_iff (hs.parentsFirst hne huuid) e
    rw [run_append, hrun, Option.bind_some, hstep] at hrun'
    obtain rfl := Option.some.inj hrun'
    exact ⟨s, hrun, hiff.mp (hs'.parentsFirst hne huuid)⟩
  · intro h pre
    -- the rows are behind their parents after every part of the run
    have hfirst : pre <+: events → ∃ s, run pre = some s ∧ ParentsFirst s.rows := by
      induction pre using List.reverseRecOn with
      | nil => exact fun _ => ⟨{}, rfl, List.nodup_nil, fun l hl => absurd hl List.not_mem_nil⟩
      | append_singleton pre e ih =>
          intro hpre
          obtain ⟨s, hrun, hkeeps⟩ := h pre e hpre
          obtain ⟨s', hrun', hs⟩ := ih ((List.prefix_append pre [e]).trans hpre)
          obtain rfl := Option.some.inj (hrun.symm.trans hrun')
          obtain ⟨s', hstep, hiff⟩ := parentsFirst_step_iff hs e
          refine ⟨s', ?_, hiff.mpr hkeeps⟩
          rw [run_append, hrun, Option.bind_some, hstep]
    intro hpre
    obtain ⟨s, hrun, hs⟩ := hfirst hpre
    exact ⟨s, hrun, (reproduced_iff env screen hne huuid hs.nodup).mpr hs⟩

/-- A new id for each row. -/
def countingUuid (k : ℕ) : Text := List.replicate (k + 1) 'a'

/-- No UUID is empty. -/
theorem countingUuid_ne_nil (k : ℕ) : countingUuid k ≠ [] := List.cons_ne_nil _ _

/-- And no two are the same. -/
theorem countingUuid_injective : Function.Injective countingUuid := by
  intro j k h
  have hlen := congrArg List.length h
  rw [countingUuid, countingUuid, List.length_replicate, List.length_replicate] at hlen
  omega

/-- A shell, and a second one that is hung at it. -/
def family : List Event := [.newShell 0 .last, .newShell 1 .last, .setScreenParent 1 (some 0)]

theorem family_reproduced :
    ∃ s, run family = some s ∧ Reproduced {} countingUuid (fun _ => {}) s.rows := by
  refine (reproduced_iff_keepsParents {} countingUuid (fun _ => {}) countingUuid_ne_nil
    countingUuid_injective family).mpr ?_ family (List.prefix_refl _)
  rintro pre e ⟨rest, hrest⟩
  rcases pre with _ | ⟨a, _ | ⟨b, _ | ⟨c, pre⟩⟩⟩
  · obtain ⟨rfl, -⟩ := List.cons.inj hrest
    exact ⟨_, rfl, trivial⟩
  · obtain ⟨rfl, htail⟩ := List.cons.inj hrest
    obtain ⟨rfl, -⟩ := List.cons.inj htail
    exact ⟨_, rfl, trivial⟩
  · obtain ⟨rfl, htail⟩ := List.cons.inj hrest
    obtain ⟨rfl, htail'⟩ := List.cons.inj htail
    obtain ⟨rfl, -⟩ := List.cons.inj htail'
    refine ⟨_, rfl, ?_⟩
    intro _ newParent insertIndex hplan i e hi he
    obtain ⟨rfl, rfl⟩ := Prod.mk.inj (Option.some.inj hplan)
    obtain rfl := Option.some.inj hi
    obtain rfl := Option.some.inj he
    decide
  · have hlen := congrArg List.length hrest
    simp [family] at hlen

/-- The child is moved left, in front of its parent: the launcher makes it a root. -/
theorem movedLeft_not_reproduced :
    (run (family ++ [.reorder 1 .left])).map TerminalSidebar.rows =
        some [⟨1, some 0⟩, ⟨0, none⟩] ∧
      ¬ Reproduced {} countingUuid (fun _ => {}) [⟨1, some 0⟩, ⟨0, none⟩] := by
  refine ⟨by decide, fun h => ?_⟩
  have hfront := h.earlier [] _ _ rfl (by decide)
  exact absurd hfront List.not_mem_nil

end Axan.LinuxSidebar
