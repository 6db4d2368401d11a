import Axan.LinuxStartup.Editor

/-!
# The rows of the editor as a forest

A row whose parent id no row has is a root. `Tree` says that the rows are the pre-order of their
forest; on such lists the walks of the editor find what they look for.

* `desiredOrder_eq` — the traversal finds the pre-order with the same siblings.
* `startupRowDepth_eq`, `startupSubtreeEnd_eq` — depths are cut at 128, and below that a subtree
  ends behind its first row.
-/

namespace Axan.LinuxStartup

open Axan.Base Axan.Base.Forest Axan.Base.Settings
open Axan.LinuxSidebar (LaunchEntry)

/-! ### Parents -/

/-- The parent of a row among rows with the given ids. -/
def treeParent (ids : List Text) (r : StartupRow) : Option Text :=
  if r.parentId ∈ ids then some r.parentId else none

/-- A row as a line of its forest. -/
def treeLine (ids : List Text) (r : StartupRow) : Line Text := ⟨r.id, treeParent ids r⟩

/-- The rows as lines. -/
def treeLines (rows : List StartupRow) : List (Line Text) :=
  rows.map (treeLine (rows.map StartupRow.id))

/-- The rows are the pre-order of their forest. -/
structure Tree (rows : List StartupRow) : Prop where
  nonempty : ∀ r ∈ rows, r.id ≠ []
  preOrder : PreOrder (treeLines rows)

section Parents

variable {rows : List StartupRow}

/-- The keys of the lines are the ids. -/
theorem map_key_treeLines (rows : List StartupRow) :
    (treeLines rows).map Line.key = rows.map StartupRow.id := by
  rw [treeLines, List.map_map]
  rfl

/-- The parent in the tree is the parent id, when a row has it. -/
theorem treeParent_eq_some_iff {ids : List Text} {r : StartupRow} {p : Text} :
    treeParent ids r = some p ↔ r.parentId = p ∧ p ∈ ids := by
  rw [treeParent]
  constructor
  · intro h
    split_ifs at h with hmem
    obtain rfl := Option.some.inj h
    exact ⟨rfl, hmem⟩
  · rintro ⟨rfl, hmem⟩
    exact if_pos hmem

/-- A row is a root when no row has its parent id. -/
theorem treeParent_eq_none_iff {ids : List Text} {r : StartupRow} :
    treeParent ids r = none ↔ r.parentId ∉ ids := by
  rw [treeParent]
  split_ifs with hmem
  · simp [hmem]
  · simp [hmem]

/-- The parent depends on which ids there are. -/
theorem treeParent_congr {ids ids' : List Text} (h : ∀ id, id ∈ ids ↔ id ∈ ids') (r : StartupRow) :
    treeParent ids r = treeParent ids' r := by
  rw [treeParent, treeParent]
  simp only [h]

theorem Tree.nodup (h : Tree rows) : (rows.map StartupRow.id).Nodup := by
  obtain ⟨O, -, hnd, hflat⟩ := preOrder_iff.mp h.preOrder
  rw [← map_key_treeLines, hflat, map_key_flat]
  exact hnd

/-- The known ids are those of the rows. -/
theorem mem_knownIds (hne : ∀ r ∈ rows, r.id ≠ []) {id : Text} :
    id ∈ knownIds rows ↔ id ∈ rows.map StartupRow.id := by
  rw [knownIds, List.mem_filter]
  refine and_iff_left_of_imp fun hmem => ?_
  obtain ⟨r, hr, rfl⟩ := List.mem_map.mp hmem
  simpa using hne r hr

/-- The parent id that is written. -/
theorem promote_eq (hne : ∀ r ∈ rows, r.id ≠ []) (r : StartupRow) :
    promote rows r.parentId = (treeParent (rows.map StartupRow.id) r).getD [] := by
  have hcontains : (knownIds rows).contains r.parentId =
      decide (r.parentId ∈ rows.map StartupRow.id) := by
    rw [List.contains_eq_mem, decide_eq_decide]
    exact mem_knownIds hne
  rw [promote, treeParent, hcontains]
  by_cases hmem : r.parentId ∈ rows.map StartupRow.id
  · simp only [hmem, decide_true, Bool.not_true, Bool.and_false, if_true]
    rfl
  · simp only [hmem, decide_false, Bool.not_false, Bool.and_true, if_false, Option.getD_none]
    split_ifs with hempty
    · rfl
    · simpa using hempty

/-- A parent id is kept when it is known. -/
theorem promote_eq_iff (hne : ∀ r ∈ rows, r.id ≠ []) (r : StartupRow) {p : Text} (hp : p ≠ []) :
    promote rows r.parentId = p ↔ treeParent (rows.map StartupRow.id) r = some p := by
  rw [promote_eq hne]
  cases treeParent (rows.map StartupRow.id) r with
  | none => simpa using hp.symm
  | some q => simp

/-- Else the row is a root. -/
theorem promote_eq_nil_iff (hne : ∀ r ∈ rows, r.id ≠ []) (r : StartupRow) :
    promote rows r.parentId = [] ↔ treeParent (rows.map StartupRow.id) r = none := by
  rw [promote_eq hne]
  cases hparent : treeParent (rows.map StartupRow.id) r with
  | none => simp
  | some q =>
      obtain ⟨-, hmem⟩ := treeParent_eq_some_iff.mp hparent
      obtain ⟨r', hr', rfl⟩ := List.mem_map.mp hmem
      simpa using hne r' hr'

/-- **The traversal finds the pre-order with the same siblings.** -/
theorem desiredOrder_eq {rows' : List StartupRow} (h : Tree rows')
    (hids : (rows.map StartupRow.id).Perm (rows'.map StartupRow.id))
    (hsiblings : ∀ q, rows.filter (fun r => treeParent (rows.map StartupRow.id) r = q) =
      rows'.filter fun r => treeParent (rows.map StartupRow.id) r = q) :
    desiredOrder rows = some rows' := by
  have hne : ∀ r ∈ rows, r.id ≠ [] := by
    intro r hr heq
    have hmem := hids.mem_iff.mp (List.mem_map_of_mem hr)
    obtain ⟨r', hr', hid⟩ := List.mem_map.mp hmem
    exact h.nonempty r' hr' (hid.trans heq)
  have hparent (r : StartupRow) :
      treeParent (rows.map StartupRow.id) r = treeParent (rows'.map StartupRow.id) r :=
    treeParent_congr (fun id => hids.mem_iff) r
  have hlen : rows.length = rows'.length := by
    have := hids.length_eq
    simpa using this
  have hroots : rows.filter (fun r => promote rows r.parentId = []) =
      rows'.filter fun r => (treeLine (rows'.map StartupRow.id) r).parent = none := by
    rw [List.filter_congr fun r _ => decide_eq_decide.mpr (promote_eq_nil_iff hne r), hsiblings]
    exact List.filter_congr fun r _ => by rw [hparent]; rfl
  rw [desiredOrder]
  simp only
  rw [hroots, hlen]
  apply depthFirst_eq h.preOrder
  intro r hr
  have hr' : r.id ≠ [] := h.nonempty r hr
  rw [List.filter_congr fun c _ => decide_eq_decide.mpr (promote_eq_iff hne c hr'), hsiblings]
  exact List.filter_congr fun c _ => by rw [hparent]; rfl

/-- A tree in order is in the desired order. -/
theorem desiredOrder_of_tree (h : Tree rows) : desiredOrder rows = some rows :=
  desiredOrder_eq h (List.Perm.refl _) fun _ => rfl

end Parents

/-! ### A row and its subtree -/

/-- A row of the list: the rows in front of it, below it and behind it. -/
structure Placed (rows : List StartupRow) (RA : List StartupRow) (row : StartupRow)
    (RB RC : List StartupRow) (O A : List (Text × List Text)) (up : List Text)
    (B C : List (Text × List Text)) : Prop where
  outline : IsOutline [] O
  nodup : (O.map Prod.fst).Nodup
  lines : treeLines rows = flat O
  subtree : SubtreeAt O row.id up A B C
  rows_eq : rows = RA ++ row :: (RB ++ RC)
  front : RA.map (treeLine (rows.map StartupRow.id)) = flat A
  parent : treeParent (rows.map StartupRow.id) row = up.head?
  below : RB.map (treeLine (rows.map StartupRow.id)) = flat B
  behind : RC.map (treeLine (rows.map StartupRow.id)) = flat C

/-- Every row has its place in the outline. -/
theorem Tree.exists_placed {rows RA RZ : List StartupRow} {row : StartupRow} (h : Tree rows)
    (hrows : rows = RA ++ row :: RZ) :
    ∃ RB RC O A up B C, RZ = RB ++ RC ∧ Placed rows RA row RB RC O A up B C := by
  obtain ⟨O, hO, hnd, hflat⟩ := preOrder_iff.mp h.preOrder
  have hsplit : treeLines rows = RA.map (treeLine (rows.map StartupRow.id)) ++
      treeLine (rows.map StartupRow.id) row :: RZ.map (treeLine (rows.map StartupRow.id)) := by
    rw [treeLines]
    nth_rewrite 2 [hrows]
    rw [List.map_append, List.map_cons]
  obtain ⟨A, D, rfl, hA, hD⟩ := flat_eq_append (hflat.symm.trans hsplit)
  obtain ⟨up, D, rfl, hup, hD⟩ := flat_eq_cons hD
  obtain ⟨B, C, hsub⟩ := hO.subtreeAt_of_split
  have heq := hsub.eq
  simp only [List.append_cancel_left_eq, List.cons.injEq, true_and] at heq
  subst heq
  obtain ⟨RB, RC, rfl, hRB, hRC⟩ := List.map_eq_append_iff.mp (hD.symm.trans (flat_append B C))
  exact ⟨RB, RC, _, A, up, B, C, rfl, hO, hnd, hflat, hsub, hrows, hA.symm, hup.symm, hRB, hRC⟩

/-! ### Depths -/

section Depths

variable {rows RA RB RC : List StartupRow} {row : StartupRow} {O A B C : List (Text × List Text)}
  {up : List Text}

/-- A row is found by its id. -/
theorem startupBuildIdMap_of_mem (h : Tree rows) {r : StartupRow} (hr : r ∈ rows) :
    startupBuildIdMap rows r.id = some r := by
  have hfound : ∃ r', startupBuildIdMap rows r.id = some r' := by
    rw [← Option.isSome_iff_exists, startupBuildIdMap, List.find?_isSome]
    exact ⟨r, List.mem_reverse.mpr hr, by simpa using h.nonempty r hr⟩
  obtain ⟨r', hr'⟩ := hfound
  have hid := List.find?_some hr'
  have hmem := List.mem_reverse.mp (List.mem_of_find?_eq_some hr')
  simp only [Bool.and_eq_true, decide_eq_true_iff] at hid
  rw [hr', List.inj_on_of_nodup_map h.nodup hmem hr hid.2]

/-- An id of no row is not found. -/
theorem startupBuildIdMap_eq_none {id : Text} (h : id ∉ rows.map StartupRow.id) :
    startupBuildIdMap rows id = none := by
  rw [startupBuildIdMap, List.find?_eq_none]
  intro r hr hfound
  simp only [Bool.and_eq_true, decide_eq_true_iff] at hfound
  exact h (List.mem_map.mpr ⟨r, List.mem_reverse.mp hr, hfound.2⟩)

/-- The parent of a row is the first of its ancestors. -/
theorem treeParent_of_mem (hflat : treeLines rows = flat O) (hnd : (O.map Prod.fst).Nodup)
    {r : StartupRow} (hr : r ∈ rows) {u : List Text} (hu : (r.id, u) ∈ O) :
    treeParent (rows.map StartupRow.id) r = u.head? := by
  have hmem : treeLine (rows.map StartupRow.id) r ∈ flat O := hflat ▸ List.mem_map_of_mem hr
  obtain ⟨⟨a, v⟩, hx, hline⟩ := List.mem_map.mp hmem
  obtain rfl : a = r.id := congrArg Line.key hline
  have hparent : v.head? = treeParent (rows.map StartupRow.id) r := congrArg Line.parent hline
  rw [← hparent, eq_of_mem_of_nodup hnd hx hu]

/-- A depth is cut at the number of steps. -/
theorem walkDepth_eq (h : Tree rows) (hO : IsOutline [] O) (hnd : (O.map Prod.fst).Nodup)
    (hflat : treeLines rows = flat O) (n : ℕ) {r : StartupRow} (hr : r ∈ rows) {u : List Text}
    (hu : (r.id, u) ∈ O) : walkDepth rows n r.parentId = min n u.length := by
  induction n generalizing r u with
  | zero => simp [walkDepth]
  | succ n ih =>
      have hparent := treeParent_of_mem hflat hnd hr hu
      rw [walkDepth]
      cases u with
      | nil =>
          have hno : r.parentId ∉ rows.map StartupRow.id := treeParent_eq_none_iff.mp hparent
          rw [startupBuildIdMap_eq_none hno]
          simp
      | cons q T =>
          obtain ⟨hid, hmem⟩ := treeParent_eq_some_iff.mp hparent
          obtain ⟨r', hr', rfl⟩ := List.mem_map.mp hmem
          rw [hid, if_neg (by simpa using h.nonempty r' hr'), startupBuildIdMap_of_mem h hr']
          simp only
          rw [ih hr' (hO.mem_of_suffix' hu List.suffix_rfl), List.length_cons]
          omega

/-- The depth is the number of ancestors, up to the limit. -/
theorem startupRowDepth_eq (h : Tree rows) (hO : IsOutline [] O) (hnd : (O.map Prod.fst).Nodup)
    (hflat : treeLines rows = flat O) {r : StartupRow} (hr : r ∈ rows) {u : List Text}
    (hu : (r.id, u) ∈ O) : startupRowDepth rows r = min 128 u.length :=
  walkDepth_eq h hO hnd hflat 128 hr hu

/-- The row is one of the rows. -/
theorem Placed.mem (hp : Placed rows RA row RB RC O A up B C) : row ∈ rows := by
  rw [hp.rows_eq]
  exact List.mem_append_right _ List.mem_cons_self

/-- The rows below and behind a row are nodes below and behind its node. -/
theorem exists_node {R : List StartupRow} {ids : List Text} {D : List (Text × List Text)}
    (hR : R.map (treeLine ids) = flat D) {r : StartupRow} (hr : r ∈ R) : ∃ u, (r.id, u) ∈ D := by
  have hmem : treeLine ids r ∈ flat D := hR ▸ List.mem_map_of_mem hr
  obtain ⟨⟨a, u⟩, hx, hline⟩ := List.mem_map.mp hmem
  obtain rfl : a = r.id := congrArg Line.key hline
  exact ⟨u, hx⟩

/-- The rows of its subtree are deeper. -/
theorem Placed.depth_below (hp : Placed rows RA row RB RC O A up B C) (h : Tree rows)
    {r : StartupRow} (hr : r ∈ RB) : min 128 (up.length + 1) ≤ startupRowDepth rows r := by
  obtain ⟨u, hu⟩ := exists_node hp.below hr
  have hmem : r ∈ rows := by
    rw [hp.rows_eq]
    exact List.mem_append_right _ (List.mem_cons_of_mem _ (List.mem_append_left _ hr))
  have huO : (r.id, u) ∈ O := by
    rw [hp.subtree.eq]
    exact List.mem_append_right _ (List.mem_cons_of_mem _ (List.mem_append_left _ hu))
  have hlen := (hp.subtree.below (r.id, u) hu).length_le
  rw [startupRowDepth_eq h hp.outline hp.nodup hp.lines hmem huO]
  simp only [List.length_cons] at hlen
  omega

/-- The row behind the subtree is not. -/
theorem Placed.depth_behind (hp : Placed rows RA row RB RC O A up B C) (h : Tree rows)
    {r : StartupRow} (hr : r ∈ RC.head?) : startupRowDepth rows r ≤ min 128 up.length := by
  obtain ⟨RC', rfl⟩ : ∃ RC', RC = r :: RC' := by
    cases RC with
    | nil => cases hr
    | cons r' RC' =>
        obtain rfl := Option.some.inj hr
        exact ⟨RC', rfl⟩
  obtain ⟨u, C', rfl, hu, -⟩ := flat_eq_cons (x := treeLine _ r) hp.behind.symm
  have hmem : r ∈ rows := by
    rw [hp.rows_eq]
    exact List.mem_append_right _ (List.mem_cons_of_mem _ (List.mem_append_right _ List.mem_cons_self))
  have huO : (r.id, u) ∈ O := by
    rw [hp.subtree.eq]
    exact List.mem_append_right _ (List.mem_cons_of_mem _ (List.mem_append_right _ List.mem_cons_self))
  have hlen := hp.subtree.behind.1.length_le
  rw [startupRowDepth_eq h hp.outline hp.nodup hp.lines hmem huO]
  omega

/-- The depth of the row. -/
theorem Placed.depth_eq (hp : Placed rows RA row RB RC O A up B C) (h : Tree rows) :
    startupRowDepth rows row = min 128 up.length :=
  startupRowDepth_eq h hp.outline hp.nodup hp.lines hp.mem hp.subtree.mem

/-- The row at the split. -/
theorem getElem?_split (RA RZ : List StartupRow) (row : StartupRow) :
    (RA ++ row :: RZ)[RA.length]? = some row := by
  rw [List.getElem?_append_right le_rfl, Nat.sub_self]
  rfl

theorem drop_split (RA RZ : List StartupRow) (row : StartupRow) :
    (RA ++ row :: RZ).drop (RA.length + 1) = RZ := by
  rw [← List.drop_drop, List.drop_left]
  rfl

/-- **Below depth 128 the whole subtree is found; from there on only its first row.** -/
theorem startupSubtreeEnd_eq (hp : Placed rows RA row RB RC O A up B C) (h : Tree rows) :
    startupSubtreeEnd rows RA.length =
      RA.length + 1 + (if startupRowDepth rows row < 128 then RB.length else 0) := by
  have hget : rows[RA.length]? = some row := by
    rw [hp.rows_eq]
    exact getElem?_split RA (RB ++ RC) row
  have hdrop : rows.drop (RA.length + 1) = RB ++ RC := by
    rw [hp.rows_eq]
    exact drop_split RA (RB ++ RC) row
  have hdepth := hp.depth_eq h
  rw [startupSubtreeEnd, hget]
  simp only [hdrop]
  congr 1
  split_ifs with hcut
  · -- the rows below are deeper, the next is not
    have hB : ∀ r ∈ RB, (!decide (startupRowDepth rows r ≤ startupRowDepth rows row)) = true := by
      intro r hr
      have hle := hp.depth_below h hr
      simp only [Bool.not_eq_true', decide_eq_false_iff_not]
      omega
    rw [List.takeWhile_append_of_pos hB, List.length_append]
    have hC : RC.takeWhile (fun r => !decide (startupRowDepth rows r ≤ startupRowDepth rows row)) =
        [] := by
      cases RC with
      | nil => rfl
      | cons r RC' =>
          have hle := hp.depth_behind h (r := r) rfl
          apply List.takeWhile_cons_of_neg
          simp only [Bool.not_eq_true', decide_eq_false_iff_not, not_not]
          omega
    rw [hC]
    rfl
  · -- no depth is over 128
    have hstop : (RB ++ RC).takeWhile
        (fun r => !decide (startupRowDepth rows r ≤ startupRowDepth rows row)) = [] := by
      cases hRBC : RB ++ RC with
      | nil => rfl
      | cons r R =>
          have hr : r ∈ rows := by
            rw [hp.rows_eq, hRBC]
            exact List.mem_append_right _ (List.mem_cons_of_mem _ List.mem_cons_self)
          obtain ⟨u, hu⟩ := exists_node (R := rows) hp.lines hr
          have hle := startupRowDepth_eq h hp.outline hp.nodup hp.lines hr hu
          apply List.takeWhile_cons_of_neg
          simp only [Bool.not_eq_true', decide_eq_false_iff_not, not_not]
          omega
    rw [hstop]
    rfl

end Depths

end Axan.LinuxStartup
