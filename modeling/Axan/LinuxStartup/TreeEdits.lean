import Axan.Base.Graft
import Axan.LinuxStartup.Consistency

/-!
# Indent, outdent and moves as edits of the forest

On rows in pre-order the row and the rows below it are one run. Indent and outdent change a parent
id and leave the rest to the traversal; moves look for ranges of depths and for equal strings.

* `Relocated` — the run of a row goes elsewhere, and everything else stays as it is.
* `edits_tree` — **each button relocates the run of its row to where the tree edit puts it**; move
  up and move down are inverse to each other.
-/

namespace Axan.LinuxStartup

open Axan.Base Axan.Base.Forest Axan.Base.Settings

/-! ### Rows in pre-order -/

/-- The rows are the pre-order of a forest: the ids are distinct and not empty, and every parent id
is the id of a row. -/
structure Ordered (rows : List StartupRow) : Prop where
  nonempty : ∀ r ∈ rows, r.id ≠ []
  preOrder : PreOrder (rows.map rowLine)

/-- No row has more than so many rows above it. -/
def Nested (rows : List StartupRow) (levels : ℕ) : Prop :=
  ∀ r ∈ rows, walkDepth rows (levels + 1) r.parentId ≤ levels

/-- A row and all rows below it, in one run. -/
structure Block (rows X : List StartupRow) (row : StartupRow) (B Y : List StartupRow) : Prop where
  eq : rows = X ++ (row :: B ++ Y)
  below : ∀ r ∈ B, Below (rows.map rowLine) r.id row.id
  outside : ∀ r ∈ X ++ Y, ¬Below (rows.map rowLine) r.id row.id

/-- The run of a row goes elsewhere. The rows below it come along, and every other row keeps its
parent and its place among the others. -/
structure Relocated (rows rows' X : List StartupRow) (row : StartupRow) (B Y X' : List StartupRow)
    (row' : StartupRow) (Y' : List StartupRow) : Prop where
  start : Block rows X row B Y
  result : Block rows' X' row' B Y'
  others : X' ++ Y' = X ++ Y
  ordered : Ordered rows'
  earlier : ∀ P r Z, rows' = P ++ r :: Z → r.parentId ≠ [] → r.parentId ∈ P.map StartupRow.id

/-- The runs of two siblings, one right behind the other. -/
structure Adjacent (rows X : List StartupRow) (a : StartupRow) (A : List StartupRow)
    (b : StartupRow) (B Y : List StartupRow) : Prop where
  first : Block rows X a A (b :: B ++ Y)
  second : Block rows (X ++ a :: A) b B Y
  siblings : a.parentId = b.parentId

section Rows

variable {rows rows' X B Y X' Y' : List StartupRow} {row row' : StartupRow}

namespace Ordered

/-- The rows are a tree. -/
theorem tree (h : Ordered rows) : Tree rows :=
  ⟨h.nonempty, (treeLines_eq h.nonempty h.preOrder).symm ▸ h.preOrder⟩

/-- The parent in the tree is the parent id. -/
theorem treeParent_eq (h : Ordered rows) {r : StartupRow} (hr : r ∈ rows) :
    treeParent (rows.map StartupRow.id) r = LinuxSidebar.nonEmpty r.parentId := by
  have hlines := treeLines_eq h.nonempty h.preOrder
  rw [treeLines, List.map_inj_left] at hlines
  exact congrArg Line.parent (hlines r hr)

/-- A parent id is that of a row. -/
theorem parentId_mem (h : Ordered rows) {r : StartupRow} (hr : r ∈ rows) (hparent : r.parentId ≠ []) :
    r.parentId ∈ rows.map StartupRow.id := by
  have hsome : treeParent (rows.map StartupRow.id) r = some r.parentId := by
    rw [h.treeParent_eq hr, LinuxSidebar.nonEmpty, if_neg (by simpa using hparent)]
  exact (treeParent_eq_some_iff.mp hsome).2

/-- Rows that hang at the same row name the same parent. -/
theorem parentId_eq (h : Ordered rows) {r q : StartupRow} (hr : r ∈ rows) (hq : q ∈ rows)
    (hsame : treeParent (rows.map StartupRow.id) r = treeParent (rows.map StartupRow.id) q) :
    r.parentId = q.parentId := by
  rw [h.treeParent_eq hr, h.treeParent_eq hq, LinuxSidebar.nonEmpty, LinuxSidebar.nonEmpty] at hsame
  split_ifs at hsame with hr' hq' hq'
  · rw [List.isEmpty_iff.mp hr', List.isEmpty_iff.mp hq']
  · exact Option.some.inj hsame

/-- A tree without dangling parent ids. -/
theorem of_tree (h : Tree rows)
    (hparents : ∀ r ∈ rows, r.parentId ≠ [] → r.parentId ∈ rows.map StartupRow.id) :
    Ordered rows := by
  refine ⟨h.nonempty, ?_⟩
  have hlines : treeLines rows = rows.map rowLine := by
    apply List.map_congr_left
    intro r hr
    refine congrArg (Line.mk r.id) ?_
    by_cases hroot : r.parentId = []
    · rw [hroot, treeParent_eq_none_iff.mpr]
      · rfl
      · rw [hroot]
        intro hmem
        obtain ⟨r', hr', hid⟩ := List.mem_map.mp hmem
        exact h.nonempty r' hr' hid
    · rw [treeParent_eq_some_iff.mpr ⟨rfl, hparents r hr hroot⟩, LinuxSidebar.nonEmpty,
        if_neg (by simpa using hroot)]
  rw [← hlines]
  exact h.preOrder

/-- A parent is in front of its children. -/
theorem earlier (h : Ordered rows) (P : List StartupRow) (r : StartupRow) (Z : List StartupRow)
    (hrows : rows = P ++ r :: Z) (hparent : r.parentId ≠ []) :
    r.parentId ∈ P.map StartupRow.id := by
  have hpre := h.preOrder
  rw [hrows, List.map_append, List.map_cons] at hpre
  have hsome : (rowLine r).parent = some r.parentId := if_neg (by simpa using hparent)
  have hmem := hpre.parent_front hsome
  rw [List.map_map] at hmem
  exact hmem

end Ordered

/-! ### Runs -/

/-- The place of a row, as a block. -/
theorem Placed.block {RA RB RC : List StartupRow} {O A B C : List (Text × List Text)}
    {up : List Text} (hp : Placed rows RA row RB RC O A up B C) (h : Ordered rows) :
    Block rows RA row RB RC := by
  have hlines : rows.map rowLine = flat O := by
    rw [← treeLines_eq h.nonempty h.preOrder, hp.lines]
  refine ⟨hp.rows_eq, fun r hr => ?_, fun r hr => ?_⟩
  · obtain ⟨u, hu⟩ := exists_node hp.below hr
    rw [hlines]
    exact hp.subtree.below_of_mem hp.outline hp.nodup hu
  · rw [hlines]
    rcases List.mem_append.mp hr with hr | hr
    · obtain ⟨u, hu⟩ := exists_node hp.front hr
      exact hp.subtree.not_below hp.outline hp.nodup (List.mem_append_left _ hu)
    · obtain ⟨u, hu⟩ := exists_node hp.behind hr
      exact hp.subtree.not_below hp.outline hp.nodup (List.mem_append_right _ hu)

/-- The run of a row as a subtree of the outline. -/
theorem Block.exists_placed (hb : Block rows X row B Y) (h : Ordered rows) :
    ∃ O A up B' C, Placed rows X row B Y O A up B' C := by
  obtain ⟨RB, RC, O, A, up, B', C, hsplit, hp⟩ := h.tree.exists_placed hb.eq
  have hb' := hp.block h
  obtain ⟨rfl, rfl⟩ := append_unique (P := fun r => Below (rows.map rowLine) r.id row.id) hsplit
    hb.below (fun r hr => hb.outside r (List.mem_append_right _ (List.mem_of_mem_head? hr)))
    hb'.below fun r hr => hb'.outside r (List.mem_append_right _ (List.mem_of_mem_head? hr))
  exact ⟨O, A, up, B', C, hp⟩

/-- **A run that went elsewhere in a tree**, with a parent that is there. -/
theorem relocated_of_tree (h : Ordered rows) (hb : Block rows X row B Y) (htree : Tree rows')
    (heq : rows' = X' ++ (row' :: B ++ Y')) (hid : row'.id = row.id) (hothers : X' ++ Y' = X ++ Y)
    (hparent : row'.parentId ≠ [] → row'.parentId ∈ rows.map StartupRow.id) :
    Relocated rows rows' X row B Y X' row' Y' := by
  have hmem : ∀ r : StartupRow, r ∈ X' ++ Y' ↔ r ∈ X ++ Y := fun r => by rw [hothers]
  simp only [List.mem_append] at hmem
  have hrows' : ∀ r, r ∈ rows' ↔ r = row' ∨ r ∈ B ∨ r ∈ X ∨ r ∈ Y := by
    intro r
    rw [heq, ← hmem]
    simp only [List.mem_append, List.mem_cons]
    tauto
  have hrows : ∀ r, r ∈ rows ↔ r = row ∨ r ∈ B ∨ r ∈ X ∨ r ∈ Y := by
    intro r
    rw [hb.eq]
    simp only [List.mem_append, List.mem_cons]
    tauto
  have hids : ∀ id, id ∈ rows.map StartupRow.id → id ∈ rows'.map StartupRow.id := by
    intro id hmem
    obtain ⟨r, hr, rfl⟩ := List.mem_map.mp hmem
    rcases (hrows r).mp hr with rfl | hr
    · exact hid ▸ List.mem_map_of_mem ((hrows' row').mpr (Or.inl rfl))
    · exact List.mem_map_of_mem ((hrows' r).mpr (Or.inr hr))
  have hordered : Ordered rows' := by
    refine .of_tree htree fun r hr hne => hids _ ?_
    rcases (hrows' r).mp hr with rfl | hr
    · exact hparent hne
    · exact h.parentId_mem ((hrows r).mpr (Or.inr hr)) hne
  -- only the row itself may hang elsewhere
  have hother : ∀ r, r.id ≠ row.id → (r ∈ rows' ↔ r ∈ rows) := by
    intro r hne
    have hne' : r ≠ row' := fun hr => hne (hr ▸ hid)
    have hne'' : r ≠ row := fun hr => hne (hr ▸ rfl)
    rw [hrows', hrows, or_iff_right hne', or_iff_right hne'']
  have hhangs : ∀ i j, i ≠ row.id →
      (HangsAt (rows.map rowLine) i j ↔ HangsAt (rows'.map rowLine) i j) := by
    intro i j hi
    constructor
    · rintro ⟨l, hl, rfl, hp⟩
      obtain ⟨r, hr, rfl⟩ := List.mem_map.mp hl
      exact ⟨_, List.mem_map_of_mem ((hother r hi).mpr hr), rfl, hp⟩
    · rintro ⟨l, hl, rfl, hp⟩
      obtain ⟨r, hr, rfl⟩ := List.mem_map.mp hl
      exact ⟨_, List.mem_map_of_mem ((hother r hi).mp hr), rfl, hp⟩
  refine ⟨hb, ⟨heq, fun r hr => ?_, fun r hr => ?_⟩, hothers, hordered, hordered.earlier⟩
  · rw [hid, ← below_congr hhangs]
    exact hb.below r hr
  · rw [hid, ← below_congr hhangs]
    exact hb.outside r (hothers ▸ hr)

end Rows

/-! ### Indent and outdent -/

section Parents

variable {s : Editor} {X Z : List StartupRow} {prev row : StartupRow}

/-- Indenting moves the subtree under the sibling in front. -/
theorem indent_relocates (h : Ordered s.rows) (hrows : s.rows = X ++ prev :: row :: Z) :
    ∃ B Y s', s.step (.indent row.id) = some s' ∧
      Relocated s.rows s'.rows (X ++ [prev]) row B Y (X ++ [prev])
        { row with parentId := prev.id } Y := by
  obtain ⟨htree, hstep⟩ := step_indent h.tree hrows
  have hsplit : s.rows = (X ++ [prev]) ++ row :: Z := by
    rw [hrows]
    simp
  obtain ⟨B, Y, O, A, up, B', C, rfl, hp⟩ := h.tree.exists_placed hsplit
  refine ⟨B, Y, _, hstep, relocated_of_tree h (hp.block h) htree ?_ rfl rfl fun _ => ?_⟩
  · exact hp.setParentId_eq h.tree prev.id
  · rw [hrows]
    simp

/-- A row is not its own parent. -/
theorem Ordered.parentId_ne (h : Ordered s.rows) (hrow : row ∈ s.rows) : row.parentId ≠ row.id := by
  intro hself
  obtain ⟨RA, RZ, hrows⟩ := List.append_of_mem hrow
  obtain ⟨RB, RC, O, A, up, B, C, rfl, hp⟩ := h.tree.exists_placed hrows
  have hparent : treeParent (s.rows.map StartupRow.id) row = some row.id :=
    treeParent_eq_some_iff.mpr ⟨hself, List.mem_map_of_mem hrow⟩
  exact hp.outline.not_mem_self hp.nodup hp.subtree.mem
    (List.mem_of_mem_head? (hp.parent.symm.trans hparent))

/-- The run of the parent of a row, cut at the run of the row. -/
theorem exists_parent_block (h : Ordered s.rows) (hrow : row ∈ s.rows) (hroot : row.parentId ≠ []) :
    ∃ P parent A Z, s.rows = P ++ parent :: (A ++ row :: Z) ∧ parent.id = row.parentId ∧
      ∃ Q R, Block s.rows P parent (A ++ row :: Q) R ∧ Z = Q ++ R := by
  obtain ⟨parent, hparent, hid⟩ := List.mem_map.mp (h.parentId_mem hrow hroot)
  obtain ⟨P, PZ, hrows⟩ := List.append_of_mem hparent
  obtain ⟨Q, R, O, A, up, B, C, rfl, hp⟩ := h.tree.exists_placed hrows
  have hb := hp.block h
  -- the row is below its parent
  have hbelow : Below (s.rows.map rowLine) row.id parent.id := by
    refine Relation.ReflTransGen.single ⟨rowLine row, List.mem_map_of_mem hrow, rfl, ?_⟩
    rw [hid]
    exact if_neg (by simpa using hroot)
  have hQ : row ∈ Q := by
    have hmem := hrow
    rw [hrows] at hmem
    simp only [List.mem_append, List.mem_cons] at hmem
    rcases hmem with hX | rfl | hQ | hR
    · exact absurd hbelow (hb.outside row (List.mem_append_left _ hX))
    · exact absurd hid.symm (h.parentId_ne hrow)
    · exact hQ
    · exact absurd hbelow (hb.outside row (List.mem_append_right _ hR))
  obtain ⟨A', Q', rfl⟩ := List.append_of_mem hQ
  refine ⟨P, parent, A', Q' ++ R, ?_, hid, Q', R, hb, rfl⟩
  rw [hrows]
  simp

/-- Outdenting moves it behind the subtree of the parent. -/
theorem outdent_relocates (h : Ordered s.rows) (hrow : row ∈ s.rows) (hroot : row.parentId ≠ []) :
    ∃ P parent A B C Y s', parent.id = row.parentId ∧
      Block s.rows P parent (A ++ (row :: B ++ C)) Y ∧ s.step (.outdent row.id) = some s' ∧
      Relocated s.rows s'.rows (P ++ parent :: A) row B (C ++ Y) (P ++ parent :: (A ++ C))
        { row with parentId := parent.parentId } Y := by
  obtain ⟨P, parent, A, Z, hrows, hid, Q, R, hb, rfl⟩ := exists_parent_block h hrow hroot
  have hparent : parent ∈ s.rows := by
    rw [hrows]
    simp
  have hsplit : s.rows = (P ++ parent :: A) ++ row :: (Q ++ R) := by
    rw [hrows]
    simp
  obtain ⟨B, RZ, O, A', up, B', C', hZ, hp⟩ := h.tree.exists_placed hsplit
  obtain ⟨C, Y, rows', rfl, hC, hY, heq, hdesired, htree, -⟩ :=
    tree_outdent_split hp h.tree hparent hid.symm
  rw [treeLines_eq h.nonempty h.preOrder] at hC hY
  have hgrand := getD_parentId_of_mem h.tree hparent
  rw [hid] at hgrand
  -- what is left of the run of the parent is what the traversal puts in front of the row
  have hbelow : Below (s.rows.map rowLine) row.id parent.id := hb.below row (by simp)
  have hBC : ∀ r ∈ B ++ C, Below (s.rows.map rowLine) r.id parent.id := by
    intro r hr
    rcases List.mem_append.mp hr with hr | hr
    · exact ((hp.block h).below r hr).trans hbelow
    · exact hC r hr
  obtain ⟨rfl, rfl⟩ := append_unique (P := fun r => Below (s.rows.map rowLine) r.id parent.id)
    (hZ.trans (List.append_assoc B C Y).symm) (fun r hr => hb.below r (by simp [hr]))
    (fun r hr => hb.outside r (List.mem_append_right _ (List.mem_of_mem_head? hr))) hBC hY
  refine ⟨P, parent, A, B, C, R, _, hid, hb, step_outdent h.tree hsplit hroot hgrand hdesired,
    relocated_of_tree h (hp.block h) htree ?_ rfl (by simp)
      fun hne => h.parentId_mem (r := parent) hparent hne⟩
  rw [heq]
  simp

end Parents

/-! ### Moves -/

section Moves

variable {rows X A B M N Y : List StartupRow} {a b : StartupRow}

/-- The run of a row ends where the nearest sibling starts. -/
theorem adjacent_of_nearest (h : Ordered rows) (hrows : rows = X ++ a :: (M ++ b :: N))
    (hsiblings : a.parentId = b.parentId) (hM : ∀ r ∈ M, r.parentId ≠ a.parentId) :
    ∃ B Y, N = B ++ Y ∧ Adjacent rows X a M b B Y := by
  have hsub : ∀ r ∈ M, r ∈ rows := by
    intro r hr
    rw [hrows]
    simp [hr]
  have hmem : a ∈ rows ∧ b ∈ rows := by
    rw [hrows]
    simp
  obtain ⟨RB, RC, O, oA, up, oB, oC, hsplit, hp⟩ := h.tree.exists_placed hrows
  have hflat : flat (oB ++ oC) = M.map (treeLine (rows.map StartupRow.id)) ++
      treeLine (rows.map StartupRow.id) b :: N.map (treeLine (rows.map StartupRow.id)) := by
    rw [flat_append, ← hp.below, ← hp.behind, ← List.map_append, ← hsplit, List.map_append,
      List.map_cons]
  obtain ⟨oM, D, hBC, hoM, hD⟩ := flat_eq_append hflat
  obtain ⟨v, oN, rfl, hv, hoN⟩ := flat_eq_cons hD
  have hsame : treeParent (rows.map StartupRow.id) b = treeParent (rows.map StartupRow.id) a := by
    rw [h.treeParent_eq hmem.1, h.treeParent_eq hmem.2, hsiblings]
  have hbO : (b.id, v) ∈ O := by
    rw [hp.subtree.eq, hBC]
    simp [treeLine]
  obtain rfl : v = up :=
    hp.outline.eq_of_head? hp.nodup hbO hp.subtree.mem (hv.trans (hsame.trans hp.parent))
  obtain ⟨rfl, hoC⟩ := hp.subtree.eq_of_next_sibling hp.nodup hBC fun r hr hhead => by
    have hline : line r ∈ M.map (treeLine (rows.map StartupRow.id)) :=
      hoM ▸ List.mem_map_of_mem hr
    obtain ⟨q, hq, hqr⟩ := List.mem_map.mp hline
    have hqa : treeParent (rows.map StartupRow.id) q = treeParent (rows.map StartupRow.id) a :=
      (congrArg Line.parent hqr).trans (hhead.trans hp.parent.symm)
    exact hM q hq (h.parentId_eq (hsub q hq) hmem.1 hqa)
  -- the rows below the first sibling are as many as those in front of the second
  have hlen : M.length = RB.length := by
    have hM' := congrArg List.length hoM
    have hB' := congrArg List.length hp.below
    rw [length_flat, List.length_map] at hM' hB'
    exact hM'.symm.trans hB'.symm
  obtain ⟨rfl, rfl⟩ := List.append_inj hsplit hlen
  have hsplit' : rows = (X ++ a :: M) ++ b :: N := by
    rw [hrows]
    simp
  obtain ⟨B, Y, O', A', up', B', C', rfl, hp'⟩ := h.tree.exists_placed hsplit'
  exact ⟨B, Y, rfl, hp.block h, hp'.block h, hsiblings⟩

/-- Between two siblings that follow each other no row names their parent. -/
theorem Adjacent.parentId_ne (hadj : Adjacent rows X a A b B Y) (h : Ordered rows) :
    ∀ r ∈ A, r.parentId ≠ a.parentId := by
  intro r hr heq
  obtain ⟨O, oA, up, oB, oC, hp⟩ := hadj.first.exists_placed h
  have hmem : r ∈ rows := by
    rw [hadj.first.eq]
    simp [hr]
  obtain ⟨u, hu⟩ := exists_node hp.below hr
  have huO : (r.id, u) ∈ O := by
    rw [hp.subtree.eq]
    simp [hu]
  have hhead : u.head? = up.head? := by
    rw [← treeParent_of_mem hp.lines hp.nodup hmem huO, ← hp.parent, h.treeParent_eq hmem,
      h.treeParent_eq hp.mem, heq]
  have hsame : u = up := hp.outline.eq_of_head? hp.nodup huO hp.subtree.mem hhead
  have hlen : (a.id :: up).length ≤ u.length := (hp.subtree.below (r.id, u) hu).length_le
  rw [hsame, List.length_cons] at hlen
  omega

/-- A subtree that starts above depth 128, or is one row, is found. -/
def Found (rows : List StartupRow) : Prop :=
  ∀ r ∈ rows, startupRowDepth rows r < 128 ∨ Leaf rows r.id

/-- A tree that is not too deep is found. -/
theorem found_of_nested (h : Ordered rows) (hnested : Nested rows 128) : Found rows := by
  intro r hr
  by_contra hcon
  rw [not_or, Nat.not_lt] at hcon
  obtain ⟨hdeep, hleaf⟩ := hcon
  simp only [Leaf, not_forall, not_not] at hleaf
  obtain ⟨c, hc, hparent⟩ := hleaf
  -- a child has one row more above it
  have hwalk := hnested c hc
  rw [walkDepth, hparent, if_neg (by simpa using h.nonempty r hr),
    startupBuildIdMap_of_mem h.tree hr] at hwalk
  rw [startupRowDepth] at hdeep
  simp only at hwalk
  omega

/-- Looking up a row does not depend on the order. -/
theorem startupBuildIdMap_perm {rows' : List StartupRow} (h : Tree rows) (h' : Tree rows')
    (hperm : rows'.Perm rows) (id : Text) :
    startupBuildIdMap rows' id = startupBuildIdMap rows id := by
  by_cases hmem : id ∈ rows.map StartupRow.id
  · obtain ⟨r, hr, rfl⟩ := List.mem_map.mp hmem
    rw [startupBuildIdMap_of_mem h hr, startupBuildIdMap_of_mem h' (hperm.mem_iff.mpr hr)]
  · rw [startupBuildIdMap_eq_none hmem,
      startupBuildIdMap_eq_none fun hin => hmem ((hperm.map _).mem_iff.mp hin)]

/-- The order of the rows does not matter for the depths. -/
theorem Found.perm {rows' : List StartupRow} (hfound : Found rows) (h : Tree rows) (h' : Tree rows')
    (hperm : rows'.Perm rows) : Found rows' := by
  have hwalk : ∀ n pid, walkDepth rows' n pid = walkDepth rows n pid := by
    intro n
    induction n with
    | zero => exact fun _ => rfl
    | succ n ih =>
        intro pid
        rw [walkDepth, walkDepth, startupBuildIdMap_perm h h' hperm]
        simp only [ih]
  intro r hr
  refine (hfound r (hperm.mem_iff.mp hr)).imp (fun hlt => ?_) fun hleaf c hc => ?_
  · rwa [startupRowDepth, hwalk]
  · exact hleaf c (hperm.mem_iff.mp hc)

/-- **Siblings that follow each other change places.** -/
theorem Adjacent.swap (hadj : Adjacent rows X a A b B Y) (h : Ordered rows) :
    Relocated rows (X ++ (b :: B ++ (a :: A ++ Y))) (X ++ a :: A) b B Y X b (a :: A ++ Y) ∧
      Relocated rows (X ++ (b :: B ++ (a :: A ++ Y))) X a A (b :: B ++ Y) (X ++ b :: B) a Y ∧
      Adjacent (X ++ (b :: B ++ (a :: A ++ Y))) X b B a A Y := by
  obtain ⟨O, oA, up, oB, oC, hp⟩ := hadj.second.exists_placed h
  have htree := tree_moveFront hp h.tree rfl hadj.siblings
  have hb := relocated_of_tree h hadj.second htree rfl rfl (by simp) (h.parentId_mem hp.mem)
  have ha : Relocated rows (X ++ (b :: B ++ (a :: A ++ Y))) X a A (b :: B ++ Y) (X ++ b :: B) a Y :=
    relocated_of_tree h hadj.first htree (by simp) rfl (by simp)
      (h.parentId_mem (by rw [hadj.first.eq]; simp))
  exact ⟨hb, ha, hb.result, ha.result, hadj.siblings.symm⟩

/-- The sibling in front is the last one with the parent. -/
theorem siblingBefore_split {p : Text} (hA : ∀ r ∈ A, r.parentId ≠ p) (ha : a.parentId = p)
    (Z : List StartupRow) :
    siblingBefore (X ++ a :: (A ++ Z)) p (X.length + 1 + A.length) = some X.length := by
  induction A using List.reverseRecOn generalizing Z with
  | nil =>
      rw [List.length_nil, Nat.add_zero, siblingBefore, getElem?_split]
      exact if_pos ha
  | append_singleton A r ih =>
      have hget : (X ++ a :: (A ++ [r] ++ Z))[X.length + 1 + A.length]? = some r := by
        have hsplit : X ++ a :: (A ++ [r] ++ Z) = (X ++ a :: A) ++ r :: Z := by simp
        have hlen : X.length + 1 + A.length = (X ++ a :: A).length := by
          rw [List.length_append, List.length_cons]
          omega
        rw [hsplit, hlen, getElem?_split]
      have hlist : X ++ a :: (A ++ [r] ++ Z) = X ++ a :: (A ++ (r :: Z)) := by simp
      rw [List.length_append, List.length_singleton, ← Nat.add_assoc, siblingBefore, hget]
      simp only
      rw [if_neg (hA r (by simp)), hlist]
      exact ih (fun r' hr' => hA r' (List.mem_append_left _ hr')) (r :: Z)

end Moves

section Steps

variable {s : Editor} {X A B Y : List StartupRow} {a b : StartupRow}

/-- The editor after two siblings have changed places. -/
def swapped (X : List StartupRow) (a : StartupRow) (A : List StartupRow) (b : StartupRow)
    (B Y : List StartupRow) : Editor :=
  ⟨X ++ (b :: B ++ (a :: A ++ Y)), startupSaveEntries (X ++ (b :: B ++ (a :: A ++ Y)))⟩

/-- A move up swaps two subtrees. -/
theorem step_move_up (h : Ordered s.rows) (hfound : Found s.rows)
    (hadj : Adjacent s.rows X a A b B Y) :
    s.step (.move b.id .up) = some (swapped X a A b B Y) := by
  obtain ⟨O, oA, up, oB, oC, hp⟩ := hadj.second.exists_placed h
  have hsibling : startupFindSiblingIndex s.rows (X ++ a :: A).length .up b.parentId =
      some X.length := by
    have hlen : (X ++ a :: A).length = X.length + 1 + A.length := by
      rw [List.length_append, List.length_cons]
      omega
    rw [startupFindSiblingIndex, hlen, ← hadj.siblings]
    nth_rewrite 1 [hadj.first.eq]
    exact siblingBefore_split (hadj.parentId_ne h) rfl (b :: B ++ Y)
  have hmove := moveRange_found hp h.tree rfl (hfound b hp.mem)
  rw [Editor.step, onRow_eq h.tree hadj.second.eq, startupMoveRow]
  simp only [hsibling, Option.map_some, hmove]
  rfl

theorem step_move_down (h : Ordered s.rows) (hfound : Found s.rows)
    (hadj : Adjacent s.rows X a A b B Y) :
    s.step (.move a.id .down) = some (swapped X a A b B Y) := by
  obtain ⟨O, oA, up, oB, oC, hp⟩ := hadj.second.exists_placed h
  obtain ⟨O', oA', up', oB', oC', hp'⟩ := hadj.first.exists_placed h
  have hlen : (X ++ a :: A).length = X.length + 1 + A.length := by
    rw [List.length_append, List.length_cons]
    omega
  have hend : startupSubtreeEnd s.rows X.length = (X ++ a :: A).length := by
    rw [hp'.subtreeEnd_eq h.tree (hfound a hp'.mem), hlen]
  have hsibling : startupFindSiblingIndex s.rows (startupSubtreeEnd s.rows X.length - 1) .down
      a.parentId = some (X ++ a :: A).length := by
    have hdrop : s.rows.drop (X ++ a :: A).length = b :: B ++ Y := by
      nth_rewrite 1 [hadj.second.eq]
      exact List.drop_left
    have hfrom : (X ++ a :: A).length - 1 + 1 = (X ++ a :: A).length := by omega
    rw [startupFindSiblingIndex, hend, hfrom, hdrop, List.cons_append, List.findIdx?_cons, if_pos (by simp [hadj.siblings])]
    rfl
  have hmove := moveRange_found hp h.tree rfl (hfound b hp.mem)
  rw [Editor.step, onRow_eq h.tree hadj.first.eq, startupMoveRow]
  simp only [hsibling, Option.map_some, hmove]
  rfl

end Steps

/-! ### The buttons -/

/-- What the buttons do to the forest. -/
structure EditsTree (s : Editor) : Prop where
  /-- The row becomes a child of the row above it, and no row moves. -/
  indent : ∀ X prev row Z, s.rows = X ++ prev :: row :: Z →
    ∃ B Y s', s.step (.indent row.id) = some s' ∧
      Relocated s.rows s'.rows (X ++ [prev]) row B Y (X ++ [prev])
        { row with parentId := prev.id } Y
  /-- The row becomes a child of its grandparent, behind the rest of the run of its parent. -/
  outdent : ∀ row ∈ s.rows, row.parentId ≠ [] →
    ∃ P parent A B C Y s', parent.id = row.parentId ∧
      Block s.rows P parent (A ++ (row :: B ++ C)) Y ∧ s.step (.outdent row.id) = some s' ∧
      Relocated s.rows s'.rows (P ++ parent :: A) row B (C ++ Y) (P ++ parent :: (A ++ C))
        { row with parentId := parent.parentId } Y
  /-- The run of the row and that of the sibling in front of it change places, and down is the way
  back. -/
  moveUp : ∀ P row Z, s.rows = P ++ row :: Z → (∃ r ∈ P, r.parentId = row.parentId) →
    ∃ X sibling A B Y s', Adjacent s.rows X sibling A row B Y ∧
      s.step (.move row.id .up) = some s' ∧
      Relocated s.rows s'.rows (X ++ sibling :: A) row B Y X row (sibling :: A ++ Y) ∧
      Adjacent s'.rows X row B sibling A Y ∧
      (s'.step (.move row.id .down)).map Editor.rows = some s.rows
  /-- The run of the row and that of the next sibling change places, and up is the way back. -/
  moveDown : ∀ P row Z, s.rows = P ++ row :: Z → (∃ r ∈ Z, r.parentId = row.parentId) →
    ∃ X B sibling A Y s', Adjacent s.rows X row B sibling A Y ∧
      s.step (.move row.id .down) = some s' ∧
      Relocated s.rows s'.rows X row B (sibling :: A ++ Y) (X ++ sibling :: A) row Y ∧
      Adjacent s'.rows X sibling A row B Y ∧
      (s'.step (.move row.id .up)).map Editor.rows = some s.rows

section Back

variable {s : Editor} {X A B Y : List StartupRow} {a b : StartupRow}

/-- What one move does the other undoes. -/
theorem step_back (h : Ordered s.rows) (hfound : Found s.rows)
    (hadj : Adjacent s.rows X a A b B Y) :
    ((swapped X a A b B Y).step (.move b.id .down)).map Editor.rows = some s.rows ∧
      ((swapped X a A b B Y).step (.move a.id .up)).map Editor.rows = some s.rows := by
  obtain ⟨hb, -, hadj'⟩ := hadj.swap h
  have hperm : (X ++ (b :: B ++ (a :: A ++ Y))).Perm s.rows := by
    rw [hadj.first.eq]
    exact perm_moveFront _ _ _ _
  have hfound' := hfound.perm h.tree hb.ordered.tree hperm
  have hdown := step_move_down (s := swapped X a A b B Y) hb.ordered hfound' hadj'
  have hup := step_move_up (s := swapped X a A b B Y) hb.ordered hfound' hadj'
  rw [hdown, hup, hadj.first.eq]
  exact ⟨rfl, rfl⟩

end Back

/-- **On rows in pre-order of at most 128 levels each button makes its tree edit.** -/
theorem edits_tree {s : Editor} (h : Ordered s.rows) (hnested : Nested s.rows 128) :
    EditsTree s := by
  have hfound := found_of_nested h hnested
  refine ⟨fun X prev row Z hrows => indent_relocates h hrows,
    fun row hrow hroot => outdent_relocates h hrow hroot, fun P row Z hrows hfront => ?_,
    fun P row Z hrows hbehind => ?_⟩
  · obtain ⟨r, hr, hparent⟩ := hfront
    obtain ⟨X, sibling, A, rfl, hsibling, hA, -⟩ :=
      exists_last (p := fun q => q.parentId = row.parentId) hr hparent
    have hsplit : s.rows = X ++ sibling :: (A ++ row :: Z) := by
      rw [hrows]
      simp
    obtain ⟨B, Y, rfl, hadj⟩ := adjacent_of_nearest h hsplit hsibling fun q hq => by
      rw [hsibling]
      exact hA q hq
    obtain ⟨hmoved, -, hadj'⟩ := hadj.swap h
    exact ⟨X, sibling, A, B, Y, _, hadj, step_move_up h hfound hadj, hmoved, hadj',
      (step_back h hfound hadj).1⟩
  · obtain ⟨r, hr, hparent⟩ := hbehind
    obtain ⟨B, sibling, N, rfl, hsibling, hB⟩ :=
      exists_first (p := fun q => q.parentId = row.parentId) hr hparent
    obtain ⟨A, Y, rfl, hadj⟩ := adjacent_of_nearest h hrows hsibling.symm hB
    obtain ⟨-, hmoved, hadj'⟩ := hadj.swap h
    exact ⟨P, B, sibling, A, Y, _, hadj, step_move_down h hfound hadj, hmoved, hadj',
      (step_back h hfound hadj).2⟩

theorem grandchild_edits : EditsTree ⟨grandchild, []⟩ := by
  have hpre : PreOrder (grandchild.map rowLine) :=
    ⟨.node "a".toList (.node "b".toList (.node "c".toList .nil .nil) (.node "d".toList .nil .nil))
      .nil, by decide, rfl⟩
  exact edits_tree ⟨by decide, hpre⟩ (by unfold Nested; decide)

end Axan.LinuxStartup
