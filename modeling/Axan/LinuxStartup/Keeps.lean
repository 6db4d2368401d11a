import Axan.Base.Contiguous
import Axan.LinuxStartup.Forest

/-!
# What the buttons do to the forest

* `tree_add`, `tree_indent`, `tree_outdent` — these keep the rows in pre-order. Indent does not move
  a row: the row in front of it has no children that come later.
* `tree_remove_iff` — the children of a removed row become roots where they are.
* `tree_moveFront`, `not_tree_moveFront` — a subtree that changes places with a sibling, and a row
  that leaves its children behind.
-/

namespace Axan.LinuxStartup

open Axan.Base Axan.Base.Forest Axan.Base.Settings

section Operations

variable {rows RA RB RC : List StartupRow} {row : StartupRow} {O A B C : List (Text × List Text)}
  {up : List Text}

/-! ### Add -/

/-- A new row is a root at the end. -/
theorem tree_add (h : Tree rows) {r : StartupRow} (hne : r.id ≠ []) (hroot : r.parentId = [])
    (hid : r.id ∉ rows.map StartupRow.id) (hparent : ∀ r' ∈ rows, r'.parentId ≠ r.id) :
    Tree (rows ++ [r]) := by
  have hne' : ∀ r' ∈ rows ++ [r], r'.id ≠ [] := by
    intro r' hr'
    rcases List.mem_append.mp hr' with hr' | hr'
    · exact h.nonempty r' hr'
    · obtain rfl := List.mem_singleton.mp hr'
      exact hne
  refine ⟨hne', ?_⟩
  have hlines : treeLines (rows ++ [r]) = treeLines rows ++ ⟨r.id, none⟩ :: [] := by
    rw [treeLines, List.map_append]
    congr 1
    · apply List.map_congr_left
      intro r' hr'
      have hiff : r'.parentId ∈ (rows ++ [r]).map StartupRow.id ↔
          r'.parentId ∈ rows.map StartupRow.id := by
        simp [hparent r' hr']
      rw [treeLine, treeLine, treeParent, treeParent]
      simp only [hiff]
    · have hnone : treeParent ((rows ++ [r]).map StartupRow.id) r = none := by
        rw [treeParent_eq_none_iff, hroot]
        intro hmem
        obtain ⟨r', hr', hid'⟩ := List.mem_map.mp hmem
        exact hne' r' hr' hid'
      rw [List.map_singleton, treeLine, hnone]
  rw [hlines]
  refine (preOrder_insert_iff ?_ ?_).mpr (by simp)
  · rw [List.append_nil]
    exact h.preOrder
  · rwa [List.append_nil, map_key_treeLines]

/-! ### New parents -/

/-- Another parent keeps the ids. -/
theorem map_id_setParentId (rows : List StartupRow) (id parentId : Text) :
    (setParentId rows id parentId).map StartupRow.id = rows.map StartupRow.id := by
  rw [setParentId, List.map_map]
  apply List.map_congr_left
  intro r _
  rw [Function.comp_apply]
  split <;> rfl

/-- Only the row itself gets a new parent. -/
theorem Placed.setParentId_eq (hp : Placed rows RA row RB RC O A up B C) (h : Tree rows)
    (parentId : Text) : setParentId rows row.id parentId =
      RA ++ { row with parentId := parentId } :: (RB ++ RC) := by
  have hnodup := h.nodup
  rw [hp.rows_eq, List.map_append, List.map_cons, List.nodup_append, List.nodup_cons] at hnodup
  have hkeep : ∀ R : List StartupRow, (∀ r ∈ R, r.id ≠ row.id) →
      R.map (fun r => if r.id = row.id then { r with parentId := parentId } else r) = R := by
    intro R hR
    conv_rhs => rw [← List.map_id R]
    apply List.map_congr_left
    intro r hr
    rw [if_neg (hR r hr), id]
  rw [setParentId, hp.rows_eq, List.map_append, List.map_cons, if_pos rfl, hkeep RA, hkeep (RB ++ RC)]
  · intro r hr heq
    exact hnodup.2.1.1 (heq ▸ List.mem_map_of_mem hr)
  · intro r hr heq
    exact hnodup.2.2 _ (List.mem_map_of_mem hr) row.id List.mem_cons_self heq

/-- The rows of an outline have its ids. -/
theorem map_id_eq_of_outline {R : List StartupRow} {ids : List Text} {D : List (Text × List Text)}
    (hR : R.map (treeLine ids) = flat D) : R.map StartupRow.id = D.map Prod.fst := by
  rw [← map_key_flat, ← hR, List.map_map]
  rfl

/-- The lines of a list with the same ids. -/
theorem treeLines_of_perm {rows' : List StartupRow}
    (hids : (rows'.map StartupRow.id).Perm (rows.map StartupRow.id)) :
    treeLines rows' = rows'.map (treeLine (rows.map StartupRow.id)) := by
  apply List.map_congr_left
  intro r _
  rw [treeLine, treeLine, treeParent_congr fun id => hids.mem_iff]

/-- A list with the same ids is a tree when its lines are an outline. -/
theorem tree_of_outline {rows' : List StartupRow} (O' : List (Text × List Text)) (h : Tree rows)
    (hids : (rows'.map StartupRow.id).Perm (rows.map StartupRow.id)) (hO' : IsOutline [] O')
    (hlines : rows'.map (treeLine (rows.map StartupRow.id)) = flat O') : Tree rows' := by
  have hnd : (O'.map Prod.fst).Nodup := by
    rw [← map_id_eq_of_outline hlines]
    exact hids.nodup_iff.mpr h.nodup
  refine ⟨?_, preOrder_iff.mpr ⟨O', hO', hnd, (treeLines_of_perm hids).trans hlines⟩⟩
  intro r hr heq
  obtain ⟨r', hr', hid⟩ := List.mem_map.mp (hids.mem_iff.mp (List.mem_map_of_mem hr))
  exact h.nonempty r' hr' (hid.trans heq)

/-! ### Indent -/

/-- Below the row in front of it a row stays where it is. -/
theorem tree_indent {prev : StartupRow} {RA' : List StartupRow}
    (hp : Placed rows RA row RB RC O A up B C) (h : Tree rows) (hprev : RA = RA' ++ [prev]) :
    Tree (setParentId rows row.id prev.id) := by
  have hset := hp.setParentId_eq h prev.id
  have hids := map_id_setParentId rows row.id prev.id
  have hfront := hp.front
  rw [hprev, List.map_append] at hfront
  obtain ⟨A', D, rfl, hA', hD⟩ := flat_eq_append hfront.symm
  obtain ⟨u, D, rfl, hu, hD⟩ := flat_eq_cons (x := treeLine _ prev) hD
  obtain rfl : D = [] := List.map_eq_nil_iff.mp hD
  have hopen : openPath [] (A' ++ [((treeLine (rows.map StartupRow.id) prev).key, u)]) =
      prev.id :: u := by
    rw [openPath_append]
    rfl
  have hparent : treeParent (rows.map StartupRow.id) { row with parentId := prev.id } =
      some prev.id := by
    refine treeParent_eq_some_iff.mpr ⟨rfl, List.mem_map.mpr ⟨prev, ?_, rfl⟩⟩
    rw [hp.rows_eq, hprev]
    simp
  rw [hset] at hids ⊢
  refine tree_of_outline (A' ++ [(prev.id, u)] ++
    (SubtreeAt.hung row.id up B (prev.id :: u) ++ C)) h (hids ▸ List.Perm.refl _) ?_ ?_
  · refine hp.subtree.front.paste (hopen ▸ List.suffix_rfl) (hp.subtree.isOutline_hung _)
      (fun r => SubtreeAt.suffix_of_mem_hung) (hp.subtree.behind.mono ?_)
    exact hopen ▸ hp.subtree.hangs
  · have hrow : treeLine (rows.map StartupRow.id) { row with parentId := prev.id } =
        ⟨row.id, (prev.id :: u).head?⟩ := by
      rw [treeLine, hparent]
      rfl
    rw [List.map_append, List.map_cons, List.map_append, hp.front, hp.below, hp.behind, hrow]
    simp only [flat_append, hp.subtree.flat_hung]
    rfl

/-! ### Outdent -/

/-- Blocks without a common parent may change places for the siblings. -/
theorem filter_swap {ids : List Text} {X M N Z : List StartupRow} (q : Option Text)
    (hMN : ∀ x ∈ M, ∀ y ∈ N, treeParent ids x ≠ treeParent ids y) :
    (X ++ (M ++ (N ++ Z))).filter (fun r => treeParent ids r = q) =
      (X ++ (N ++ (M ++ Z))).filter fun r => treeParent ids r = q := by
  simp only [List.filter_append]
  by_cases hM : M.filter (fun r => treeParent ids r = q) = []
  · rw [hM, List.nil_append, List.nil_append]
  · have hN : N.filter (fun r => treeParent ids r = q) = [] := by
      obtain ⟨x, hx⟩ := List.exists_mem_of_ne_nil _ hM
      rw [List.mem_filter, decide_eq_true_iff] at hx
      rw [List.filter_eq_nil_iff]
      intro y hy
      rw [decide_eq_true_iff, ← hx.2]
      exact (hMN x hx.1 y hy).symm
    rw [hN, List.nil_append, List.nil_append]

/-- The rows below the parent that are behind a subtree have other parents than the rows of the
subtree, with its root hung at the grandparent. -/
theorem Placed.parents_ne {parent row' : StartupRow} {gu : List Text} {RB₂ : List StartupRow}
    {B₂ : List (Text × List Text)} (hp : Placed rows RA row RB RC O A (parent.id :: gu) B C)
    (hrow' : treeParent (rows.map StartupRow.id) row' = gu.head?)
    (hgu : (parent.id, gu) ∈ O) (hRB₂ : RB₂.map (treeLine (rows.map StartupRow.id)) = flat B₂)
    (hB₂ : ∀ r ∈ B₂, r ∈ C ∧ parent.id :: gu <:+ r.2) (hsub : ∀ r ∈ RB₂, r ∈ rows) :
    ∀ x ∈ row' :: RB, ∀ y ∈ RB₂,
      treeParent (rows.map StartupRow.id) x ≠ treeParent (rows.map StartupRow.id) y := by
  intro x hx y hy heq
  obtain ⟨uy, huy⟩ := exists_node hRB₂ hy
  obtain ⟨hyC, hysub⟩ := hB₂ (y.id, uy) huy
  have hyO : (y.id, uy) ∈ O := by
    rw [hp.subtree.eq]
    simp [hyC]
  rw [treeParent_of_mem hp.lines hp.nodup (hsub y hy) hyO] at heq
  rcases List.mem_cons.mp hx with rfl | hx
  · -- the new parent is above the old one
    have hsame : gu = uy := hp.outline.eq_of_head? hp.nodup hgu hyO (hrow'.symm.trans heq)
    have hlen : (parent.id :: gu).length ≤ uy.length := hysub.length_le
    rw [← hsame, List.length_cons] at hlen
    omega
  · -- a row below this one hangs at it, or below
    obtain ⟨ux, hux⟩ := exists_node hp.below hx
    have hxO : (x.id, ux) ∈ O := by
      rw [hp.subtree.eq]
      simp [hux]
    have hxrows : x ∈ rows := by
      rw [hp.rows_eq]
      simp [hx]
    rw [treeParent_of_mem hp.lines hp.nodup hxrows hxO] at heq
    have hsame : ux = uy := hp.outline.eq_of_head? hp.nodup hxO hyO heq
    have hin : row.id ∈ uy := hsame ▸ (hp.subtree.below (x.id, ux) hux).mem List.mem_cons_self
    have hyB := (hp.subtree.mem_ancestors_iff hp.outline hp.nodup hyO).mp hin
    have hkeys := hp.subtree.nodup_keys hp.nodup
    rw [List.nodup_append, List.nodup_cons, List.nodup_append] at hkeys
    exact hkeys.2.1.2.2.2 _ (List.mem_map_of_mem hyB) y.id (List.mem_map_of_mem hyC) rfl

/-- What is behind a row: the other rows below its parent `q`, and then rows that are not below it. -/
structure BehindRow (rows : List StartupRow) (q : Text) (gu : List Text) (RB₂ RC₂ : List StartupRow)
    (B₂ C₂ : List (Text × List Text)) : Prop where
  rest : RB₂.map (treeLine (rows.map StartupRow.id)) = flat B₂
  others : RC₂.map (treeLine (rows.map StartupRow.id)) = flat C₂
  below : ∀ x ∈ B₂, q :: gu <:+ x.2
  outline : IsOutline gu C₂
  belowParent : ∀ r ∈ RB₂, Below (treeLines rows) r.id q
  stops : ∀ r ∈ RC₂.head?, ¬Below (treeLines rows) r.id q

/-- Behind the subtree of a row is the rest of its parent's. -/
theorem Placed.exists_behind {q : Text} {gu : List Text}
    (hp : Placed rows RA row RB RC O A (q :: gu) B C) (hgu : (q, gu) ∈ O) :
    ∃ RB₂ RC₂ B₂ C₂, RC = RB₂ ++ RC₂ ∧ C = B₂ ++ C₂ ∧ BehindRow rows q gu RB₂ RC₂ B₂ C₂ := by
  obtain ⟨B₂, C, rfl, hB₂, -, hoC⟩ := hp.subtree.behind.exists_subtree List.suffix_rfl
  obtain ⟨RB₂, RC, rfl, hRB₂, hRC⟩ :=
    List.map_eq_append_iff.mp (hp.behind.trans (flat_append B₂ C))
  have hnodes : ∀ x ∈ B₂ ++ C, x ∈ O := by
    intro x hx
    rw [hp.subtree.eq]
    simp only [List.mem_append, List.mem_cons] at hx ⊢
    tauto
  refine ⟨RB₂, RC, B₂, C, rfl, rfl, hRB₂, hRC, hB₂, hoC, ?_, ?_⟩
  · intro r hr
    obtain ⟨u, hu⟩ := exists_node hRB₂ hr
    rw [hp.lines, below_flat_iff hp.outline hp.nodup (hnodes _ (List.mem_append_left _ hu))]
    exact Or.inr ((hB₂ _ hu).mem List.mem_cons_self)
  · intro r hr
    obtain ⟨RC', rfl⟩ := List.head?_eq_some_iff.mp hr
    obtain ⟨v, C', rfl, -, -⟩ := flat_eq_cons (x := treeLine _ r) hRC.symm
    have hvO : (r.id, v) ∈ O := hnodes _ (by simp [treeLine])
    rw [hp.lines, below_flat_iff hp.outline hp.nodup hvO]
    rintro (heq | hin)
    · -- the parent is in front of the row
      have hfront : q ∈ A.map Prod.fst := by
        rcases mem_openPath hp.subtree.front (hp.subtree.hangs.mem List.mem_cons_self) with hA | hA
        · exact hA
        · cases hA
      have hkeys := hp.subtree.nodup_keys hp.nodup
      rw [List.nodup_append] at hkeys
      exact hkeys.2.2 _ hfront r.id (by simp [treeLine]) heq
    · exact hp.outline.not_mem_self hp.nodup hgu (hoC.1.mem hin)

/-- **A row goes behind the other rows below its parent**, and becomes its sibling. -/
theorem tree_outdent_split {parent : StartupRow} (hp : Placed rows RA row RB RC O A up B C)
    (h : Tree rows) (hmem : parent ∈ rows) (hparent : row.parentId = parent.id) :
    ∃ RB₂ RC₂ rows', RC = RB₂ ++ RC₂ ∧
      (∀ r ∈ RB₂, Below (treeLines rows) r.id parent.id) ∧
      (∀ r ∈ RC₂.head?, ¬Below (treeLines rows) r.id parent.id) ∧
      rows' = RA ++ (RB₂ ++ ({ row with parentId := parent.parentId } :: RB ++ RC₂)) ∧
      desiredOrder (setParentId rows row.id parent.parentId) = some rows' ∧ Tree rows' ∧
      rows'.Perm (setParentId rows row.id parent.parentId) := by
  have hup : up.head? = some parent.id := by
    rw [← hp.parent]
    exact treeParent_eq_some_iff.mpr ⟨hparent, List.mem_map_of_mem hmem⟩
  obtain ⟨gu, rfl⟩ := List.head?_eq_some_iff.mp hup
  have hgu : (parent.id, gu) ∈ O := hp.outline.mem_of_suffix' hp.subtree.mem List.suffix_rfl
  obtain ⟨RB₂, RC, B₂, C, rfl, rfl, hbehind⟩ := hp.exists_behind hgu
  have hgrand : treeParent (rows.map StartupRow.id) { row with parentId := parent.parentId } =
      gu.head? := treeParent_of_mem (r := parent) hp.lines hp.nodup hmem hgu
  have hnotin : row.id ∉ gu := fun hin =>
    hp.outline.not_mem_self hp.nodup hp.subtree.mem (List.mem_cons_of_mem _ hin)
  have hids := map_id_setParentId rows row.id parent.parentId
  let row' : StartupRow := { row with parentId := parent.parentId }
  have hset : setParentId rows row.id parent.parentId = RA ++ row' :: (RB ++ (RB₂ ++ RC)) :=
    hp.setParentId_eq h parent.parentId
  have hmoved : (RA ++ (RB₂ ++ (row' :: RB ++ RC))).Perm
      (setParentId rows row.id parent.parentId) := by
    rw [hset, List.perm_iff_count]
    intro a
    simp only [List.count_append, List.count_cons, List.cons_append]
    omega
  have hperm : (RA ++ (RB₂ ++ (row' :: RB ++ RC)) |>.map StartupRow.id).Perm
      (rows.map StartupRow.id) := by
    rw [← hids]
    exact hmoved.map _
  have htree : Tree (RA ++ (RB₂ ++ (row' :: RB ++ RC))) := by
    refine tree_of_outline (A ++ B₂ ++ (SubtreeAt.hung row.id (parent.id :: gu) B gu ++ C)) h hperm
      ?_ ?_
    · refine hp.subtree.isOutline_move_back ?_ hnotin hbehind.outline
      have hin : gu <:+ parent.id :: gu := List.suffix_cons _ _
      rw [openPath_append, openPath_cons]
      refine suffix_openPath (hin.trans (List.suffix_cons _ _)) fun r hr => ?_
      rcases List.mem_append.mp hr with hr | hr
      · exact (hin.trans (List.suffix_cons _ _)).trans (hp.subtree.below r hr)
      · exact hin.trans (hbehind.below r hr)
    · have hrow : treeLine (rows.map StartupRow.id) row' = ⟨row.id, gu.head?⟩ := by
        rw [treeLine, hgrand]
      simp only [List.map_append, List.map_cons, hp.front, hp.below, hbehind.rest, hbehind.others,
        hrow, flat_append, hp.subtree.flat_hung, List.append_assoc]
  refine ⟨RB₂, RC, _, rfl, hbehind.belowParent, hbehind.stops, rfl, desiredOrder_eq htree ?_ ?_,
    htree, hmoved⟩
  · rw [hids]
    exact hperm.symm
  · intro q
    rw [hids, hset]
    have hlist : RA ++ row' :: (RB ++ (RB₂ ++ RC)) = RA ++ (row' :: RB ++ (RB₂ ++ RC)) := by simp
    have hrows : ∀ r ∈ RB₂, r ∈ rows := by
      intro r hr
      rw [hp.rows_eq]
      simp [hr]
    rw [hlist]
    exact filter_swap q (hp.parents_ne hgrand hgu hbehind.rest
      (fun x hx => ⟨List.mem_append_left _ hx, hbehind.below x hx⟩) hrows)

/-- Outdenting goes through and leaves a tree. -/
theorem tree_outdent {parent : StartupRow} (hp : Placed rows RA row RB RC O A up B C)
    (h : Tree rows) (hmem : parent ∈ rows) (hparent : row.parentId = parent.id) :
    ∃ rows', desiredOrder (setParentId rows row.id parent.parentId) = some rows' ∧ Tree rows' ∧
      rows'.Perm (setParentId rows row.id parent.parentId) := by
  obtain ⟨RB₂, RC₂, rows', -, -, -, -, hdesired, htree, hperm⟩ :=
    tree_outdent_split hp h hmem hparent
  exact ⟨rows', hdesired, htree, hperm⟩

/-- A row whose parent is gone becomes a root. -/
theorem tree_setParentId_nil (hp : Placed rows RA row RB RC O A up B C) (h : Tree rows)
    (hgone : row.parentId ∉ rows.map StartupRow.id) : Tree (setParentId rows row.id []) := by
  have hids := map_id_setParentId rows row.id []
  have hempty : ([] : Text) ∉ rows.map StartupRow.id := by
    intro hmem
    obtain ⟨r, hr, hid⟩ := List.mem_map.mp hmem
    exact h.nonempty r hr hid
  have hparent : treeParent (rows.map StartupRow.id) { row with parentId := [] } =
      treeParent (rows.map StartupRow.id) row :=
    (treeParent_eq_none_iff.mpr hempty).trans (treeParent_eq_none_iff.mpr hgone).symm
  refine tree_of_outline O h (hids ▸ List.Perm.refl _) hp.outline ?_
  have hline : treeLine (rows.map StartupRow.id) { row with parentId := [] } =
      treeLine (rows.map StartupRow.id) row := congrArg (Line.mk row.id) hparent
  have hlines := hp.lines
  rw [treeLines] at hlines
  rw [hp.setParentId_eq h, ← hlines, List.map_append, List.map_cons, hline, ← List.map_cons,
    ← List.map_append, ← hp.rows_eq]

/-! ### Remove -/

/-- No row has this parent id. -/
def Leaf (rows : List StartupRow) (id : Text) : Prop := ∀ r ∈ rows, r.parentId ≠ id

instance (rows : List StartupRow) (id : Text) : Decidable (Leaf rows id) :=
  inferInstanceAs (Decidable (∀ r ∈ rows, r.parentId ≠ id))

/-- A node that hangs at the row is below it. -/
theorem Placed.mem_below (hp : Placed rows RA row RB RC O A up B C) {x : Text × List Text}
    (hx : x ∈ O) (hhead : x.2.head? = some row.id) : x ∈ B :=
  (hp.subtree.mem_ancestors_iff hp.outline hp.nodup hx).mp (List.mem_of_mem_head? hhead)

/-- The first row below a row is its child. -/
theorem Placed.parent_below (hp : Placed rows RA row RB RC O A up B C) {r : StartupRow}
    {R : List StartupRow} (hRB : RB = r :: R) : r.parentId = row.id := by
  have hbelow := hp.below
  rw [hRB] at hbelow
  obtain ⟨v, B', rfl, hv, -⟩ := flat_eq_cons (x := treeLine _ r) hbelow.symm
  have hsub := hp.subtree.below _ List.mem_cons_self
  obtain rfl : v = row.id :: up := hp.subtree.inner.1.eq_of_length_le hsub.length_le
  exact (treeParent_eq_some_iff.mp hv.symm).1

/-- A row is a leaf when nothing is below it. -/
theorem Placed.leaf_iff (hp : Placed rows RA row RB RC O A up B C) :
    Leaf rows row.id ↔ RB = [] := by
  constructor
  · intro hleaf
    cases hRB : RB with
    | nil => rfl
    | cons r R =>
        refine absurd (hp.parent_below hRB) (hleaf r ?_)
        rw [hp.rows_eq, hRB]
        simp
  · rintro rfl r hr heq
    obtain rfl : B = [] := List.map_eq_nil_iff.mp hp.below.symm
    obtain ⟨u, hu⟩ := exists_node hp.lines hr
    have hparent : treeParent (rows.map StartupRow.id) r = some row.id :=
      treeParent_eq_some_iff.mpr ⟨heq, List.mem_map_of_mem hp.mem⟩
    rw [treeParent_of_mem hp.lines hp.nodup hr hu] at hparent
    exact List.not_mem_nil (hp.mem_below hu hparent)

/-- A line without its pointer to the removed row. -/
def cutLine (id : Text) (l : Line Text) : Line Text :=
  if l.parent = some id then { l with parent := none } else l

/-- The nodes that are not below the row have another parent. -/
theorem Placed.map_cutLine (hp : Placed rows RA row RB RC O A up B C) {D : List (Text × List Text)}
    (hD : ∀ x ∈ D, x ∈ O ∧ x ∉ B) : (flat D).map (cutLine row.id) = flat D := by
  conv_rhs => rw [← List.map_id (flat D)]
  apply List.map_congr_left
  intro l hl
  obtain ⟨x, hx, rfl⟩ := List.mem_map.mp hl
  obtain ⟨hxO, hxB⟩ := hD x hx
  have hother : (line x).parent ≠ some row.id := fun hhead => hxB (hp.mem_below hxO hhead)
  rw [cutLine, if_neg hother, id]

/-- The ids of the other rows. -/
theorem Placed.mem_ids_iff (hp : Placed rows RA row RB RC O A up B C) (h : Tree rows) {id : Text} :
    id ∈ (RA ++ (RB ++ RC)).map StartupRow.id ↔ id ∈ rows.map StartupRow.id ∧ id ≠ row.id := by
  have hperm : (rows.map StartupRow.id).Perm
      (row.id :: (RA ++ (RB ++ RC)).map StartupRow.id) := by
    rw [hp.rows_eq]
    simp only [List.map_append, List.map_cons]
    exact List.perm_middle
  have hnodup := List.nodup_cons.mp (hperm.nodup_iff.mp h.nodup)
  rw [hperm.mem_iff, List.mem_cons]
  constructor
  · intro hmem
    exact ⟨Or.inr hmem, fun heq => hnodup.1 (heq ▸ hmem)⟩
  · rintro ⟨heq | hmem, hne⟩
    · exact absurd heq hne
    · exact hmem

/-- The children of a removed row become roots. -/
theorem Placed.treeLines_remove (hp : Placed rows RA row RB RC O A up B C) (h : Tree rows) :
    treeLines (RA ++ (RB ++ RC)) = flat (A ++ (B.map (rebase (row.id :: up).length []) ++ C)) := by
  have hline (r : StartupRow) : treeLine ((RA ++ (RB ++ RC)).map StartupRow.id) r =
      cutLine row.id (treeLine (rows.map StartupRow.id) r) := by
    have hparent : treeParent ((RA ++ (RB ++ RC)).map StartupRow.id) r =
        if treeParent (rows.map StartupRow.id) r = some row.id then none
        else treeParent (rows.map StartupRow.id) r := by
      rw [treeParent]
      simp only [hp.mem_ids_iff h]
      by_cases hmem : r.parentId ∈ rows.map StartupRow.id
      · have hsome : treeParent (rows.map StartupRow.id) r = some r.parentId := if_pos hmem
        by_cases heq : r.parentId = row.id
        · simp [hsome, heq]
        · rw [if_pos ⟨hmem, heq⟩, hsome, if_neg fun hn => heq (Option.some.inj hn)]
      · have hnone : treeParent (rows.map StartupRow.id) r = none := if_neg hmem
        simp [hmem, hnone]
    rw [treeLine, hparent, cutLine]
    by_cases heq : treeParent (rows.map StartupRow.id) r = some row.id
    · simp [treeLine, heq]
    · simp [treeLine, heq]
  have hmap (R : List StartupRow) : R.map (treeLine ((RA ++ (RB ++ RC)).map StartupRow.id)) =
      (R.map (treeLine (rows.map StartupRow.id))).map (cutLine row.id) := by
    rw [List.map_map]
    exact List.map_congr_left fun r _ => hline r
  have hkeys := hp.subtree.nodup_keys hp.nodup
  rw [List.nodup_append, List.nodup_cons, List.nodup_append] at hkeys
  have hA : ∀ x ∈ A, x ∈ O ∧ x ∉ B := by
    intro x hx
    refine ⟨?_, fun hxB => hkeys.2.2 _ (List.mem_map_of_mem hx) x.1 ?_ rfl⟩
    · rw [hp.subtree.eq]
      exact List.mem_append_left _ hx
    · exact List.mem_cons_of_mem _ (List.mem_append_left _ (List.mem_map_of_mem hxB))
  have hC : ∀ x ∈ C, x ∈ O ∧ x ∉ B := by
    intro x hx
    refine ⟨?_, fun hxB => hkeys.2.1.2.2.2 _ (List.mem_map_of_mem hxB) x.1
      (List.mem_map_of_mem hx) rfl⟩
    rw [hp.subtree.eq]
    exact List.mem_append_right _ (List.mem_cons_of_mem _ (List.mem_append_right _ hx))
  have hB : (flat B).map (cutLine row.id) = flat (B.map (rebase (row.id :: up).length [])) :=
    (hp.subtree.flat_rebase hp.outline hp.nodup []).symm
  rw [treeLines, hmap, List.map_append, List.map_append, List.map_append, List.map_append, hp.front,
    hp.below, hp.behind, hp.map_cutLine hA, hp.map_cutLine hC, hB, flat_append, flat_append]

/-- Nothing behind a root hangs in front of it. -/
theorem Tree.parentId_not_mem_front {X Y : List StartupRow} {t r : StartupRow}
    (htree : Tree (X ++ t :: Y)) (ht : t.parentId ∉ (X ++ t :: Y).map StartupRow.id) (hr : r ∈ Y) :
    r.parentId ∉ X.map StartupRow.id := by
  intro hfront
  have hparent : r.parentId ∈ (X ++ t :: Y).map StartupRow.id := by
    rw [List.map_append]
    exact List.mem_append_left _ hfront
  have hpre := htree.preOrder
  have hnodup := htree.nodup
  rw [treeLines] at hpre
  obtain ⟨M, N, rfl⟩ := List.append_of_mem hr
  simp only [List.map_append, List.map_cons] at hpre hnodup ht hparent
  have hin := hpre.mem_of_split (treeParent_eq_none_iff.mpr ht)
    (treeParent_eq_some_iff.mpr ⟨rfl, hparent⟩)
  rw [List.map_cons, List.map_map] at hin
  rw [List.nodup_append] at hnodup
  refine hnodup.2.2 _ hfront r.parentId ?_ rfl
  rcases List.mem_cons.mp hin with heq | hin
  · exact heq ▸ List.mem_cons_self
  · exact List.mem_cons_of_mem _ (List.mem_append_left _ hin)

/-- When nothing behind a subtree hangs in front of it, a root comes behind it. -/
theorem Placed.root_behind (hp : Placed rows RA row RB RC O A up B C)
    (hbehind : ∀ r ∈ RC, r.parentId ∉ RA.map StartupRow.id) : ∀ x ∈ C.head?, x.2 = [] := by
  rintro ⟨c, v⟩ hx
  have hv := hp.subtree.behind.head _ hx
  cases v with
  | nil => rfl
  | cons q T =>
      exfalso
      have hqA : q ∈ A.map Prod.fst := by
        have hopen : q ∈ openPath [] A := hp.subtree.hangs.mem (hv.mem List.mem_cons_self)
        rcases mem_openPath hp.subtree.front hopen with hmem | hmem
        · exact hmem
        · cases hmem
      have hline : (⟨c, some q⟩ : Line Text) ∈ flat C :=
        List.mem_map_of_mem (List.mem_of_mem_head? hx)
      rw [← hp.behind] at hline
      obtain ⟨r, hr, hrline⟩ := List.mem_map.mp hline
      have hparent : treeParent (rows.map StartupRow.id) r = some q := congrArg Line.parent hrline
      refine hbehind r hr ?_
      rw [(treeParent_eq_some_iff.mp hparent).1, map_id_eq_of_outline hp.front]
      exact hqA

/-- **Without a row the others are in order exactly when it has no children, or no row behind it
hangs at a row in front of it.** -/
theorem tree_remove_iff (hp : Placed rows RA row RB RC O A up B C) (h : Tree rows) :
    Tree (RA ++ (RB ++ RC)) ↔
      Leaf rows row.id ∨ ∀ r ∈ RB ++ RC, r.parentId ∉ RA.map StartupRow.id := by
  constructor
  · intro htree
    rw [hp.leaf_iff]
    cases hRB : RB with
    | nil => exact Or.inl rfl
    | cons t R =>
        -- the first child becomes a root
        have ht : t.parentId ∉ (RA ++ (RB ++ RC)).map StartupRow.id := by
          rw [hp.parent_below hRB]
          exact fun hmem => ((hp.mem_ids_iff h).mp hmem).2 rfl
        rw [hRB, List.cons_append] at htree ht
        refine Or.inr fun r hr => ?_
        rcases List.mem_cons.mp hr with rfl | hr
        · rw [List.map_append] at ht
          exact fun hfront => ht (List.mem_append_left _ hfront)
        · exact htree.parentId_not_mem_front ht hr
  · intro hcond
    have hne : ∀ r ∈ RA ++ (RB ++ RC), r.id ≠ [] := by
      intro r hr
      refine h.nonempty r ?_
      rw [hp.rows_eq]
      simp only [List.mem_append, List.mem_cons] at hr ⊢
      tauto
    refine ⟨hne, ?_⟩
    rw [hp.treeLines_remove h]
    refine preOrder_iff.mpr ⟨_, ?_, ?_, rfl⟩
    · rcases hcond with hleaf | hbehind
      · obtain rfl := hp.leaf_iff.mp hleaf
        obtain rfl : B = [] := List.map_eq_nil_iff.mp hp.below.symm
        exact hp.subtree.isOutline_rest
      · refine hp.subtree.front.paste List.nil_suffix
          (IsOutline.rebase (T := []) [] hp.subtree.inner hp.subtree.below)
          (fun _ _ => List.nil_suffix) (hp.subtree.behind.of_head fun x hx => ?_)
        rw [hp.root_behind (fun r hr => hbehind r (List.mem_append_right _ hr)) x hx]
    · rw [List.map_append, List.map_append, map_fst_rebase]
      exact (hp.subtree.nodup_keys hp.nodup).sublist
        ((List.Sublist.refl _).append (List.sublist_cons_self _ _))

/-! ### Moves -/

/-- A range that moves to the front. -/
theorem moveRange_eq (X Y M Z : List StartupRow) :
    moveRange (X ++ (Y ++ (M ++ Z))) (X.length + Y.length) (X.length + Y.length + M.length) X.length =
      X ++ (M ++ (Y ++ Z)) := by
  have htake : (X ++ (Y ++ (M ++ Z))).take (X.length + Y.length) = X ++ Y := by
    rw [← List.append_assoc, ← List.length_append, List.take_left]
  have hdrop : (X ++ (Y ++ (M ++ Z))).drop (X.length + Y.length) = M ++ Z := by
    rw [← List.append_assoc, ← List.length_append, List.drop_left]
  have hdrop' : (X ++ (Y ++ (M ++ Z))).drop (X.length + Y.length + M.length) = Z := by
    rw [← List.drop_drop, hdrop, List.drop_left]
  rw [moveRange]
  simp only [htake, hdrop, hdrop', Nat.add_sub_cancel_left, List.take_left, List.append_assoc,
    List.drop_left]

theorem perm_moveFront (X Y M Z : List StartupRow) :
    (X ++ (M ++ (Y ++ Z))).Perm (X ++ (Y ++ (M ++ Z))) := by
  rw [List.perm_iff_count]
  intro a
  simp only [List.count_append]
  omega

/-- A subtree may go in front of a sibling. -/
theorem tree_moveFront {RX RD : List StartupRow} {sibling : StartupRow}
    (hp : Placed rows RA row RB RC O A up B C) (h : Tree rows) (hRA : RA = RX ++ sibling :: RD)
    (hparent : sibling.parentId = row.parentId) :
    Tree (RX ++ (row :: RB ++ (sibling :: RD ++ RC))) := by
  have hrows : rows = RX ++ (sibling :: RD ++ (row :: RB ++ RC)) := by
    rw [hp.rows_eq, hRA]
    simp
  have hfront := hp.front
  rw [hRA, List.map_append, List.map_cons] at hfront
  obtain ⟨X, D, hA, hX, hD⟩ := flat_eq_append hfront.symm
  obtain ⟨u, D, rfl, hu, hD⟩ := flat_eq_cons (x := treeLine _ sibling) hD
  have hsib : ((treeLine (rows.map StartupRow.id) sibling).key, u) ∈ O := by
    rw [hp.subtree.eq, hA]
    simp
  obtain rfl : u = up := by
    apply hp.outline.eq_of_head? hp.nodup hsib hp.subtree.mem
    rw [← hp.parent]
    refine hu.trans ?_
    rw [treeLine, treeParent, treeParent, hparent]
  subst hA
  have hrest : IsOutline [] (X ++ (sibling.id, u) :: (D ++ (row.id, u) :: (B ++ C))) := by
    have hO := hp.outline
    rw [hp.subtree.eq, List.append_assoc, List.cons_append] at hO
    exact hO
  obtain ⟨-, hhang, htail⟩ := isOutline_append.mp hrest
  refine tree_of_outline _ h ?_ (hp.subtree.isOutline_move_front hhang ⟨List.suffix_rfl, htail⟩) ?_
  · rw [hrows]
    exact (perm_moveFront _ _ _ _).map _
  · have hsibling : treeLine (rows.map StartupRow.id) sibling = line (sibling.id, u) :=
      congrArg (Line.mk sibling.id) hu.symm
    have hrow : treeLine (rows.map StartupRow.id) row = ⟨row.id, u.head?⟩ :=
      congrArg (Line.mk row.id) hp.parent
    simp only [List.map_append, List.map_cons, hp.below, hp.behind, ← hX, ← hD, hsibling, hrow,
      flat_append, flat_cons, hp.subtree.flat_hung, List.cons_append]
    rfl

/-- A row that goes in front of a sibling without its children breaks the order. -/
theorem not_tree_moveFront {RX RD R : List StartupRow} {sibling child : StartupRow}
    (hp : Placed rows RA row RB RC O A up B C) (hRA : RA = RX ++ sibling :: RD)
    (hRB : RB = child :: R) :
    ¬ Tree (RX ++ ([row] ++ (sibling :: RD ++ (RB ++ RC)))) := by
  intro htree
  have hrows : rows = RX ++ (sibling :: RD ++ ([row] ++ (RB ++ RC))) := by
    rw [hp.rows_eq, hRA]
    simp
  have hperm : (RX ++ ([row] ++ (sibling :: RD ++ (RB ++ RC)))).Perm rows := by
    rw [hrows]
    exact perm_moveFront _ _ _ _
  have hpre := htree.preOrder
  rw [treeLines_of_perm (hperm.map _), hRB] at hpre
  simp only [List.map_append, List.map_cons, List.map_nil, List.cons_append] at hpre
  obtain ⟨O', hO', hnd', hflat⟩ := preOrder_iff.mp hpre
  obtain ⟨X, D, rfl, -, hD⟩ := flat_eq_append hflat.symm
  obtain ⟨u, D, rfl, -, hD⟩ := flat_eq_cons hD
  obtain ⟨us, D, rfl, -, hD⟩ := flat_eq_cons hD
  obtain ⟨M, D, rfl, hM, hD⟩ := flat_eq_append hD
  obtain ⟨v, N, rfl, hv, -⟩ := flat_eq_cons hD
  have hchild : v.head? = some row.id := by
    refine hv.trans (treeParent_eq_some_iff.mpr ⟨hp.parent_below hRB, List.mem_map_of_mem hp.mem⟩)
  -- the sibling would be below the row
  have htail : IsOutline (row.id :: u) ((sibling.id, us) :: (M ++ (child.id, v) :: N)) :=
    (isOutline_append.mp hO').2.2
  have hsplit := IsOutline.mem_of_split (L := []) htail (List.mem_of_mem_head? hchild)
  have hkeys := hp.subtree.nodup_keys hp.nodup
  have hfront := map_id_eq_of_outline hp.front
  rw [List.nodup_append] at hkeys
  rw [hRA, List.map_append, List.map_cons] at hfront
  have hnot : row.id ∉ A.map Prod.fst := fun hmem =>
    hkeys.2.2 row.id hmem row.id List.mem_cons_self rfl
  rw [← hfront] at hnot hkeys
  rcases hsplit with hmem | hmem
  · rw [← map_id_eq_of_outline hM.symm] at hmem
    exact hnot (List.mem_append_right _ hmem)
  · obtain ⟨us', hus'⟩ := exists_node (r := sibling) hp.lines (by rw [hrows]; simp)
    have hline : (flat (X ++ (row.id, u) :: (sibling.id, us) :: (M ++ (child.id, v) :: N))).Perm
        (flat O) := by
      have hmap := hperm.map (treeLine (rows.map StartupRow.id))
      rw [hRB] at hmap
      simp only [List.map_append, List.map_cons, List.map_nil, List.cons_append] at hmap
      rw [hflat] at hmap
      exact hmap.trans (List.Perm.of_eq hp.lines)
    have hsame : us = us' := eq_of_flat_perm hO' hp.outline hnd' hline
      (List.mem_append_right _ (List.mem_cons_of_mem _ List.mem_cons_self)) hus'
    rw [hsame] at hmem
    have hB := (hp.subtree.mem_ancestors_iff hp.outline hp.nodup hus').mp hmem
    refine hkeys.2.2 sibling.id (by simp) sibling.id ?_ rfl
    exact List.mem_cons_of_mem _ (List.mem_append_left _ (List.mem_map_of_mem hB))

/-- A subtree that starts above depth 128, or is one row, is found. -/
theorem Placed.subtreeEnd_eq (hp : Placed rows RA row RB RC O A up B C) (h : Tree rows)
    (hfound : startupRowDepth rows row < 128 ∨ Leaf rows row.id) :
    startupSubtreeEnd rows RA.length = RA.length + 1 + RB.length := by
  rw [startupSubtreeEnd_eq hp h]
  split_ifs with hdepth
  · rfl
  · rw [hp.leaf_iff.mp (hfound.resolve_left hdepth)]
    rfl

/-- A subtree that is found goes in front of the sibling. -/
theorem moveRange_found {RX RD : List StartupRow} {sibling : StartupRow}
    (hp : Placed rows RA row RB RC O A up B C) (h : Tree rows) (hRA : RA = RX ++ sibling :: RD)
    (hfound : startupRowDepth rows row < 128 ∨ Leaf rows row.id) :
    moveRange rows RA.length (startupSubtreeEnd rows RA.length) RX.length =
      RX ++ (row :: RB ++ (sibling :: RD ++ RC)) := by
  have hstart : RA.length = RX.length + (sibling :: RD).length := by rw [hRA, List.length_append]
  have hwhole : rows = RX ++ (sibling :: RD ++ (row :: RB ++ RC)) := by
    rw [hp.rows_eq, hRA]
    simp
  have hlen : RA.length + 1 + RB.length =
      RX.length + (sibling :: RD).length + (row :: RB).length := by
    rw [hstart, List.length_cons (a := row)]
    omega
  rw [hp.subtreeEnd_eq h hfound, hlen, hstart]
  nth_rewrite 1 [hwhole]
  exact moveRange_eq _ _ _ _

/-- **A subtree that changes places with a sibling keeps the order exactly when it is found: it
starts above depth 128, or is one row.** -/
theorem tree_moveRange_iff {RX RD : List StartupRow} {sibling : StartupRow}
    (hp : Placed rows RA row RB RC O A up B C) (h : Tree rows) (hRA : RA = RX ++ sibling :: RD)
    (hparent : sibling.parentId = row.parentId) :
    (moveRange rows RA.length (startupSubtreeEnd rows RA.length) RX.length).Perm rows ∧
    (Tree (moveRange rows RA.length (startupSubtreeEnd rows RA.length) RX.length) ↔
      startupRowDepth rows row < 128 ∨ Leaf rows row.id) := by
  by_cases hfound : startupRowDepth rows row < 128 ∨ Leaf rows row.id
  · rw [moveRange_found hp h hRA hfound]
    refine ⟨?_, fun _ => hfound, fun _ => tree_moveFront hp h hRA hparent⟩
    have hwhole : rows = RX ++ (sibling :: RD ++ (row :: RB ++ RC)) := by
      rw [hp.rows_eq, hRA]
      simp
    rw [hwhole]
    exact perm_moveFront _ _ _ _
  · -- only the first row of the subtree moves
    rw [not_or] at hfound
    have hstart : RA.length = RX.length + (sibling :: RD).length := by rw [hRA, List.length_append]
    have hsingle : rows = RX ++ (sibling :: RD ++ ([row] ++ (RB ++ RC))) := by
      rw [hp.rows_eq, hRA]
      simp
    have hmove : moveRange rows RA.length (startupSubtreeEnd rows RA.length) RX.length =
        RX ++ ([row] ++ (sibling :: RD ++ (RB ++ RC))) := by
      have hlen : RA.length + 1 + 0 = RX.length + (sibling :: RD).length + [row].length := by
        rw [hstart, List.length_singleton]
      rw [startupSubtreeEnd_eq hp h, if_neg hfound.1, hlen, hstart]
      nth_rewrite 1 [hsingle]
      exact moveRange_eq _ _ _ _
    rw [hmove]
    constructor
    · rw [hsingle]
      exact perm_moveFront _ _ _ _
    · refine iff_of_false ?_ (not_or.mpr hfound)
      obtain ⟨child, R, hRB⟩ := List.exists_cons_of_ne_nil fun hnil => hfound.2 (hp.leaf_iff.mpr hnil)
      exact not_tree_moveFront hp hRA hRB

end Operations

end Axan.LinuxStartup
