import Axan.Base.Graft
import Axan.LinuxSidebar.PreOrder

/-!
# Where a dropped row lands

* `dropped` — the forest after a drop: the tree of the source, cut out and grafted at the target.
* `moveSubtree_at` — the move of a range of rows, at any place that is not inside it.
* `drop_placement` — **a drop does to the rows what `dropped` does to the forest**;
  `terminal_sidebar_set_screen_parent` does what a drop in the middle zone does.
-/

namespace Axan.LinuxSidebar

open Axan.Base Axan.Base.Forest

/-- The forest after a drop of the tree at `source`; nothing happens in the tree itself. -/
def dropped (source : ℕ) (target : Option (ℕ × TerminalSidebar.DropZone)) (F : Forest ℕ) :
    Forest ℕ :=
  match target with
  | none => cut source F ++ treeAt source F
  | some (t, zone) =>
      if t ∈ preorder (treeAt source F) then F
      else
        match zone with
        | .siblingBefore => graftBefore t (treeAt source F) (cut source F)
        | .siblingAfter => graftAfter t (treeAt source F) (cut source F)
        | .child => graftUnder t (treeAt source F) (cut source F)

/-- A drop into the own subtree changes nothing. -/
theorem dropped_of_mem {source t : ℕ} {F : Forest ℕ} (h : t ∈ preorder (treeAt source F))
    (zone : TerminalSidebar.DropZone) : dropped source (some (t, zone)) F = F := if_pos h

namespace TerminalSidebar

variable {s : TerminalSidebar} {O A B C : List (ℕ × List ℕ)} {a : ℕ} {up : List ℕ}

/-! ### The move of a range -/

/-- **The rows after a move of a subtree** to a place at which the path `u` is open, and which is
not in it. -/
theorem moveSubtree_at {L R : List (ℕ × List ℕ)} {u : List ℕ} (hs : s.rows = flat O)
    (h : SubtreeAt O a up A B C) (hO : IsOutline [] O) (hnd : (O.map Prod.fst).Nodup)
    (hLR : O = L ++ R) (hrest : IsOutline u R) (ha : a ∉ u) :
    ∃ s', s.moveSubtree a u.head? (some L.length) = some s' ∧
      s'.rows = flat (L.filter (SubtreeAt.outside a B) ++
        (SubtreeAt.hung a up B u ++ R.filter (SubtreeAt.outside a B))) := by
  have hsub : ((a, up) :: B).filter (SubtreeAt.outside a B) = [] :=
    SubtreeAt.filter_subtree a up B
  have hfront : ∀ A' : List (ℕ × List ℕ), A = L ++ A' → R = A' ++ (((a, up) :: B) ++ C) →
      ∃ s', s.moveSubtree a u.head? (some L.length) = some s' ∧
        s'.rows = flat (L.filter (SubtreeAt.outside a B) ++
          (SubtreeAt.hung a up B u ++ R.filter (SubtreeAt.outside a B))) := by
    rintro A' rfl rfl
    obtain ⟨s', hmove, hrows⟩ := moveSubtree_front (u := u) hs h hO hnd
    refine ⟨s', hmove, ?_⟩
    rw [List.filter_append, List.filter_append, hsub, List.nil_append,
      h.filter_of_subset hnd (X := L) (by simp), h.filter_of_subset hnd (X := A') (by simp),
      h.filter_of_subset hnd (X := C) (by simp), hrows]
  have hback : ∀ C' : List (ℕ × List ℕ), L = A ++ (((a, up) :: B) ++ C') → C = C' ++ R →
      ∃ s', s.moveSubtree a u.head? (some L.length) = some s' ∧
        s'.rows = flat (L.filter (SubtreeAt.outside a B) ++
          (SubtreeAt.hung a up B u ++ R.filter (SubtreeAt.outside a B))) := by
    rintro C' rfl rfl
    obtain ⟨s', hmove, hrows⟩ := moveSubtree_back (u := u) hs h hO hnd
    have hlen : (A ++ (((a, up) :: B) ++ C')).length = A.length + 1 + B.length + C'.length := by
      simp only [List.length_append, List.length_cons]
      omega
    refine ⟨s', by rw [hlen, hmove], ?_⟩
    rw [List.filter_append, List.filter_append, hsub, List.nil_append,
      h.filter_of_subset hnd (X := A) (by simp), h.filter_of_subset hnd (X := C') (by simp),
      h.filter_of_subset hnd (X := R) (by simp), hrows]
  -- Where the place is: in front of the subtree, at its root, behind it, or in it.
  rcases List.append_eq_append_iff.mp (hLR.symm.trans h.eq) with ⟨A', hA', hR⟩ | ⟨L', hL, hX⟩
  · exact hfront A' hA' hR
  rcases List.cons_eq_append_iff.mp hX with ⟨rfl, rfl⟩ | ⟨L'', rfl, hBC⟩
  · exact hfront [] (by simpa using hL.symm) rfl
  rcases List.append_eq_append_iff.mp hBC with ⟨C', rfl, hC⟩ | ⟨B', hB, hR⟩
  · exact hback C' hL hC
  · cases B' with
    | nil => exact hback [] (by rw [hL, hB]; simp) (by simpa using hR.symm)
    | cons r B' =>
        -- The next row would hang below `a`.
        have hr := (h.below r (by simp [hB])).trans (hrest.head r (by simp [hR]))
        exact absurd (hr.mem List.mem_cons_self) ha

/-! ### A drop -/

/-- The rows outside a subtree keep their parents and their order. -/
theorem filter_moved {L R : List (ℕ × List ℕ)} (hLR : O = L ++ R) (u : List ℕ) :
    (flat (L.filter (SubtreeAt.outside a B) ++
      (SubtreeAt.hung a up B u ++ R.filter (SubtreeAt.outside a B)))).filter
        (fun r => r.key ∉ a :: B.map Prod.fst) =
      (flat O).filter fun r => r.key ∉ a :: B.map Prod.fst := by
  have hflat : ∀ X : List (ℕ × List ℕ),
      (flat X).filter (fun r => r.key ∉ a :: B.map Prod.fst) =
        flat (X.filter (SubtreeAt.outside a B)) := fun X => List.filter_map
  rw [hflat, hflat, List.filter_append, List.filter_append, SubtreeAt.filter_hung,
    List.nil_append, List.filter_filter, List.filter_filter, hLR, List.filter_append]
  simp only [Bool.and_self]

/-- The rows of the subtree keep their order, and their parents but for its root. -/
theorem filter_moved_subtree {L R : List (ℕ × List ℕ)} (h : SubtreeAt O a up A B C)
    (hnd : (O.map Prod.fst).Nodup) (u : List ℕ) :
    (flat (L.filter (SubtreeAt.outside a B) ++
      (SubtreeAt.hung a up B u ++ R.filter (SubtreeAt.outside a B)))).filter
        (fun r => r.key ∈ a :: B.map Prod.fst) =
      ((flat O).filter fun r => r.key ∈ a :: B.map Prod.fst).map (rowSetParent a u.head?) := by
  have hflat : ∀ X : List (ℕ × List ℕ),
      (flat X).filter (fun r => r.key ∈ a :: B.map Prod.fst) =
        flat (X.filter fun r => r.1 ∈ a :: B.map Prod.fst) := fun X => List.filter_map
  have hout : ∀ X : List (ℕ × List ℕ),
      (X.filter (SubtreeAt.outside a B)).filter (fun r => r.1 ∈ a :: B.map Prod.fst) = [] := by
    intro X
    apply List.filter_eq_nil_iff.mpr
    intro r hr hin
    exact of_decide_eq_true (List.mem_filter.mp hr).2 (of_decide_eq_true hin)
  have hin : ∀ X : List (ℕ × List ℕ), X.map Prod.fst = a :: B.map Prod.fst →
      X.filter (fun r => r.1 ∈ a :: B.map Prod.fst) = X := by
    intro X hX
    apply List.filter_eq_self.mpr
    intro r hr
    exact decide_eq_true (hX ▸ List.mem_map_of_mem hr)
  have hmoving := moving_eq h hnd u
  have hnone : ∀ X : List (ℕ × List ℕ), X ⊆ A ++ C →
      X.filter (fun r => r.1 ∈ a :: B.map Prod.fst) = [] := by
    intro X hX
    rw [← h.filter_of_subset hnd hX]
    exact hout X
  have hO : O = A ++ (((a, up) :: B) ++ C) := h.eq
  rw [hflat, hflat, List.filter_append, List.filter_append, hout, hout,
    hin _ (SubtreeAt.map_fst_hung a up B u), List.nil_append, List.append_nil]
  conv_rhs => rw [hO]
  rw [List.filter_append, List.filter_append, hnone A (by simp), hnone C (by simp), hin _ rfl,
    List.nil_append, List.append_nil, ← hmoving, drop_flat h]
  have hsize : A.length + 1 + B.length - A.length = (flat B).length + 1 := by
    rw [length_flat]
    omega
  rw [hsize, List.take_succ_cons, List.take_left, flat_cons]

/-- Is the zone a place beside the row? A row is its own sibling, but not its own child. -/
def isSibling : DropZone → Bool
  | .siblingBefore => true
  | .siblingAfter => true
  | .child => false

/-- What the handler computes before the move, for a target that is not below the source. -/
theorem dragDataReceived_eq (hs : s.rows = flat O) (hO : IsOutline [] O)
    (hnd : (O.map Prod.fst).Nodup) (ha : (a, up) ∈ O) {t : ℕ} {ut : List ℕ}
    {At Bt Ct : List (ℕ × List ℕ)} (ht : SubtreeAt O t ut At Bt Ct) (hout : a ∉ ut)
    {zone : DropZone} (hself : a = t → isSibling zone = true) :
    s.dragDataReceived a (some (t, zone)) =
      (match zone with
        | .siblingBefore => s.moveSubtree a ut.head? (some At.length)
        | .siblingAfter => s.moveSubtree a ut.head? (some (At.length + 1 + Bt.length))
        | .child => s.moveSubtree a (some t) (some (At.length + 1 + Bt.length))).map
          fun s' : TerminalSidebar => s'.reselect a := by
  have hinside := rowIsDescendantOf_flat hO hnd ht.mem a
  have hindex := rowGetIndex_flat ht hnd
  have hend := subtreeEndIndex_flat ht hO hnd
  rw [← hs] at hinside hindex hend
  have hstay : ¬ (decide (a ∈ ut) || (a = t && zone = .child)) = true := by
    simp only [Bool.or_eq_true, decide_eq_true_eq, Bool.and_eq_true, not_or, not_and]
    refine ⟨hout, fun heq hzone => ?_⟩
    have hsib := hself heq
    rw [hzone] at hsib
    cases hsib
  simp only [dragDataReceived, lookupRow_of_mem hs hnd ha, lookupRow_of_mem hs hnd ht.mem, hinside,
    hindex, hend, Option.bind_eq_bind, Option.bind_some, if_neg hstay]
  cases zone with
  | siblingBefore => cases hm : s.moveSubtree a ut.head? (some At.length) <;> simp [line, hm]
  | siblingAfter =>
      cases hm : s.moveSubtree a ut.head? (some (At.length + 1 + Bt.length)) <;> simp [line, hm]
  | child =>
      cases s.moveSubtree a (some t) (some (At.length + 1 + Bt.length)) <;> simp

/-- The nodes of the subtree: the node itself and those below it. -/
theorem mem_subtree_iff {O : List (ℕ × List ℕ)} (hO : IsOutline [] O) (hnd : (O.map Prod.fst).Nodup)
    (h : SubtreeAt O a up A B C) {t : ℕ} {ut : List ℕ} (ht : (t, ut) ∈ O) :
    t ∈ a :: B.map Prod.fst ↔ t = a ∨ a ∈ ut := by
  rw [List.mem_cons, h.mem_ancestors_iff hO hnd ht]
  refine or_congr_right ⟨fun hB => ?_, fun hB => List.mem_map_of_mem hB⟩
  obtain ⟨⟨b, ub⟩, hb, rfl⟩ := List.mem_map.mp hB
  have hbO : (b, ub) ∈ O := by
    rw [h.eq]
    simp [hb]
  rw [eq_of_mem_of_nodup hnd ht hbO]
  exact hb

/-- Where a drop moves the tree at `a`: between the nodes `L` and the nodes `R`, under the last node
of `u`. -/
structure DropsAt (s : TerminalSidebar) (F : Forest ℕ) (a : ℕ) (up : List ℕ)
    (B : List (ℕ × List ℕ)) (target : ℕ × DropZone) (L R : List (ℕ × List ℕ)) (u : List ℕ) :
    Prop where
  split : outline [] F = L ++ R
  behind : IsOutline u R
  outside : a ∉ u
  moves : s.dragDataReceived a (some target) =
    (s.moveSubtree a u.head? (some L.length)).map (fun s' : TerminalSidebar => s'.reselect a)
  result : outline [] (dropped a (some target) F) = L.filter (SubtreeAt.outside a B) ++
    (SubtreeAt.hung a up B u ++ R.filter (SubtreeAt.outside a B))

section Place

variable {F : Forest ℕ} (hF : (preorder F).Nodup) (hs : s.rows = flat (outline [] F))
  (h : SubtreeAt (outline [] F) a up A B C) {zone : DropZone}

include hF hs h

/-- Beside itself: the tree goes back to where it was. -/
theorem exists_place_self (ha : a ∉ up) (hzone : isSibling zone = true) :
    ∃ L R u, DropsAt s F a up B (a, zone) L R u := by
  have hO : IsOutline [] (outline [] F) := isOutline_outline List.suffix_rfl F
  have hnd : ((outline [] F).map Prod.fst).Nodup := by rwa [← preorder_eq_map]
  have hdrag := dragDataReceived_eq hs hO hnd h.mem h ha fun _ => hzone
  have hroot : a ∈ preorder (treeAt a F) := by
    rw [preorder_treeAt hF h]
    exact List.mem_cons_self
  have hA := h.filter_of_subset hnd (List.subset_append_left A C)
  have hC := h.filter_of_subset hnd (List.subset_append_right A C)
  have htree : ((a, up) :: B).filter (SubtreeAt.outside a B) = [] :=
    SubtreeAt.filter_subtree a up B
  cases zone with
  | siblingBefore =>
      refine ⟨A, ((a, up) :: B) ++ C, up, h.eq, ?_, ha, hdrag, ?_⟩
      · exact (isOutline_append.mp (h.eq ▸ hO)).2.of_head (by simp)
      · rw [dropped_of_mem hroot, h.hung_self, List.filter_append, htree, hA, hC, List.nil_append]
        exact h.eq
  | siblingAfter =>
      have hlen : (A ++ (a, up) :: B).length = A.length + 1 + B.length := by
        rw [List.length_append, List.length_cons]
        omega
      refine ⟨A ++ (a, up) :: B, C, up, by rw [h.eq]; simp, h.behind, ha, by rw [hdrag, hlen], ?_⟩
      rw [dropped_of_mem hroot, h.hung_self, List.filter_append, htree, hA, hC, List.append_nil]
      exact h.eq
  | child => cases hzone

/-- Beside or under a row that is not in the tree: what the graft writes in the forest without it. -/
theorem exists_place_other {t : ℕ} {ut : List ℕ} (ht : (t, ut) ∈ outline [] F) (ha : a ∉ ut)
    (hne : a ≠ t) : ∃ L R u, DropsAt s F a up B (t, zone) L R u := by
  have hO : IsOutline [] (outline [] F) := isOutline_outline List.suffix_rfl F
  have hnd : ((outline [] F).map Prod.fst).Nodup := by rwa [← preorder_eq_map]
  obtain ⟨At, Bt, Ct, hsub⟩ := hO.exists_subtreeAt ht
  have hlen : (At ++ (t, ut) :: Bt).length = At.length + 1 + Bt.length := by
    rw [List.length_append, List.length_cons]
    omega
  have hsplit : outline [] F = (At ++ (t, ut) :: Bt) ++ Ct := by
    rw [hsub.eq]
    simp
  have hself : a = t → isSibling zone = true := fun heq => absurd heq hne
  have hdrag := dragDataReceived_eq hs hO hnd h.mem hsub ha hself
  have hta : t ∉ a :: B.map Prod.fst := by
    rw [mem_subtree_iff hO hnd h ht, not_or]
    exact ⟨hne.symm, ha⟩
  have hcutnd : (preorder (cut a F)).Nodup := by
    rw [preorder_eq_map [], outline_cut hF h, ← h.filter_outside hnd]
    exact hnd.sublist (List.filter_sublist.map Prod.fst)
  have hcut : SubtreeAt (outline [] (cut a F)) t ut (At.filter (SubtreeAt.outside a B))
      (Bt.filter (SubtreeAt.outside a B)) (Ct.filter (SubtreeAt.outside a B)) := by
    rw [outline_cut hF h]
    exact h.cut_other hsub hO hnd hta
  have hfilter : ∀ X : List (ℕ × List ℕ), ((t, ut) :: X).filter (SubtreeAt.outside a B) =
      (t, ut) :: X.filter (SubtreeAt.outside a B) := fun X =>
    List.filter_cons_of_pos (decide_eq_true hta)
  have htree : t ∉ preorder (treeAt a F) := by rwa [preorder_treeAt hF h]
  cases zone with
  | siblingBefore =>
      refine ⟨At, (t, ut) :: (Bt ++ Ct), ut, hsub.eq, ?_, ha, hdrag, ?_⟩
      · exact (isOutline_append.mp (hsub.eq ▸ hO)).2.of_head (by simp)
      · rw [dropped, if_neg htree, outline_graftBefore hcutnd hcut, outline_treeAt hF h, hfilter,
          List.filter_append]
  | siblingAfter =>
      refine ⟨At ++ (t, ut) :: Bt, Ct, ut, hsplit, hsub.behind, ha, by rw [hdrag, hlen], ?_⟩
      rw [dropped, if_neg htree, outline_graftAfter hcutnd hcut, outline_treeAt hF h,
        List.filter_append, hfilter]
      simp
  | child =>
      refine ⟨At ++ (t, ut) :: Bt, Ct, t :: ut, hsplit, hsub.behind.mono (List.suffix_cons t ut),
        by simp [hne, ha], by rw [hdrag, hlen, List.head?_cons], ?_⟩
      rw [dropped, if_neg htree, outline_graftUnder hcutnd hcut, outline_treeAt hF h,
        List.filter_append, hfilter]
      simp

/-- The drop on a row that is not below the source: one move, to a place that is not inside. The
forest is the one with the tree of the source grafted there. -/
theorem exists_place {t : ℕ} {ut : List ℕ} (ht : (t, ut) ∈ outline [] F) (ha : a ∉ ut)
    (hself : a = t → isSibling zone = true) : ∃ L R u, DropsAt s F a up B (t, zone) L R u := by
  by_cases heq : a = t
  · subst heq
    have hnd : ((outline [] F).map Prod.fst).Nodup := by rwa [← preorder_eq_map]
    obtain rfl : ut = up := eq_of_mem_of_nodup hnd ht h.mem
    exact exists_place_self hF hs h ha (hself rfl)
  · exact exists_place_other hF hs h ht ha heq

end Place

/-- What a move of the tree at `source` keeps: the other rows with their parents and their order,
and the rows of the tree but for the parent of its root. -/
structure KeepsOthers (F : Forest ℕ) (source : ℕ) (rows rows' : List Row) : Prop where
  outside : rows'.filter (fun r => r.key ∉ preorder (treeAt source F)) =
    rows.filter fun r => r.key ∉ preorder (treeAt source F)
  inside : ∃ p, rows'.filter (fun r => r.key ∈ preorder (treeAt source F)) =
    (rows.filter fun r => r.key ∈ preorder (treeAt source F)).map (rowSetParent source p)

/-- A row keeps the parent that it has. -/
theorem rowSetParent_self (hnd : (O.map Prod.fst).Nodup) (ha : (a, up) ∈ O) {l : List Row}
    (hl : l ⊆ flat O) : l.map (rowSetParent a up.head?) = l := by
  conv_rhs => rw [← List.map_id l]
  apply List.map_congr_left
  intro r hr
  obtain ⟨x, hx, rfl⟩ := List.mem_map.mp (hl hr)
  rw [rowSetParent]
  split
  · rename_i heq
    obtain ⟨b, ub⟩ := x
    obtain rfl : b = a := heq
    rw [eq_of_mem_of_nodup hnd hx ha]
    rfl
  · rfl

/-- A drop that changes nothing keeps the others. -/
theorem KeepsOthers.refl {F : Forest ℕ} (hF : (preorder F).Nodup) (ha : (a, up) ∈ outline [] F) :
    KeepsOthers F a (flat (outline [] F)) (flat (outline [] F)) where
  outside := rfl
  inside := ⟨up.head?, (rowSetParent_self (by rwa [← preorder_eq_map]) ha
    List.filter_sublist.subset).symm⟩

/-- The rows a move leaves keep the others. -/
theorem keepsOthers_moved {F : Forest ℕ} (hF : (preorder F).Nodup)
    (h : SubtreeAt (outline [] F) a up A B C) {L R : List (ℕ × List ℕ)}
    (hLR : outline [] F = L ++ R) (u : List ℕ) :
    KeepsOthers F a (flat (outline [] F)) (flat (L.filter (SubtreeAt.outside a B) ++
      (SubtreeAt.hung a up B u ++ R.filter (SubtreeAt.outside a B)))) := by
  have hnd : ((outline [] F).map Prod.fst).Nodup := by rwa [← preorder_eq_map]
  refine ⟨?_, u.head?, ?_⟩
  · rw [preorder_treeAt hF h]
    exact filter_moved hLR u
  · rw [preorder_treeAt hF h]
    exact filter_moved_subtree h hnd u

/-- **A drop, on the rows of a forest.** -/
theorem dragDataReceived_rows {F : Forest ℕ} (hF : (preorder F).Nodup)
    (hs : s.rows = flat (outline [] F)) {source : ℕ} (hsource : source ∈ preorder F)
    {target : Option (ℕ × DropZone)} (htarget : ∀ t ∈ target, t.1 ∈ preorder F) :
    ∃ s', s.dragDataReceived source target = some s' ∧
      s'.rows = flat (outline [] (dropped source target F)) ∧
      KeepsOthers F source s.rows s'.rows := by
  have hO : IsOutline [] (outline [] F) := isOutline_outline List.suffix_rfl F
  have hnd : ((outline [] F).map Prod.fst).Nodup := by rwa [← preorder_eq_map]
  rw [preorder_eq_map [], List.mem_map] at hsource
  obtain ⟨⟨a, up⟩, hmem, rfl⟩ := hsource
  obtain ⟨A, B, C, h⟩ := hO.exists_subtreeAt hmem
  have hstay := KeepsOthers.refl hF hmem
  cases target with
  | none =>
      obtain ⟨s', hmove, hrows⟩ := moveSubtree_end hs h hO hnd
      refine ⟨s'.reselect a, ?_, ?_, ?_⟩
      · simp only [dragDataReceived, lookupRow_of_mem hs hnd hmem, hmove, Option.map_some]
      · rw [rows_reselect, hrows, dropped, outline_append, outline_cut hF h, outline_treeAt hF h]
      · have hkeep := keepsOthers_moved hF h (List.append_nil _).symm []
        rw [List.filter_nil, List.append_nil, h.filter_outside hnd] at hkeep
        rw [rows_reselect, hrows, hs]
        exact hkeep
  | some target =>
      obtain ⟨t, zone⟩ := target
      have ht := htarget _ rfl
      rw [preorder_eq_map [], List.mem_map] at ht
      obtain ⟨⟨t, ut⟩, htmem, rfl⟩ := ht
      have htree : t ∈ preorder (treeAt a F) ↔ t = a ∨ a ∈ ut := by
        rw [preorder_treeAt hF h, mem_subtree_iff hO hnd h htmem]
      have hinside := rowIsDescendantOf_flat hO hnd htmem a
      rw [← hs] at hinside
      by_cases hout : a ∈ ut
      · -- below the source: refused
        refine ⟨s, ?_, by rw [dropped_of_mem (htree.mpr (Or.inr hout)), hs], hs ▸ hstay⟩
        simp [dragDataReceived, lookupRow_of_mem hs hnd hmem, lookupRow_of_mem hs hnd htmem, hinside,
          hout]
      by_cases hself : a = t → isSibling zone = true
      · obtain ⟨L, R, u, hLR, hrest, ha, hdrag, hgraft⟩ := exists_place hF hs h htmem hout hself
        obtain ⟨s', hmove, hrows⟩ := moveSubtree_at hs h hO hnd hLR hrest ha
        refine ⟨s'.reselect a, by rw [hdrag, hmove, Option.map_some], ?_, ?_⟩
        · rw [rows_reselect, hrows, hgraft]
        · rw [rows_reselect, hrows, hs]
          exact keepsOthers_moved hF h hLR u
      · -- on itself: refused
        rw [Classical.not_imp] at hself
        obtain ⟨rfl, hzone⟩ := hself
        have hchild : zone = .child := by
          cases zone with
          | siblingBefore => exact absurd rfl hzone
          | siblingAfter => exact absurd rfl hzone
          | child => rfl
        refine ⟨s, ?_, by rw [dropped_of_mem (htree.mpr (Or.inl rfl)), hs], hs ▸ hstay⟩
        simp [dragDataReceived, lookupRow_of_mem hs hnd htmem, hinside, hchild]

/-! ### A change of parent -/

/-- A moved row has lost the selection, so that it is not the active one. -/
theorem reselect_moved (hs : s.rows = flat O) (h : SubtreeAt O a up A B C) (hO : IsOutline [] O)
    (hnd : (O.map Prod.fst).Nodup) (hactive : s.activeScreen = s.selectedRow)
    {newParent insertIndex : Option ℕ} {s' : TerminalSidebar}
    (hmove : s.moveSubtree a newParent insertIndex = some s') : s'.reselect a = s' := by
  have hsize : A.length + 1 + B.length - A.length = B.length + 1 := by omega
  simp only [moveSubtree, hs, rowGetIndex_flat h hnd, subtreeEndIndex_flat h hO hnd,
    Option.bind_eq_bind, Option.bind_some, Option.some.injEq, hsize, drop_flat h,
    List.take_succ_cons] at hmove
  have hne : s'.activeScreen ≠ some a := by
    rw [← hmove, deselect]
    split
    · exact (Option.some_ne_none a).symm
    · rename_i hany
      intro hact
      apply hany
      have hsel : s.activeScreen = some (line (a, up)).key := hact
      rw [List.any_cons, ← hactive, decide_eq_true hsel, Bool.true_or]
  rw [reselect, if_neg hne]

/-- **Hanging a row at another is dropping it in the middle zone**, or below all rows. The selection
is the same, too, when the active row is the selected one. -/
theorem setScreenParent_eq {F : Forest ℕ} (hF : (preorder F).Nodup)
    (hs : s.rows = flat (outline [] F)) (child : ℕ) (parent : Option ℕ) :
    (s.setScreenParent child parent).map (fun r => r.1.rows) =
        (s.dragDataReceived child (parent.map fun p => (p, .child))).map TerminalSidebar.rows ∧
      (s.activeScreen = s.selectedRow → (s.setScreenParent child parent).map Prod.fst =
        s.dragDataReceived child (parent.map fun p => (p, .child))) := by
  have hO : IsOutline [] (outline [] F) := isOutline_outline List.suffix_rfl F
  have hnd : ((outline [] F).map Prod.fst).Nodup := by rwa [← preorder_eq_map]
  cases hrow : s.lookupRow child with
  | none =>
      have hset : s.setScreenParent child parent = some (s, false) := by
        simp [setScreenParent, hrow]
      simp [hset, dragDataReceived, hrow]
  | some row =>
      obtain ⟨up, hmem, rfl⟩ := exists_mem_of_lookupRow hs hrow
      obtain ⟨A, B, C, h⟩ := hO.exists_subtreeAt hmem
      cases parent with
      | none =>
          obtain ⟨s', hmove, -⟩ := moveSubtree_end hs h hO hnd
          simp only [setScreenParent, reduceCtorEq, if_false, hrow, hmove, Option.map_some,
            Option.map_none, dragDataReceived, rows_reselect, true_and, Option.some.injEq]
          exact fun hactive => (reselect_moved hs h hO hnd hactive hmove).symm
      | some p =>
          by_cases hself : p = child
          · subst hself
            have hinside := rowIsDescendantOf_flat hO hnd hmem p
            rw [← hs] at hinside
            have hset : s.setScreenParent p (some p) = some (s, false) := by
              unfold setScreenParent
              exact if_pos rfl
            simp [hset, dragDataReceived, hrow, hinside]
          cases hprow : s.lookupRow p with
          | none => simp [setScreenParent, dragDataReceived, hrow, hprow, hself]
          | some parentRow =>
              obtain ⟨ut, hpmem, rfl⟩ := exists_mem_of_lookupRow hs hprow
              obtain ⟨At, Bt, Ct, hp⟩ := hO.exists_subtreeAt hpmem
              have hinside := rowIsDescendantOf_flat hO hnd hpmem child
              have hindex := rowGetIndex_flat hp hnd
              have hend := subtreeEndIndex_flat hp hO hnd
              rw [← hs] at hinside hindex hend
              by_cases hout : child ∈ ut
              · simp [setScreenParent, dragDataReceived, hrow, hprow, hself, hinside, hout]
              · cases hmove : s.moveSubtree child (some p) (some (At.length + 1 + Bt.length)) with
                | none =>
                    simp [setScreenParent, dragDataReceived, hrow, hprow, hself, hinside, hout,
                      hindex, hend, hmove, Ne.symm hself]
                | some s' =>
                    simp only [setScreenParent, Option.some.injEq, hself, if_false, hrow, hprow,
                      hinside, hout, decide_false, Bool.false_eq_true, hindex, hend, hmove,
                      dragDataReceived, Option.map_some, Option.bind_eq_bind, Option.bind_some,
                      Ne.symm hself, Bool.false_and, Bool.or_self, rows_reselect, true_and]
                    exact fun hactive => (reselect_moved hs h hO hnd hactive hmove).symm

/-- **Drop placement.** On the rows of a forest a drop leaves the rows of the forest with the tree
of the source cut out and grafted at the target, and a change of parent is a drop. -/
theorem drop_placement {F : Forest ℕ} (hF : (preorder F).Nodup)
    (hs : s.rows = flat (outline [] F)) :
    (∀ source ∈ preorder F, ∀ target : Option (ℕ × DropZone), (∀ t ∈ target, t.1 ∈ preorder F) →
      ∃ s', s.dragDataReceived source target = some s' ∧
        s'.rows = flat (outline [] (dropped source target F)) ∧
        KeepsOthers F source s.rows s'.rows) ∧
    (∀ child parent, (s.setScreenParent child parent).map (fun r => r.1.rows) =
        (s.dragDataReceived child (parent.map fun p => (p, .child))).map TerminalSidebar.rows) ∧
    (s.activeScreen = s.selectedRow → ∀ child parent,
      (s.setScreenParent child parent).map Prod.fst =
        s.dragDataReceived child (parent.map fun p => (p, .child))) :=
  ⟨fun _ hsource _ htarget => dragDataReceived_rows hF hs hsource htarget,
    fun child parent => (setScreenParent_eq hF hs child parent).1,
    fun hactive child parent => (setScreenParent_eq hF hs child parent).2 hactive⟩

/-- Two roots with a child each. -/
def twoFamilies : Forest ℕ := node 0 (node 1 nil nil) (node 2 (node 3 nil nil) nil)

/-- The first family goes below the child of the second. -/
theorem family_below_family :
    ∃ s', dragDataReceived ⟨flat (outline [] twoFamilies), some 0, some 0⟩ 0 (some (3, .child)) =
        some s' ∧
      s'.rows = flat (outline [] (dropped 0 (some (3, .child)) twoFamilies)) ∧
      KeepsOthers twoFamilies 0 (flat (outline [] twoFamilies)) s'.rows :=
  (drop_placement (s := ⟨flat (outline [] twoFamilies), some 0, some 0⟩) (by decide) rfl).1 0
    (by decide) _ (by decide)

example : dropped 0 (some (3, .child)) twoFamilies =
    node 2 (node 3 (node 0 (node 1 nil nil) nil) nil) nil := by decide

end TerminalSidebar

end Axan.LinuxSidebar
