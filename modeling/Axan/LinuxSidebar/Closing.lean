import Axan.Base.Graft
import Axan.LinuxSidebar.PreOrder

/-!
# Closing shells

* `removeScreen_contract` — closing a shell contracts the forest at its row.
* `closeAll` — the sidebar without a set of shells, in one step.
* `foldlM_removeScreen` — closing the shells one after another comes to that.
* `closing_contracts` — **the rows that are left**: in their order, each under its nearest ancestor
  that was not closed, whatever the order of closing.
-/

namespace Axan.LinuxSidebar

open Axan.Base Axan.Base.Forest

namespace TerminalSidebar

variable {s : TerminalSidebar} {F : Forest ℕ}

/-- The sidebar of a forest without the shells `ks`. -/
def closeAll (ks : List ℕ) (F : Forest ℕ) (s : TerminalSidebar) : TerminalSidebar where
  rows := flat (outline [] (contract (fun k => decide (k ∉ ks)) F))
  selectedRow := s.selectedRow.filter fun k => decide (k ∉ ks)
  activeScreen :=
    if s.selectedRow.any fun k => decide (k ∈ ks) then none
    else s.activeScreen.filter fun k => decide (k ∉ ks)

/-- The selection and the active shell after a close. -/
theorem selection_of_removeScreen {O A B C : List (ℕ × List ℕ)} {k : ℕ} {up : List ℕ}
    (hs : s.rows = flat O) (h : SubtreeAt O k up A B C) (hO : IsOutline [] O)
    (hnd : (O.map Prod.fst).Nodup) {s' : TerminalSidebar} (hremove : s.removeScreen k = some s') :
    s'.selectedRow = s.selectedRow.filter (fun x => decide (x ∉ [k])) ∧
      s'.activeScreen = if s.selectedRow.any fun x => decide (x ∈ [k]) then none
        else s.activeScreen.filter fun x => decide (x ∉ [k]) := by
  rw [removeScreen, lookupRow_of_mem hs hnd h.mem] at hremove
  simp only [hs, rowGetIndex_flat h hnd, subtreeEndIndex_flat h hO hnd, Option.bind_eq_bind,
    Option.bind_some, Option.some.injEq] at hremove
  rw [← hremove]
  dsimp only
  have hfilter : ∀ o : Option ℕ,
      (o.filter fun x => decide (x ∉ [k])) = if o = some k then none else o := by
    intro o
    cases o with
    | none => simp
    | some x =>
        by_cases hx : x = k
        · simp [hx]
        · simp [hx]
  rw [hfilter, hfilter, deselect]
  by_cases hsel : s.selectedRow = some k
  · simp [hsel, line]
  · have hany : ([line (k, up)].any fun r => decide (s.selectedRow = some r.key)) = false := by
      simp [line, hsel]
    have hnot : (s.selectedRow.any fun x => decide (x ∈ [k])) = false := by
      cases hsome : s.selectedRow with
      | none => rfl
      | some x =>
          have hx : x ≠ k := fun hxk => hsel (by rw [hsome, hxk])
          simp [hx]
    rw [hany, hnot, if_neg hsel]
    exact ⟨rfl, rfl⟩

/-- **Closing a shell contracts the forest at its row.** -/
theorem removeScreen_contract (hF : (preorder F).Nodup) (hs : s.rows = flat (outline [] F)) {k : ℕ}
    (hk : k ∈ preorder F) : s.removeScreen k = some (s.closeAll [k] F) := by
  have hO : IsOutline [] (outline [] F) := isOutline_outline List.suffix_rfl F
  have hnd : ((outline [] F).map Prod.fst).Nodup := by rwa [← preorder_eq_map]
  rw [preorder_eq_map [], List.mem_map] at hk
  obtain ⟨⟨k, up⟩, hmem, rfl⟩ := hk
  obtain ⟨A, B, C, h⟩ := hO.exists_subtreeAt hmem
  obtain ⟨s', hremove, hrows⟩ := removeScreen_eq hs h hO hnd
  obtain ⟨hselected, hactive⟩ := selection_of_removeScreen hs h hO hnd hremove
  have hforest : contract (fun x => decide (x ∉ [k])) F = contract (· ≠ k) F :=
    contract_congr fun x _ => by simp
  rw [hremove, Option.some.injEq]
  refine TerminalSidebar.mk.injEq .. |>.mpr ⟨?_, hselected, hactive⟩
  rw [hrows, hforest, outline_contract_ne hF h]

/-- What is not closed by one set, then by another, is closed by neither. -/
theorem filter_filter_not_mem (k : ℕ) (ks : List ℕ) (o : Option ℕ) :
    (o.filter fun x => decide (x ∉ [k])).filter (fun x => decide (x ∉ ks)) =
      o.filter fun x => decide (x ∉ k :: ks) := by
  cases o with
  | none => rfl
  | some x => by_cases hx : x = k <;> simp [hx]

/-- The active shell goes with the selected one. -/
theorem active_closed (k : ℕ) (ks : List ℕ) (selected active : Option ℕ) :
    (if (selected.filter fun x => decide (x ∉ [k])).any fun x => decide (x ∈ ks) then none
      else (if selected.any fun x => decide (x ∈ [k]) then none
        else active.filter fun x => decide (x ∉ [k])).filter fun x => decide (x ∉ ks)) =
      if selected.any fun x => decide (x ∈ k :: ks) then none
      else active.filter fun x => decide (x ∉ k :: ks) := by
  cases selected with
  | none => simp
  | some x =>
      by_cases hx : x = k
      · simp [hx]
      · by_cases hxs : x ∈ ks
        · simp [hx, hxs]
        · simp [hx, hxs]

/-- Closing one shell, then a set of shells, is closing all of them. -/
theorem closeAll_closeAll (k : ℕ) (ks : List ℕ) (F : Forest ℕ) (s : TerminalSidebar) :
    (s.closeAll [k] F).closeAll ks (contract (fun x => decide (x ∉ [k])) F) =
      s.closeAll (k :: ks) F := by
  have hforest : contract (fun x => decide (x ∉ ks)) (contract (fun x => decide (x ∉ [k])) F) =
      contract (fun x => decide (x ∉ k :: ks)) F := by
    rw [contract_contract]
    exact contract_congr fun x _ => by simp [not_or]
  refine TerminalSidebar.mk.injEq .. |>.mpr
    ⟨?_, filter_filter_not_mem k ks s.selectedRow, active_closed k ks s.selectedRow s.activeScreen⟩
  rw [hforest]

/-- **Closing shells one after another** is closing all of them. -/
theorem foldlM_removeScreen {ks : List ℕ} (hF : (preorder F).Nodup)
    (hs : s.rows = flat (outline [] F)) (hks : ks ⊆ preorder F) (hnd : ks.Nodup) :
    ks.foldlM removeScreen s = some (s.closeAll ks F) := by
  induction ks generalizing F s with
  | nil =>
      have hself : s.closeAll [] F = s := by
        refine TerminalSidebar.mk.injEq .. |>.mpr ⟨?_, ?_, ?_⟩
        · rw [contract_eq_self fun _ _ => by simp, hs]
        · cases s.selectedRow <;> simp
        · cases s.selectedRow <;> cases s.activeScreen <;> simp
      rw [hself]
      rfl
  | cons k ks ih =>
      rw [List.nodup_cons] at hnd
      have hF' : (preorder (contract (fun x => decide (x ∉ [k])) F)).Nodup := by
        rw [preorder_contract]
        exact hF.filter _
      have hks' : ks ⊆ preorder (contract (fun x => decide (x ∉ [k])) F) := by
        intro x hx
        rw [preorder_contract, List.mem_filter]
        refine ⟨hks (List.mem_cons_of_mem k hx), ?_⟩
        have hne : x ≠ k := fun heq => hnd.1 (heq ▸ hx)
        simp [hne]
      rw [List.foldlM_cons, removeScreen_contract hF hs (hks List.mem_cons_self)]
      exact (ih hF' rfl hks' hnd.2).trans (congrArg some (closeAll_closeAll k ks F s))

/-- **Closing shells is contraction.** The rows that are left keep their order, each hangs at its
nearest ancestor that was not closed, the list is the pre-order of the contracted forest, and every
order of closing the same shells leaves the same sidebar. -/
theorem closing_contracts (hF : (preorder F).Nodup) (hs : s.rows = flat (outline [] F))
    {ks : List ℕ} (hks : ks ⊆ preorder F) (hnd : ks.Nodup) :
    ∃ s', ks.foldlM removeScreen s = some s' ∧
      s'.rows = flat (outline [] (contract (fun k => decide (k ∉ ks)) F)) ∧
      s'.rows = ((outline [] F).filter fun r => decide (r.1 ∉ ks)).map (fun r =>
        ⟨r.1, r.2.find? fun k => decide (k ∉ ks)⟩) ∧
      PreOrder s'.rows ∧
      ∀ ks' : List ℕ, ks'.Perm ks → ks'.foldlM removeScreen s = some s' := by
  refine ⟨s.closeAll ks F, foldlM_removeScreen hF hs hks hnd, rfl, ?_, ?_, ?_⟩
  · have hout := outline_contract (fun k => decide (k ∉ ks)) [] F
    rw [List.filter_nil] at hout
    rw [closeAll, hout, flat, List.map_map]
    apply List.map_congr_left
    intro r _
    rw [Function.comp_apply, line, List.head?_filter]
  · exact ⟨_, by rw [preorder_contract]; exact hF.filter _, rfl⟩
  · intro ks' hperm
    rw [foldlM_removeScreen hF hs (fun k hk => hks (hperm.mem_iff.mp hk)) (hperm.nodup_iff.mpr hnd)]
    simp only [closeAll, hperm.mem_iff]

/-- Three generations. -/
def lineage : Forest ℕ := node 0 (node 1 (node 2 nil nil) nil) nil

/-- The grandchild is left as a root. -/
theorem grandchild_left :
    ∃ s', [0, 1].foldlM removeScreen ⟨flat (outline [] lineage), some 2, some 2⟩ = some s' ∧
      s'.rows = flat (outline [] (contract (fun k => decide (k ∉ [0, 1])) lineage)) := by
  obtain ⟨s', hclose, hrows, -⟩ := @closing_contracts
    ⟨flat (outline [] lineage), some 2, some 2⟩ lineage (by decide) rfl [0, 1] (by decide)
      (by decide)
  exact ⟨s', hclose, hrows⟩

example : contract (fun k => decide (k ∉ [0, 1])) lineage = node 2 nil nil := by decide

end TerminalSidebar

end Axan.LinuxSidebar
