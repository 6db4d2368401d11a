import Axan.Base.FirstMax
import Axan.SessionTree.Sections

/-!
# The badge of a section: `_ActivateSectionBadge`

The badge of a collapsed header names the strongest state among the rows its section hides. A click
expands the section and selects a row.

* `activateSectionBadge` — the code: the strongest of all rows of the section, the oldest of those,
  the first of those.
* `StrongestCounted` — the row the badge speaks of. The scan does not leave the focused row out, and
  what hangs under the row of the section it is below: `ExemptOutranked` says that these rows do not
  win.
* `activateSectionBadge_iff` — the badge leads to such a row exactly then.
-/

namespace Axan.SessionTree

open Axan.Base Axan.Base.Forest Axan.SessionState

/-! ## The code -/

/-- The locals of the scan. -/
structure Best where
  bestRank : ℕ := 0
  bestSince : ℤ := 0
  target : Option SectionNode := none

/-- A node in `scan`. -/
def Best.visit (best : Best) (n : SectionNode) : Best :=
  if n.isSeparator then best
  else if n.rank > best.bestRank ∨
      (n.rank = best.bestRank ∧ n.rank > 0 ∧ n.vm.stateSince < best.bestSince) then
    { bestRank := n.rank, bestSince := n.vm.stateSince, target := some n }
  else best

/-- Source: `_ActivateSectionBadge`, `scan`, for the nodes of a container -/
def Best.scan (best : Best) : Forest SectionNode → Best
  | nil => best
  | node a c s => ((best.visit a).scan c).scan s

/-- The loop over the siblings behind the header. -/
def Best.scanSection (best : Best) : List (SectionNode × Forest SectionNode) → Best
  | [] => best
  | (sibling, c) :: rest =>
      if sibling.isSeparator then best else ((best.visit sibling).scan c).scanSection rest

namespace Sidebar

/-- Source: `_SetSectionCollapsed` -/
def setSectionCollapsed (s : Sidebar) (ident : ℕ) (collapsed : Bool) : Sidebar :=
  match (preorder s.tree).find? fun n => n.ident = ident with
  | none => s
  | some n =>
      if !n.hasSectionHeader || n.collapsed == collapsed then s
      else
        recomputeSections { s with
          tree := updateNode ident (·.setCollapsed collapsed) s.tree
          nodup := by
            rw [keys_updateNode (f := fun m => m.setCollapsed collapsed) (fun _ => rfl)]
            exact s.nodup }

/-- The tab of a row gets the focus. Source: `_SelectTabForNodeVM` -/
def selectTabForNodeVM (s : Sidebar) (n : SectionNode) : Sidebar :=
  if n.isSeparator then s
  else
    match n.tabRef with
    | none => s
    | some tab => s.focus (some tab)

/-- The sidebar, and the row that was selected. Source: `_ActivateSectionBadge` -/
def activateSectionBadge (s : Sidebar) (header : ℕ) : Sidebar × Option SectionNode :=
  match locateContainer SectionNode.ident header s.tree with
  | none => (s, none)
  | some (container, index) =>
      let best := ({} : Best).scanSection ((trees container).drop (index + 1))
      let s := s.setSectionCollapsed header false
      match best.target with
      | none => (s, none)
      | some target => (s.selectTabForNodeVM target, some target)

end Sidebar

/-! ## What the scan finds -/

/-- A row comes before another in the scan's order. -/
def Beats (m n : SectionNode) : Prop :=
  n.rank < m.rank ∨ m.rank = n.rank ∧ m.vm.stateSince < n.vm.stateSince

/-- The order as a key. -/
def scanKey (n : SectionNode) : ℕ ×ₗ ℤ := toLex (n.rank, -n.vm.stateSince)

/-- The scan prefers the row that beats the other. -/
theorem scanKey_lt {m n : SectionNode} : scanKey n < scanKey m ↔ Beats m n := by
  unfold scanKey Beats
  rw [Prod.Lex.toLex_lt_toLex]
  simp only [neg_lt_neg_iff, eq_comm]

/-- And keeps the first among equals. -/
theorem scanKey_le {m n : SectionNode} : scanKey n ≤ scanKey m ↔ ¬Beats n m := by
  rw [← scanKey_lt, not_lt]

/-- The locals for the best row so far. -/
def Best.ofRow : Option SectionNode → Best
  | none => {}
  | some n => { bestRank := n.rank, bestSince := n.vm.stateSince, target := some n }

/-- It visits the rows in their order. -/
theorem scan_eq_foldl (best : Best) (F : Forest SectionNode) :
    best.scan F = (preorder F).foldl Best.visit best := by
  induction F generalizing best with
  | nil => rfl
  | node a c s ihc ihs => rw [Best.scan, ihs, ihc, preorder, List.foldl_cons, List.foldl_append]

/-- The section ends in front of the next separator. -/
theorem scanSection_eq_foldl (best : Best) (ts : List (SectionNode × Forest SectionNode)) :
    best.scanSection ts =
      ((ts.takeWhile fun t => !t.1.isSeparator).flatMap fun t => t.1 :: preorder t.2).foldl
        Best.visit best := by
  induction ts generalizing best with
  | nil => rfl
  | cons t ts ih =>
      obtain ⟨n, c⟩ := t
      unfold Best.scanSection
      cases hn : n.isSeparator with
      | true =>
          rw [List.takeWhile_cons_of_neg (by simp [hn])]
          rfl
      | false =>
          rw [List.takeWhile_cons_of_pos (by simp [hn]), List.flatMap_cons, List.foldl_append,
            List.foldl_cons, ← scan_eq_foldl, ← ih]
          rfl

/-- One visit, when the best row so far has a state. -/
theorem visit_ofRow {m : Option SectionNode} (hm : ∀ n ∈ m, 0 < n.rank) (n : SectionNode) :
    (Best.ofRow m).visit n =
      Best.ofRow (if !n.isSeparator && decide (0 < n.rank) then keepMax scanKey m n else m) := by
  unfold Best.visit
  cases hn : n.isSeparator with
  | true => rfl
  | false =>
      simp only [Bool.false_eq_true, if_false, Bool.not_false, Bool.true_and, decide_eq_true_eq]
      cases m with
      | none =>
          unfold Best.ofRow keepMax
          split_ifs with h h' h'
          · rfl
          · exact absurd h (by simp; omega)
          · exact absurd h (by simp [h'])
          · rfl
      | some k =>
          have hk := hm k rfl
          unfold Best.ofRow keepMax
          simp only
          by_cases hpos : 0 < n.rank
          · rw [if_pos hpos]
            by_cases hbeats : Beats n k
            · rw [if_pos (scanKey_lt.mpr hbeats), if_pos]
              rcases hbeats with h | ⟨h, hsince⟩
              · exact Or.inl h
              · exact Or.inr ⟨h, hpos, hsince⟩
            · rw [if_neg (fun h => hbeats (scanKey_lt.mp h)), if_neg]
              rintro (h | ⟨h, -, hsince⟩)
              · exact hbeats (Or.inl h)
              · exact hbeats (Or.inr ⟨h, hsince⟩)
          · rw [if_neg hpos, if_neg]
            rintro (h | ⟨-, h, -⟩)
            · exact hpos (lt_of_le_of_lt (Nat.zero_le _) h)
            · exact hpos h

/-- **The scan ends with the first maximum of the rows that have a state.** -/
theorem foldl_visit (ns : List SectionNode) :
    ns.foldl Best.visit {} = Best.ofRow (firstMax scanKey
      (ns.filter fun n => !n.isSeparator && decide (0 < n.rank))) := by
  induction ns using List.reverseRecOn with
  | nil => rfl
  | append_singleton ns n ih =>
      rw [List.foldl_append, ih, List.foldl_cons, List.foldl_nil, visit_ofRow,
        firstMax_filter_append_singleton]
      intro m hm
      have hrow := (List.mem_filter.mp (firstMax_mem scanKey hm)).2
      exact of_decide_eq_true (Bool.and_eq_true_iff.mp hrow).2

/-! ## What the badge speaks of -/

/-- The rows of a section that have a state, the exempt ones too. -/
def statedRows (after : Forest SectionNode) : List SectionNode :=
  (((trees after).takeWhile fun t => !t.1.isSeparator).flatMap
    fun t => t.1 :: preorder t.2).filter fun n => !n.isSeparator && decide (0 < n.rank)

/-- The row has the strongest state among those the header counts, and is in it longest. -/
structure StrongestCounted (isActive : SectionNode → Bool) (after : Forest SectionNode)
    (n : SectionNode) : Prop where
  counted : n ∈ counted isActive after
  strongest : n.rank = strongestRank (SessionTree.counted isActive after)
  longest : ∀ m ∈ SessionTree.counted isActive after, m.rank = n.rank →
    n.vm.stateSince ≤ m.vm.stateSince

/-- Every row of the section with a state that the header does not count is outranked by one that it
counts: one in front that it does not beat, or one behind that beats it. -/
def ExemptOutranked (isActive : SectionNode → Bool) (after : Forest SectionNode) : Prop :=
  ∀ front n behind, statedRows after = front ++ n :: behind → n ∉ counted isActive after →
    ∃ m ∈ counted isActive after, m ∈ front ∧ ¬Beats n m ∨ m ∈ behind ∧ Beats m n

/-- What a pass writes does not matter. -/
theorem statedRows_map_bare (F : Forest SectionNode) :
    statedRows (F.map SectionNode.bare) = (statedRows F).map SectionNode.bare := by
  have hrows : ∀ t : SectionNode × Forest SectionNode,
      (t.1.bare :: preorder (t.2.map SectionNode.bare)) =
        (t.1 :: preorder t.2).map SectionNode.bare := by
    intro t
    rw [preorder_map, List.map_cons]
  unfold statedRows
  rw [trees_map, List.takeWhile_map, List.flatMap_map, List.filter_congr fun n _ => rfl]
  simp only [hrows]
  rw [← List.map_flatMap, List.filter_map]
  rfl

/-- A counted row with a state is among those the scan looks at. -/
theorem mem_statedRows_of_counted {isActive : SectionNode → Bool} {after : Forest SectionNode}
    {n : SectionNode} (hn : n ∈ counted isActive after) (hpos : 0 < n.rank) :
    n ∈ statedRows after := by
  unfold counted at hn
  obtain ⟨hmem, hrow⟩ := List.mem_filter.mp hn
  apply List.mem_filter.mpr
  refine ⟨?_, by rw [hrow, decide_eq_true hpos]; rfl⟩
  exact ((List.filter_sublist).flatMap _).subset hmem

/-- The strongest rank is within a bound of all. -/
theorem strongestRank_le {rows : List SectionNode} {b : ℕ} (h : ∀ n ∈ rows, n.rank ≤ b) :
    strongestRank rows ≤ b := by
  induction rows with
  | nil => exact Nat.zero_le _
  | cons n rows ih =>
      rw [strongestRank, List.map_cons, List.foldr_cons]
      apply max_le
      · exact h n List.mem_cons_self
      · exact ih fun m hm => h m (List.mem_cons_of_mem _ hm)

/-- The first maximum is a row the badge speaks of as soon as it is counted. -/
theorem strongestCounted_iff {isActive : SectionNode → Bool} {after : Forest SectionNode}
    {n : SectionNode} (hn : firstMax scanKey (statedRows after) = some n) :
    StrongestCounted isActive after n ↔ n ∈ counted isActive after := by
  have hbeats : ∀ m ∈ counted isActive after, 0 < m.rank → ¬Beats m n := by
    intro m hm hpos
    apply scanKey_le.mp
    exact le_firstMax scanKey hn (mem_statedRows_of_counted hm hpos)
  have hle : ∀ m ∈ counted isActive after, m.rank ≤ n.rank := by
    intro m hm
    rcases Nat.eq_zero_or_pos m.rank with hzero | hpos
    · exact hzero ▸ Nat.zero_le _
    · exact not_lt.mp fun hlt => hbeats m hm hpos (Or.inl hlt)
  have hpos : 0 < n.rank := by
    have hrow := (List.mem_filter.mp (firstMax_mem scanKey hn)).2
    exact of_decide_eq_true (Bool.and_eq_true_iff.mp hrow).2
  refine ⟨fun h => h.counted, fun h => ⟨h, ?_, fun m hm hrank => ?_⟩⟩
  · exact le_antisymm (le_strongestRank h) (strongestRank_le hle)
  · exact not_lt.mp fun hlt => hbeats m hm (hrank ▸ hpos) (Or.inr ⟨hrank, hlt⟩)

/-- **The first maximum is counted when the rows that are not are outranked.** -/
theorem counted_firstMax_iff {isActive : SectionNode → Bool} {after : Forest SectionNode}
    (hne : statedRows after ≠ []) :
    (∃ n, firstMax scanKey (statedRows after) = some n ∧ n ∈ counted isActive after) ↔
      ExemptOutranked isActive after := by
  rw [exists_firstMax_iff scanKey hne]
  unfold ExemptOutranked
  simp only [scanKey_lt, scanKey_le]

/-! ## The click -/

namespace Sidebar

/-- What a click on the badge of a header does. -/
theorem activateSectionBadge_eq (s : Sidebar) {p : Place SectionNode}
    (hp : p ∈ places [] [] s.tree) :
    s.activateSectionBadge p.node.ident =
      match firstMax scanKey (statedRows p.after) with
      | none => (s.setSectionCollapsed p.node.ident false, none)
      | some n => ((s.setSectionCollapsed p.node.ident false).selectTabForNodeVM n, some n) := by
  obtain ⟨c, i, hfind, hsplit⟩ := locateContainer_eq s.nodup hp
  unfold activateSectionBadge
  rw [hfind]
  simp only [hsplit.index, hsplit.index ▸ hsplit.after]
  rw [scanSection_eq_foldl, foldl_visit]
  unfold statedRows
  cases firstMax scanKey _ with
  | none => rfl
  | some n => rfl

/-- A header with a badge has a row with a state in its section. -/
theorem statedRows_ne_nil (s : Sidebar) {p : Place SectionNode}
    (hp : p ∈ places [] [] s.recomputeSections.tree) (hheader : p.node.hasSectionHeader = true)
    (hcol : p.node.collapsed = true) (hbadge : p.node.sectionBadge ≠ []) :
    statedRows p.after ≠ [] := by
  obtain ⟨q, -, hpq, hsettled⟩ := s.exists_settled_place hp
  have hnode : p.node.bare = q.node.bare := congrArg Place.node hpq
  have hqheader : q.node.hasSectionHeader = true := by
    have h := congrArg SectionNode.hasSectionHeader hnode
    exact h.symm.trans hheader
  have hqcol : q.node.collapsed = true := by
    have h := congrArg SectionNode.collapsed hnode
    exact h.symm.trans hcol
  rw [(hsettled.collapsed hqheader hqcol).2] at hbadge
  intro hnil
  apply hbadge
  -- no row before the pass had a state
  have hafter : p.after.map SectionNode.bare = q.after.map SectionNode.bare :=
    congrArg Place.after hpq
  have hq : statedRows q.after = [] := by
    apply List.map_eq_nil_iff.mp
    rw [← statedRows_map_bare, ← hafter, statedRows_map_bare, hnil]
    rfl
  have hzero : strongestRank (counted s.isActive q.after) = 0 := by
    apply Nat.le_zero.mp
    apply strongestRank_le
    intro n hn
    apply not_lt.mp
    intro hpos
    have hmem := mem_statedRows_of_counted hn hpos
    rw [hq] at hmem
    cases hmem
  rw [hzero]
  rfl

/-- **The badge leads to the row it speaks of exactly when the rows that it does not count are
outranked.** -/
theorem activateSectionBadge_iff (s : Sidebar) {p : Place SectionNode}
    (hp : p ∈ places [] [] s.recomputeSections.tree) (hheader : p.node.hasSectionHeader = true)
    (hcol : p.node.collapsed = true) (hbadge : p.node.sectionBadge ≠ []) :
    (∃ sidebar n, s.recomputeSections.activateSectionBadge p.node.ident = (sidebar, some n) ∧
        StrongestCounted s.isActive p.after n ∧
        ∀ tab, n.tabRef = some tab → sidebar.focusedTab = some tab) ↔
      ExemptOutranked s.isActive p.after := by
  have hne := s.statedRows_ne_nil hp hheader hcol hbadge
  rw [activateSectionBadge_eq _ hp, ← counted_firstMax_iff hne]
  constructor
  · rintro ⟨sidebar, n, hclick, hcounted, -⟩
    cases hmax : firstMax scanKey (statedRows p.after) with
    | none =>
        rw [hmax] at hclick
        cases hclick
    | some m =>
        rw [hmax] at hclick
        obtain rfl : m = n := Option.some.inj (Prod.mk.inj hclick).2
        exact ⟨m, rfl, hcounted.counted⟩
  · rintro ⟨n, hmax, hcounted⟩
    rw [hmax]
    refine ⟨_, n, rfl, (strongestCounted_iff hmax).mpr hcounted, ?_⟩
    intro tab htab
    unfold selectTabForNodeVM
    rw [if_neg (by rw [not_isSeparator_of_mem_counted hcounted]; exact Bool.false_ne_true), htab]
    rfl

end Sidebar

/-- A collapsed section with a working and a running row. -/
def workSection (focusedTab : Option ℕ) : Sidebar where
  tree :=
    let header : SectionNode := {
      ident := 0, vm := { isSeparator := true }, separatorLabel := L "work", collapsed := true }
    let row (ident tab : ℕ) (state : WString) (since : ℤ) : SectionNode := {
      ident, tabRef := some tab, vm := { shown := { state, since } } }
    node header nil
      (node (row 1 10 (L "working") 5) nil (node (row 2 11 (L "running") 7) nil nil))
  nodup := by decide
  focusedTab

namespace Sidebar

/-- The working row has the focus: the badge counts the running one and leads to the working one. -/
theorem activateSectionBadge_focused :
    ∃ p ∈ places [] [] (workSection (some 10)).recomputeSections.tree,
      p.node.hasSectionHeader = true ∧ p.node.collapsed = true ∧
      p.node.sectionBadge = L "1 running" ∧
      ¬∃ sidebar n, (workSection (some 10)).recomputeSections.activateSectionBadge p.node.ident =
          (sidebar, some n) ∧
        StrongestCounted (workSection (some 10)).isActive p.after n ∧
        ∀ tab, n.tabRef = some tab → sidebar.focusedTab = some tab := by
  refine ⟨_, List.mem_cons_self, rfl, rfl, by decide, ?_⟩
  rintro ⟨sidebar, n, hclick, hcounted, -⟩
  have hident : n.ident = 1 := by
    have h := congrArg (fun r => r.2.map SectionNode.ident) hclick
    exact (Option.some.inj h).symm
  have hmem := List.mem_map_of_mem (f := SectionNode.ident) hcounted.counted
  rw [hident] at hmem
  revert hmem
  decide

/-- Without the focus there the badge leads to the row it counts. -/
theorem activateSectionBadge_elsewhere :
    ∃ p ∈ places [] [] (workSection none).recomputeSections.tree,
      ((∃ sidebar n, (workSection none).recomputeSections.activateSectionBadge p.node.ident =
          (sidebar, some n) ∧ StrongestCounted (workSection none).isActive p.after n ∧
        ∀ tab, n.tabRef = some tab → sidebar.focusedTab = some tab) ↔
      ExemptOutranked (workSection none).isActive p.after) ∧
      p.node.sectionBadge = L "1 working" :=
  ⟨_, List.mem_cons_self,
    activateSectionBadge_iff (workSection none) List.mem_cons_self rfl rfl (by decide), by decide⟩

end Sidebar

end Axan.SessionTree
