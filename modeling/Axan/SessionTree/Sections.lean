import Axan.Base.Places
import Axan.SessionState.Row

/-!
# Sections of the sidebar: `_RecomputeSections`

A labelled separator is the header of a section, the siblings behind it up to the next separator.
A collapsed header hides the rows of its section, with what hangs under them, and shows how many
there are and the strongest state among them. The focused row and its ancestors are exempt.

* `Sidebar`, `walk`, `recomputeSections`, `expandSectionsContaining` — the code. A node has an
  identity of its own, and the sidebar keeps the identities distinct.
* `InCollapsedSection`, `counted` — the rows of a collapsed section, and those its header counts.
* `Settled` — what a pass leaves of a node, by where it stands.
* `walk_settled` — the walk, in any surroundings; `Sidebar.recomputeSections_settled` — a whole
  pass; `Sidebar.sections_hide` — **what a pass hides, and what expanding the sections of a row
  comes to**.

The header is written when the next separator or the end is reached; here the walk of the rest of a
container returns what it counted for the section it is in. Logging, container states and the
hoisted group are left out.
-/

namespace Axan.SessionTree

open Axan.Base Axan.Base.Forest Axan.SessionState

/-! ## The code -/

/-- A node with its view-model. Source: `TreeViewNode` and `SessionNodeViewModel` -/
structure SectionNode where
  /-- The identity of the node. -/
  ident : ℕ
  /-- The tab the node stands for. -/
  tabRef : Option ℕ := none
  vm : SessionNodeViewModel := {}
  separatorLabel : WString := []
  collapsed : Bool := false
  sectionSummary : WString := []
  sectionBadge : WString := []
  sectionHidden : Bool := false
  deriving DecidableEq, Repr

namespace SectionNode

def isSeparator (n : SectionNode) : Bool := n.vm.isSeparator

/-- Source: `HasSectionHeader` -/
def hasSectionHeader (n : SectionNode) : Bool := n.isSeparator && !n.separatorLabel.isEmpty

/-- Source: `SetSectionHidden` -/
def setSectionHidden (n : SectionNode) (hidden : Bool) : SectionNode :=
  { n with sectionHidden := hidden }

/-- Source: `SetSectionSummary` -/
def setSectionSummary (n : SectionNode) (summary badge : WString) : SectionNode :=
  { n with sectionSummary := summary, sectionBadge := badge }

/-- Source: `SetCollapsed` -/
def setCollapsed (n : SectionNode) (collapsed : Bool) : SectionNode :=
  { n with collapsed := collapsed && n.hasSectionHeader }

end SectionNode

/-- Source: `_stateRank` -/
def stateRank (state : WString) : ℕ :=
  if state = L "needs-you" then 5
  else if state = L "error" then 4
  else if state = L "done-unseen" then 3
  else if state = L "working" then 2
  else if state = L "running" then 1
  else 0

/-- The rank of a row. -/
def SectionNode.rank (n : SectionNode) : ℕ := stateRank n.vm.state

/-- Source: `_stateBadge` -/
def stateBadge (rank count : ℕ) : WString :=
  let n := L (toString count)
  if rank = 5 then n ++ L " needs you"
  else if rank = 4 then n ++ (if count = 1 then L " error" else L " errors")
  else if rank = 3 then n ++ L " done"
  else if rank = 2 then n ++ L " working"
  else if rank = 1 then n ++ L " running"
  else []

/-- The locals of the walk that are counted up for a header. -/
structure Tally where
  count : ℕ := 0
  strongest : ℕ := 0
  strongestCount : ℕ := 0
  deriving DecidableEq, Repr

/-- A node in `tally`. -/
def Tally.add (t : Tally) (n : SectionNode) : Tally :=
  if n.isSeparator then t
  else
    let rank := n.rank
    let t := { t with count := t.count + 1 }
    if rank > t.strongest then { t with strongest := rank, strongestCount := 1 }
    else if rank = t.strongest ∧ rank > 0 then { t with strongestCount := t.strongestCount + 1 }
    else t

/-- Source: `_RecomputeSections`, `tally`, for the nodes of a container -/
def Tally.addAll (t : Tally) : Forest SectionNode → Tally
  | nil => t
  | node a c s => ((t.add a).addAll c).addAll s

/-- What a header shows. Source: `_RecomputeSections`, `finish` -/
def SectionNode.finish (n : SectionNode) (t : Tally) : SectionNode :=
  if !n.hasSectionHeader then n
  else if n.collapsed then
    n.setSectionSummary (utf16 [' ', '·', ' '] ++ L (toString t.count))
      (stateBadge t.strongest t.strongestCount)
  else n.setSectionSummary [] []

/-- `collapsed` is that the current section has a collapsed header, `t` what was counted for it so
far; what is counted in the end is returned. Source: `_RecomputeSections`, `walk` -/
def walk (isActive : SectionNode → Bool) (parentHidden collapsed : Bool) (t : Tally) :
    Forest SectionNode → Forest SectionNode × Tally
  | nil => (nil, t)
  | node a c s =>
      let exempt := isActive a
      if a.isSeparator then
        -- the current section ends here
        let rest := walk isActive parentHidden (a.hasSectionHeader && a.collapsed) {} s
        let below := walk isActive parentHidden false {} c
        (node ((a.finish rest.2).setSectionHidden parentHidden) below.1 rest.1, t)
      else
        let bySection := collapsed && !exempt
        let hidden := (parentHidden && !exempt) || bySection
        let t := if bySection then (t.add a).addAll c else t
        let rest := walk isActive parentHidden collapsed t s
        let below := walk isActive hidden false {} c
        (node (a.setSectionHidden hidden) below.1 rest.1, rest.2)

/-- A node and its ancestors, nearest first. Source: the loops over `Parent` -/
def chainOf (tree : Forest SectionNode) (is : SectionNode → Bool) : List SectionNode :=
  match (outline [] tree).find? fun r => is r.1 with
  | some r => r.1 :: r.2
  | none => []

/-- The sidebar: the tree, and the focused tab. -/
structure Sidebar where
  tree : Forest SectionNode
  /-- Nodes are told apart by their identity. -/
  nodup : (keys SectionNode.ident tree).Nodup
  focusedTab : Option ℕ

/-- A node without what a pass writes. -/
def SectionNode.bare (n : SectionNode) : SectionNode :=
  (n.setSectionSummary [] []).setSectionHidden false

/-- The end of a section changes its tally only. -/
theorem SectionNode.bare_finish (n : SectionNode) (t : Tally) : (n.finish t).bare = n.bare := by
  unfold finish
  split_ifs <;> rfl

/-- The walk changes nothing else. -/
theorem map_bare_walk (isActive : SectionNode → Bool) (parentHidden collapsed : Bool) (t : Tally)
    (F : Forest SectionNode) :
    (walk isActive parentHidden collapsed t F).1.map SectionNode.bare = F.map SectionNode.bare := by
  induction F generalizing parentHidden collapsed t with
  | nil => rfl
  | node a c s ihc ihs =>
      rw [walk]
      split_ifs
      · rw [Forest.map, Forest.map, ihc, ihs]
        congr 1
        exact a.bare_finish _
      · rw [Forest.map, Forest.map, ihc, ihs]
        rfl

/-- The rows are the same without what the pass writes. -/
theorem keys_eq_of_map_bare {F G : Forest SectionNode}
    (h : F.map SectionNode.bare = G.map SectionNode.bare) :
    keys SectionNode.ident F = keys SectionNode.ident G := by
  have hkeys : ∀ H : Forest SectionNode,
      keys SectionNode.ident H = (preorder (H.map SectionNode.bare)).map SectionNode.ident := by
    intro H
    rw [keys, preorder_map, List.map_map]
    rfl
  rw [hkeys, hkeys G, h]

namespace Sidebar

/-- The focused row and its ancestors. Source: `_RecomputeSections`, `activeChain` -/
def activeChain (s : Sidebar) : List SectionNode :=
  match s.focusedTab with
  | none => []
  | some tab => chainOf s.tree fun n => n.tabRef = some tab

def isActive (s : Sidebar) (n : SectionNode) : Bool :=
  n.ident ∈ s.activeChain.map SectionNode.ident

/-- Source: `_RecomputeSections` -/
def recomputeSections (s : Sidebar) : Sidebar where
  tree := (walk s.isActive false false {} s.tree).1
  nodup := by
    rw [keys_eq_of_map_bare (map_bare_walk _ _ _ _ _)]
    exact s.nodup
  focusedTab := s.focusedTab

/-- Another tab gets the focus. -/
def focus (s : Sidebar) (tab : Option ℕ) : Sidebar := { s with focusedTab := tab }

end Sidebar

/-- The nearest separator among the siblings in front of a node, if it is a header.
Source: `_SectionHeaderFor` -/
def sectionHeaderFor (tree : Forest SectionNode) (ident : ℕ) : Option SectionNode :=
  match locateContainer SectionNode.ident ident tree with
  | none => none
  | some (container, index) =>
      match ((roots container).take index).reverse.find? SectionNode.isSeparator with
      | none => none
      | some sibling => if sibling.hasSectionHeader then some sibling else none

/-- Change the node with an identity. -/
def updateNode (ident : ℕ) (f : SectionNode → SectionNode) (tree : Forest SectionNode) :
    Forest SectionNode :=
  tree.map fun n => if n.ident = ident then f n else n

/-- One round of `_ExpandSectionsContaining`. -/
def expandHeader (r : Forest SectionNode × Bool) (n : SectionNode) : Forest SectionNode × Bool :=
  match sectionHeaderFor r.1 n.ident with
  | none => r
  | some header =>
      if header.collapsed then (updateNode header.ident (·.setCollapsed false) r.1, true) else r

/-- An update adds and removes no row. -/
theorem keys_updateNode {f : SectionNode → SectionNode} (hf : ∀ n, (f n).ident = n.ident)
    (ident : ℕ) (tree : Forest SectionNode) :
    keys SectionNode.ident (updateNode ident f tree) = keys SectionNode.ident tree := by
  rw [keys, updateNode, preorder_map, List.map_map]
  apply List.map_congr_left
  intro n _
  simp only [Function.comp_apply]
  split_ifs
  · exact hf n
  · rfl

theorem keys_foldl_expandHeader (ns : List SectionNode) (r : Forest SectionNode × Bool) :
    keys SectionNode.ident (ns.foldl expandHeader r).1 = keys SectionNode.ident r.1 := by
  induction ns generalizing r with
  | nil => rfl
  | cons n ns ih =>
      rw [List.foldl_cons, ih]
      unfold expandHeader
      cases sectionHeaderFor r.1 n.ident with
      | none => rfl
      | some header =>
          simp only
          split_ifs
          · exact keys_updateNode (f := fun m => m.setCollapsed false) (fun _ => rfl) _ _
          · rfl

/-- Source: `_ExpandSectionsContaining` -/
def Sidebar.expandSectionsContaining (s : Sidebar) (ident : ℕ) : Sidebar :=
  let chain := chainOf s.tree fun n => n.ident = ident
  let result := chain.foldl expandHeader (s.tree, false)
  let expanded : Sidebar := { s with
    tree := result.1
    nodup := by rw [keys_foldl_expandHeader]; exact s.nodup }
  if result.2 then expanded.recomputeSections else expanded

/-! ## Sections -/

/-- Behind these siblings a row is in the section of a collapsed header: the header stands among
them, with no other separator in between. -/
def UnderCollapsed (before : List SectionNode) : Prop :=
  ∃ front header rows, before = front ++ header :: rows ∧ header.hasSectionHeader = true ∧
    header.collapsed = true ∧ ∀ n ∈ rows, n.isSeparator = false

/-- A row, with the siblings in front of it, is in the section of a collapsed header. A separator is
in no section. -/
def InCollapsedSection (x : SectionNode × List SectionNode) : Prop :=
  x.1.isSeparator = false ∧ UnderCollapsed x.2

/-- Nothing is in front of the first row. -/
theorem not_underCollapsed_nil : ¬UnderCollapsed [] := by
  rintro ⟨front, header, rows, hsplit, -⟩
  cases front <;> cases hsplit

/-- A header is a separator. -/
theorem isSeparator_of_hasSectionHeader {n : SectionNode} (h : n.hasSectionHeader = true) :
    n.isSeparator = true := by
  unfold SectionNode.hasSectionHeader at h
  exact (Bool.and_eq_true_iff.mp h).1

/-- A session closes no section. -/
theorem underCollapsed_append_row {before : List SectionNode} {n : SectionNode}
    (hn : n.isSeparator = false) : UnderCollapsed (before ++ [n]) ↔ UnderCollapsed before := by
  constructor
  · rintro ⟨front, header, rows, hsplit, hheader, hcol, hrows⟩
    rcases List.eq_nil_or_concat' rows with rfl | ⟨rows, m, rfl⟩
    · obtain ⟨-, hlast⟩ := List.append_inj' hsplit rfl
      obtain rfl : n = header := (List.cons.inj hlast).1
      rw [isSeparator_of_hasSectionHeader hheader] at hn
      cases hn
    · rw [← List.cons_append, ← List.append_assoc] at hsplit
      obtain ⟨hfront, -⟩ := List.append_inj' hsplit rfl
      refine ⟨front, header, rows, hfront, hheader, hcol, ?_⟩
      intro k hk
      exact hrows k (List.mem_append_left _ hk)
  · rintro ⟨front, header, rows, rfl, hheader, hcol, hrows⟩
    refine ⟨front, header, rows ++ [n], by simp, hheader, hcol, ?_⟩
    intro k hk
    rcases List.mem_append.mp hk with hk | hk
    · exact hrows k hk
    · rw [List.mem_singleton.mp hk]
      exact hn

/-- A separator ends the last section and may begin one. -/
theorem underCollapsed_append_separator {before : List SectionNode} {n : SectionNode}
    (hn : n.isSeparator = true) :
    UnderCollapsed (before ++ [n]) ↔ n.hasSectionHeader = true ∧ n.collapsed = true := by
  constructor
  · rintro ⟨front, header, rows, hsplit, hheader, hcol, hrows⟩
    rcases List.eq_nil_or_concat' rows with rfl | ⟨rows, m, rfl⟩
    · obtain ⟨-, hlast⟩ := List.append_inj' hsplit rfl
      obtain rfl : n = header := (List.cons.inj hlast).1
      exact ⟨hheader, hcol⟩
    · rw [← List.cons_append, ← List.append_assoc] at hsplit
      obtain ⟨-, hlast⟩ := List.append_inj' hsplit rfl
      obtain rfl : n = m := (List.cons.inj hlast).1
      rw [hrows n (by simp)] at hn
      cases hn
  · rintro ⟨hheader, hcol⟩
    exact ⟨before, n, [], rfl, hheader, hcol, by simp⟩

/-! ## What a header counts -/

/-- The rows a collapsed header counts: those of its section that are not exempt, and the rows below
them. -/
def counted (isActive : SectionNode → Bool) (after : Forest SectionNode) : List SectionNode :=
  ((((trees after).takeWhile fun t => !t.1.isSeparator).filter fun t => !isActive t.1).flatMap
    fun t => t.1 :: preorder t.2).filter fun n => !n.isSeparator

/-- The strongest rank among rows, zero for no state. -/
def strongestRank (rows : List SectionNode) : ℕ := (rows.map SectionNode.rank).foldr max 0

/-- How many rows have the strongest rank. -/
def strongestCount (rows : List SectionNode) : ℕ :=
  rows.countP fun n => n.rank = strongestRank rows

/-- The tally counts the rows one by one. -/
theorem addAll_eq_foldl (t : Tally) (F : Forest SectionNode) :
    t.addAll F = (preorder F).foldl Tally.add t := by
  induction F generalizing t with
  | nil => rfl
  | node a c s ihc ihs => rw [Tally.addAll, ihs, ihc, preorder, List.foldl_cons, List.foldl_append]

theorem foldl_add_rows (t : Tally) (ns : List SectionNode) :
    (ns.filter fun n => !n.isSeparator).foldl Tally.add t = ns.foldl Tally.add t := by
  induction ns generalizing t with
  | nil => rfl
  | cons n ns ih =>
      cases hn : n.isSeparator with
      | false => rw [List.filter_cons_of_pos (by simp [hn]), List.foldl_cons, List.foldl_cons, ih]
      | true =>
          have hadd : t.add n = t := by
            unfold Tally.add
            exact if_pos hn
          rw [List.filter_cons_of_neg (by simp [hn]), List.foldl_cons, hadd, ih]

/-- The tally says how many rows there are, the strongest rank and how many have it. -/
structure Tally.Of (rows : List SectionNode) (t : Tally) : Prop where
  count : t.count = rows.length
  strongest : t.strongest = strongestRank rows
  strongestCount : 0 < t.strongest → t.strongestCount = SessionTree.strongestCount rows

/-- No row is stronger than the strongest. -/
theorem le_strongestRank {rows : List SectionNode} {n : SectionNode} (h : n ∈ rows) :
    n.rank ≤ strongestRank rows := by
  induction rows with
  | nil => cases h
  | cons m rows ih =>
      rw [strongestRank, List.map_cons, List.foldr_cons]
      rcases List.mem_cons.mp h with rfl | h
      · exact le_max_left _ _
      · exact (ih h).trans (le_max_right _ _)

/-- One more row may be. -/
theorem strongestRank_append_singleton (rows : List SectionNode) (n : SectionNode) :
    strongestRank (rows ++ [n]) = max (strongestRank rows) n.rank := by
  induction rows with
  | nil => exact Nat.max_comm n.rank 0
  | cons m rows ih =>
      rw [List.cons_append, strongestRank, List.map_cons, List.foldr_cons, ← strongestRank, ih,
        ← max_assoc]
      rfl

/-- One more row is counted. -/
theorem Tally.Of.add {rows : List SectionNode} {t : Tally} (h : t.Of rows) {n : SectionNode}
    (hn : n.isSeparator = false) : (t.add n).Of (rows ++ [n]) := by
  have hmax := strongestRank_append_singleton rows n
  have hcount := h.count
  have hstrongest := h.strongest
  have hle : ∀ m ∈ rows, m.rank ≤ strongestRank rows := fun m hm => le_strongestRank hm
  unfold Tally.add
  rw [if_neg (by simp [hn])]
  simp only
  split_ifs with hgt heq
  · refine ⟨by simp [hcount], by rw [hmax, max_eq_right]; omega, fun _ => ?_⟩
    -- no row in front has the new rank
    have hnone : (rows.countP fun m => m.rank = n.rank) = 0 := by
      apply List.countP_eq_zero.mpr
      intro m hm
      have := hle m hm
      rw [decide_eq_true_eq]
      omega
    rw [SessionTree.strongestCount, hmax, max_eq_right (by omega), List.countP_append, hnone]
    simp
  · refine ⟨by simp [hcount], by rw [hmax, max_eq_left]; omega; omega, fun hpos => ?_⟩
    have hold := h.strongestCount hpos
    rw [SessionTree.strongestCount, hmax, max_eq_left (by omega), List.countP_append, hold,
      SessionTree.strongestCount]
    simp [← hstrongest, heq.1]
  · refine ⟨by simp [hcount], by rw [hmax, max_eq_left]; omega; omega, fun hpos => ?_⟩
    have hold := h.strongestCount hpos
    have hne : n.rank ≠ strongestRank rows := by
      rw [← hstrongest]
      rintro heq'
      exact heq ⟨heq', heq' ▸ hpos⟩
    rw [SessionTree.strongestCount, hmax, max_eq_left (by omega), List.countP_append, hold,
      SessionTree.strongestCount]
    simp [hne]

/-- **The tally of rows.** -/
theorem tally_of (rows : List SectionNode) (h : ∀ n ∈ rows, n.isSeparator = false) :
    (rows.foldl Tally.add {}).Of rows := by
  induction rows using List.reverseRecOn with
  | nil => exact ⟨rfl, rfl, fun h => absurd h (lt_irrefl _)⟩
  | append_singleton rows n ih =>
      rw [List.foldl_append]
      apply Tally.Of.add
      · exact ih fun m hm => h m (List.mem_append_left _ hm)
      · exact h n (by simp)

/-- A separator has no rows to count. -/
theorem counted_separator (isActive : SectionNode → Bool) {a : SectionNode}
    (ha : a.isSeparator = true) (c s : Forest SectionNode) :
    counted isActive (node a c s) = [] := by
  unfold counted
  rw [trees, List.takeWhile_cons_of_neg (by simp [ha])]
  rfl

/-- The active row is not counted. -/
theorem counted_exempt {isActive : SectionNode → Bool} {a : SectionNode}
    (ha : a.isSeparator = false) (hactive : isActive a = true) (c s : Forest SectionNode) :
    counted isActive (node a c s) = counted isActive s := by
  unfold counted
  rw [trees, List.takeWhile_cons_of_pos (by simp [ha]), List.filter_cons_of_neg (by simp [hactive])]

/-- Any other counts with all below it. -/
theorem counted_row {isActive : SectionNode → Bool} {a : SectionNode}
    (ha : a.isSeparator = false) (hactive : isActive a = false) (c s : Forest SectionNode) :
    counted isActive (node a c s) =
      ((a :: preorder c).filter fun n => !n.isSeparator) ++ counted isActive s := by
  unfold counted
  rw [trees, List.takeWhile_cons_of_pos (by simp [ha]), List.filter_cons_of_pos (by simp [hactive]),
    List.flatMap_cons, List.filter_append]

/-- Sessions are counted, and nothing else. -/
theorem not_isSeparator_of_mem_counted {isActive : SectionNode → Bool} {F : Forest SectionNode}
    {n : SectionNode} (h : n ∈ counted isActive F) : n.isSeparator = false := by
  unfold counted at h
  simpa using (List.mem_filter.mp h).2

/-- What the walk of the rest of a container adds to the tally of its section. -/
theorem walk_tally (isActive : SectionNode → Bool) (parentHidden collapsed : Bool) (t : Tally)
    (F : Forest SectionNode) :
    (walk isActive parentHidden collapsed t F).2 =
      if collapsed then (counted isActive F).foldl Tally.add t else t := by
  induction F generalizing parentHidden collapsed t with
  | nil => exact (ite_self t).symm
  | node a c s _ ihs =>
      unfold walk
      cases ha : a.isSeparator with
      | true =>
          rw [counted_separator isActive ha]
          exact (ite_self t).symm
      | false =>
          simp only [Bool.false_eq_true, if_false, ihs]
          cases collapsed with
          | false => rfl
          | true =>
              cases hactive : isActive a with
              | true =>
                  rw [counted_exempt ha hactive]
                  rfl
              | false =>
                  rw [counted_row ha hactive, List.foldl_append, foldl_add_rows, List.foldl_cons,
                    ← addAll_eq_foldl]
                  rfl

/-! ## What a pass leaves -/

/-- What a pass leaves of the node at a place. -/
structure Settled (isActive : SectionNode → Bool) (p : Place SectionNode) (n : SectionNode) :
    Prop where
  bare : n.bare = p.node.bare
  /-- Hidden: the node is not exempt, and it or an ancestor that is not exempt is in the section of
  a collapsed header. -/
  hidden : n.sectionHidden = true ↔ isActive p.node = false ∧
    ∃ x ∈ p.path, isActive x.1 = false ∧ InCollapsedSection x
  /-- What a collapsed header shows. -/
  collapsed : p.node.hasSectionHeader = true → p.node.collapsed = true →
    n.sectionSummary = utf16 [' ', '·', ' '] ++ L (toString (counted isActive p.after).length) ∧
      n.sectionBadge = stateBadge (strongestRank (counted isActive p.after))
        (strongestCount (counted isActive p.after))
  /-- What an expanded header shows. -/
  expanded : p.node.hasSectionHeader = true → p.node.collapsed = false →
    n.sectionSummary = [] ∧ n.sectionBadge = []

/-- The badge is that of the strongest row. -/
theorem stateBadge_strongest {rows : List SectionNode} {t : Tally} (h : t.Of rows) :
    stateBadge t.strongest t.strongestCount =
      stateBadge (strongestRank rows) (strongestCount rows) := by
  rw [h.strongest]
  rcases Nat.eq_zero_or_pos (strongestRank rows) with hzero | hpos
  · rw [hzero]
    rfl
  · rw [h.strongestCount (h.strongest ▸ hpos)]

/-- A separator closes the section in front and opens one behind. -/
theorem settled_separator {isActive : SectionNode → Bool} {parentHidden : Bool}
    {p : Place SectionNode} (hsep : p.node.isSeparator = true)
    (hactive : isActive p.node = true → ∀ x ∈ p.up, isActive x.1 = true)
    (hparent : parentHidden = true ↔ ∃ x ∈ p.up, isActive x.1 = false ∧ InCollapsedSection x) :
    Settled isActive p ((p.node.finish (walk isActive parentHidden
      (p.node.hasSectionHeader && p.node.collapsed) {} p.after).2).setSectionHidden
        parentHidden) := by
  have hself : ¬InCollapsedSection (p.node, p.before) := by
    rintro ⟨h, -⟩
    rw [hsep] at h
    cases h
  refine ⟨p.node.bare_finish _, ?_, fun hheader hcol => ?_, fun hheader hcol => ?_⟩
  · constructor
    · intro hhidden
      obtain ⟨x, hx, hxactive, hxin⟩ := hparent.mp hhidden
      refine ⟨?_, x, List.mem_cons_of_mem _ hx, hxactive, hxin⟩
      by_contra hne
      rw [hactive (by simpa using hne) x hx] at hxactive
      cases hxactive
    · rintro ⟨-, x, hx, hxactive, hxin⟩
      rcases List.mem_cons.mp hx with rfl | hx
      · exact absurd hxin hself
      · exact hparent.mpr ⟨x, hx, hxactive, hxin⟩
  · have htally := tally_of (counted isActive p.after) fun n => not_isSeparator_of_mem_counted
    rw [walk_tally, hheader, hcol]
    unfold SectionNode.finish
    rw [if_neg (by simp [hheader]), if_pos hcol]
    refine ⟨?_, stateBadge_strongest htally⟩
    rw [← htally.count]
    rfl
  · unfold SectionNode.finish
    rw [if_neg (by simp [hheader]), if_neg (by simp [hcol])]
    exact ⟨rfl, rfl⟩

/-- A row, from the section it is in and what hides its parent. -/
theorem settled_row {isActive : SectionNode → Bool} {parentHidden collapsed : Bool}
    {p : Place SectionNode} (hrow : p.node.isSeparator = false)
    (hparent : parentHidden = true ↔ ∃ x ∈ p.up, isActive x.1 = false ∧ InCollapsedSection x)
    (hcol : collapsed = true ↔ UnderCollapsed p.before) :
    Settled isActive p (p.node.setSectionHidden
      ((parentHidden && !isActive p.node) || (collapsed && !isActive p.node))) := by
  have hheader : p.node.hasSectionHeader = false := by
    unfold SectionNode.hasSectionHeader
    rw [hrow]
    rfl
  refine ⟨rfl, ?_, fun h => ?_, fun h => ?_⟩
  · rw [SectionNode.setSectionHidden, ← Bool.and_or_distrib_right, Bool.and_eq_true,
      Bool.or_eq_true, hparent, hcol, and_comm]
    constructor
    · rintro ⟨hactive, ⟨x, hx, hin⟩ | hunder⟩
      · exact ⟨by simpa using hactive, x, List.mem_cons_of_mem _ hx, hin⟩
      · exact ⟨by simpa using hactive, _, List.mem_cons_self, by simpa using hactive, hrow, hunder⟩
    · rintro ⟨hactive, x, hx, hin⟩
      refine ⟨by simpa using hactive, ?_⟩
      rcases List.mem_cons.mp hx with rfl | hx
      · exact Or.inr hin.2.2
      · exact Or.inl ⟨x, hx, hin⟩
  · rw [hheader] at h
    cases h
  · rw [hheader] at h
    cases h

/-- **The walk, in any surroundings.** The exempt nodes are closed towards the roots. -/
theorem walk_settled {isActive : SectionNode → Bool} {parentHidden collapsed : Bool} (t : Tally)
    {up : List (SectionNode × List SectionNode)} {before : List SectionNode} {F : Forest SectionNode}
    (hclosed : ∀ p ∈ places up before F, isActive p.node = true → ∀ x ∈ p.up, isActive x.1 = true)
    (hparent : parentHidden = true ↔ ∃ x ∈ up, isActive x.1 = false ∧ InCollapsedSection x)
    (hcol : collapsed = true ↔ UnderCollapsed before) :
    List.Forall₂ (Settled isActive) (places up before F)
      (preorder (walk isActive parentHidden collapsed t F).1) := by
  induction F generalizing parentHidden collapsed t up before with
  | nil => exact List.Forall₂.nil
  | node a c s ihc ihs =>
      have hself := hclosed _ List.mem_cons_self
      have hclosedc : ∀ p ∈ places ((a, before) :: up) [] c, isActive p.node = true →
          ∀ x ∈ p.up, isActive x.1 = true := fun p hp =>
        hclosed p (List.mem_cons_of_mem _ (List.mem_append_left _ hp))
      have hcloseds : ∀ p ∈ places up (before ++ [a]) s, isActive p.node = true →
          ∀ x ∈ p.up, isActive x.1 = true := fun p hp =>
        hclosed p (List.mem_cons_of_mem _ (List.mem_append_right _ hp))
      have hnil : false = true ↔ UnderCollapsed [] := by simp [not_underCollapsed_nil]
      unfold walk
      cases ha : a.isSeparator with
      | true =>
          have hnode := settled_separator (p := ⟨a, c, before, s, up⟩) ha hself hparent
          have hparentc : parentHidden = true ↔
              ∃ x ∈ (a, before) :: up, isActive x.1 = false ∧ InCollapsedSection x := by
            rw [hparent, List.exists_mem_cons_iff]
            simp [InCollapsedSection, ha]
          have hcols : (a.hasSectionHeader && a.collapsed) = true ↔
              UnderCollapsed (before ++ [a]) := by
            rw [underCollapsed_append_separator ha, Bool.and_eq_true]
          simp only [if_true]
          apply List.Forall₂.cons hnode
          exact List.rel_append (ihc _ hclosedc hparentc hnil) (ihs _ hcloseds hparent hcols)
      | false =>
          have hnode := settled_row (p := ⟨a, c, before, s, up⟩) ha hparent hcol
          have hparentc : ((parentHidden && !isActive a) || (collapsed && !isActive a)) = true ↔
              ∃ x ∈ (a, before) :: up, isActive x.1 = false ∧ InCollapsedSection x := by
            refine hnode.hidden.trans ⟨fun h => h.2, ?_⟩
            rintro ⟨x, hx, hxactive, hxin⟩
            refine ⟨?_, x, hx, hxactive, hxin⟩
            -- an exempt row has no ancestor that is not
            cases hactive : isActive a with
            | false => rfl
            | true =>
                rcases List.mem_cons.mp hx with rfl | hx
                · rw [hactive] at hxactive
                  cases hxactive
                · rw [hself hactive x hx] at hxactive
                  cases hxactive
          have hcols : collapsed = true ↔ UnderCollapsed (before ++ [a]) := by
            rw [hcol, underCollapsed_append_row ha]
          simp only [Bool.false_eq_true, if_false]
          apply List.Forall₂.cons hnode
          exact List.rel_append (ihc _ hclosedc hparentc hnil) (ihs _ hcloseds hparent hcols)

/-! ## The chain of a row -/

/-- Every row has a place. -/
theorem exists_place_of_mem {F : Forest SectionNode} {n : SectionNode} (h : n ∈ preorder F) :
    ∃ p ∈ places [] [] F, p.node = n := by
  rw [preorder_eq_places [] []] at h
  exact List.mem_map.mp h

/-- The chain is the way from a place up. -/
theorem chainOf_cases (tree : Forest SectionNode) (is : SectionNode → Bool) :
    chainOf tree is = [] ∧ (∀ p ∈ places [] [] tree, is p.node = false) ∨
      ∃ p ∈ places [] [] tree, is p.node = true ∧ chainOf tree is = p.path.map Prod.fst := by
  have houtline : outline [] tree = _ := outline_eq_places [] [] tree
  unfold chainOf
  rw [houtline, List.find?_map]
  cases hfind : (places [] [] tree).find? (_ ∘ _) with
  | none =>
      refine Or.inl ⟨rfl, fun p hp => ?_⟩
      simpa using List.find?_eq_none.mp hfind p hp
  | some p =>
      refine Or.inr ⟨p, List.mem_of_find?_eq_some hfind, ?_, rfl⟩
      simpa using List.find?_some hfind

/-- An ancestor of a row on the chain is on the chain. -/
theorem Sidebar.isActive_up (s : Sidebar) {p : Place SectionNode} (hp : p ∈ places [] [] s.tree)
    (h : s.isActive p.node = true) : ∀ x ∈ p.up, s.isActive x.1 = true := by
  unfold isActive at h
  obtain ⟨y, hy, hident⟩ := List.mem_map.mp (of_decide_eq_true h)
  unfold activeChain at hy
  cases htab : s.focusedTab with
  | none =>
      rw [htab] at hy
      cases hy
  | some tab =>
      rw [htab] at hy
      rcases chainOf_cases s.tree fun n => n.tabRef = some tab with ⟨hnil, -⟩ | ⟨q, hq, -, hchain⟩
      · simp only [hnil] at hy
        cases hy
      · simp only [hchain] at hy
        obtain ⟨z, hz, rfl⟩ := List.mem_map.mp hy
        obtain ⟨l, r, hsplit⟩ := List.append_of_mem hz
        rcases exists_place_above hq hsplit with ⟨q', hq', hpath⟩ | hup
        · -- the place of the entry is the place of the row
          have hnode : q'.node = z.1 := congrArg Prod.fst (List.cons.inj hpath).1
          have heq : q' = p :=
            eq_of_mem_places s.nodup hq' hp (by rw [hnode]; exact hident)
          intro x hx
          unfold isActive activeChain
          rw [htab]
          simp only [hchain, decide_eq_true_eq, List.mem_map]
          have hxr : x ∈ r := by
            rw [← (List.cons.inj hpath).2, heq]
            exact hx
          refine ⟨x.1, ⟨x, ?_, rfl⟩, rfl⟩
          rw [hsplit]
          exact List.mem_append_right _ (List.mem_cons_of_mem _ hxr)
        · have hlen := hup.length_le
          simp at hlen

/-- **A pass settles every node.** -/
theorem Sidebar.recomputeSections_settled (s : Sidebar) :
    List.Forall₂ (Settled s.isActive) (places [] [] s.tree) (preorder s.recomputeSections.tree) := by
  apply walk_settled {} (fun p hp => s.isActive_up hp)
  · simp
  · simp [not_underCollapsed_nil]

/-! ## Expanding -/

/-- The nearest separator in front, if it is a collapsed header. -/
theorem underCollapsed_iff_find? {before : List SectionNode} :
    UnderCollapsed before ↔ ∃ header, before.reverse.find? SectionNode.isSeparator = some header ∧
      header.hasSectionHeader = true ∧ header.collapsed = true := by
  constructor
  · rintro ⟨front, header, rows, rfl, hheader, hcol, hrows⟩
    refine ⟨header, ?_, hheader, hcol⟩
    rw [List.find?_eq_some_iff_append]
    refine ⟨isSeparator_of_hasSectionHeader hheader, rows.reverse, front.reverse, by simp, ?_⟩
    intro n hn
    simp [hrows n (List.mem_reverse.mp hn)]
  · rintro ⟨header, hfind, hheader, hcol⟩
    obtain ⟨-, rows, front, hsplit, hrows⟩ := List.find?_eq_some_iff_append.mp hfind
    refine ⟨front.reverse, header, rows.reverse, ?_, hheader, hcol, ?_⟩
    · rw [← before.reverse_reverse, hsplit]
      simp
    · intro n hn
      simpa using hrows n (List.mem_reverse.mp hn)

/-- What the search backwards finds is the header the walk was in. -/
theorem sectionHeaderFor_eq {tree : Forest SectionNode}
    (hnodup : (keys SectionNode.ident tree).Nodup) {p : Place SectionNode}
    (hp : p ∈ places [] [] tree) :
    sectionHeaderFor tree p.node.ident =
      (p.before.reverse.find? SectionNode.isSeparator).filter SectionNode.hasSectionHeader := by
  obtain ⟨c, i, hfind, hsplit⟩ := locateContainer_eq hnodup hp
  unfold sectionHeaderFor
  rw [hfind]
  simp only [hsplit.before]
  cases p.before.reverse.find? SectionNode.isSeparator with
  | none => rfl
  | some sibling => exact (Option.filter_some ..).symm

/-- Nodes are expanded, or stay as they are. -/
def Opens (f : SectionNode → SectionNode) : Prop := ∀ n, f n = n ∨ f n = n.setCollapsed false

namespace Opens

variable {f g : SectionNode → SectionNode}

/-- The identity stays. -/
theorem ident (hf : Opens f) (n : SectionNode) : (f n).ident = n.ident := by
  rcases hf n with h | h
  · rw [h]
  · rw [h]
    rfl

/-- So does the kind of the row. -/
theorem isSeparator (hf : Opens f) (n : SectionNode) : (f n).isSeparator = n.isSeparator := by
  rcases hf n with h | h
  · rw [h]
  · rw [h]
    rfl

theorem collapsed (hf : Opens f) {n : SectionNode} (h : (f n).collapsed = true) :
    n.collapsed = true := by
  rcases hf n with hn | hn
  · rwa [hn] at h
  · rw [hn] at h
    cases h

/-- A header stays one. -/
theorem hasSectionHeader (hf : Opens f) (n : SectionNode) :
    (f n).hasSectionHeader = n.hasSectionHeader := by
  rcases hf n with h | h
  · rw [h]
  · rw [h]
    rfl

/-- So it is with two changes. -/
theorem comp (hf : Opens f) (hg : Opens g) : Opens fun n => g (f n) := by
  intro n
  simp only
  rcases hg (f n) with hgn | hgn
  · rw [hgn]
    exact hf n
  · rw [hgn]
    rcases hf n with hfn | hfn
    · rw [hfn]
      exact Or.inr rfl
    · rw [hfn]
      exact Or.inr rfl

/-- Behind siblings of which some were expanded. -/
theorem underCollapsed_map (hf : Opens f) {before : List SectionNode} :
    UnderCollapsed (before.map f) ↔ ∃ header,
      before.reverse.find? SectionNode.isSeparator = some header ∧
        header.hasSectionHeader = true ∧ (f header).collapsed = true := by
  have hsep : SectionNode.isSeparator ∘ f = SectionNode.isSeparator := funext hf.isSeparator
  rw [underCollapsed_iff_find?, ← List.map_reverse, List.find?_map, hsep]
  constructor
  · rintro ⟨header, hfind, hheader, hcol⟩
    obtain ⟨m, hm, rfl⟩ := Option.map_eq_some_iff.mp hfind
    exact ⟨m, hm, (hf.hasSectionHeader m).symm.trans hheader, hcol⟩
  · rintro ⟨header, hfind, hheader, hcol⟩
    refine ⟨f header, ?_, (hf.hasSectionHeader header).trans hheader, hcol⟩
    rw [hfind]
    rfl

/-- A row that was visible stays so. -/
theorem not_underCollapsed (hf : Opens f) {before : List SectionNode} (h : ¬UnderCollapsed before) :
    ¬UnderCollapsed (before.map f) := by
  rw [hf.underCollapsed_map]
  rintro ⟨header, hfind, hheader, hcol⟩
  exact h (underCollapsed_iff_find?.mpr ⟨header, hfind, hheader, hf.collapsed hcol⟩)

end Opens

theorem opens_id : Opens id := fun _ => Or.inl rfl

theorem opens_at (ident : ℕ) :
    Opens fun n => if n.ident = ident then n.setCollapsed false else n := by
  intro n
  by_cases h : n.ident = ident
  · exact Or.inr (if_pos h)
  · exact Or.inl (if_neg h)

/-- One round expands the section of a node, if it is collapsed, and reports it. -/
theorem expandHeader_spec {r : Forest SectionNode × Bool}
    (hnodup : (keys SectionNode.ident r.1).Nodup) (n : SectionNode) :
    ∃ f, Opens f ∧ (expandHeader r n).1 = r.1.map f ∧
      ((expandHeader r n).2 = false → f = id ∧ r.2 = false) ∧
      ∀ p ∈ places [] [] r.1, p.node.ident = n.ident → ¬UnderCollapsed (p.before.map f) := by
  have hheader : ∀ p ∈ places [] [] r.1, p.node.ident = n.ident → sectionHeaderFor r.1 n.ident =
      (p.before.reverse.find? SectionNode.isSeparator).filter SectionNode.hasSectionHeader :=
    fun p hp hident => by rw [← hident, sectionHeaderFor_eq hnodup hp]
  unfold expandHeader
  cases hfor : sectionHeaderFor r.1 n.ident with
  | none =>
      refine ⟨id, opens_id, (map_id _).symm, fun h => ⟨rfl, h⟩, fun p hp hident => ?_⟩
      rw [opens_id.underCollapsed_map]
      rintro ⟨header, hfind, hlabel, -⟩
      have h := hheader p hp hident
      rw [hfor, hfind, Option.filter_some, if_pos hlabel] at h
      cases h
  | some header =>
      -- the nearest separator is the header that was found
      have hnearest : ∀ p ∈ places [] [] r.1, p.node.ident = n.ident → ∀ m,
          p.before.reverse.find? SectionNode.isSeparator = some m → m.hasSectionHeader = true →
          m = header := by
        intro p hp hident m hm hlabel
        have h := hheader p hp hident
        rw [hfor, hm, Option.filter_some, if_pos hlabel] at h
        exact (Option.some.inj h).symm
      simp only
      split_ifs with hcol
      · refine ⟨_, opens_at header.ident, rfl, fun h => (by cases h), fun p hp hident => ?_⟩
        rw [(opens_at header.ident).underCollapsed_map]
        rintro ⟨m, hm, hlabel, hmcol⟩
        rw [hnearest p hp hident m hm hlabel, if_pos rfl] at hmcol
        cases hmcol
      · refine ⟨id, opens_id, (map_id _).symm, fun h => ⟨rfl, h⟩, fun p hp hident => ?_⟩
        rw [opens_id.underCollapsed_map]
        rintro ⟨m, hm, hlabel, hmcol⟩
        rw [hnearest p hp hident m hm hlabel] at hmcol
        exact hcol hmcol

/-- The rounds together. -/
theorem foldl_expandHeader_spec (ns : List SectionNode) {r : Forest SectionNode × Bool}
    (hnodup : (keys SectionNode.ident r.1).Nodup) :
    ∃ f, Opens f ∧ (ns.foldl expandHeader r).1 = r.1.map f ∧
      ((ns.foldl expandHeader r).2 = false → f = id ∧ r.2 = false) ∧
      ∀ n ∈ ns, ∀ p ∈ places [] [] r.1, p.node.ident = n.ident →
        ¬UnderCollapsed (p.before.map f) := by
  induction ns generalizing r with
  | nil => exact ⟨id, opens_id, (map_id _).symm, fun h => ⟨rfl, h⟩, by simp⟩
  | cons n ns ih =>
      obtain ⟨f, hf, htree, hflag, hn⟩ := expandHeader_spec hnodup n
      have hnodup' : (keys SectionNode.ident (expandHeader r n).1).Nodup := by
        have h := keys_foldl_expandHeader [n] r
        rw [List.foldl_cons, List.foldl_nil] at h
        rw [h]
        exact hnodup
      obtain ⟨g, hg, htree', hflag', hns⟩ := ih hnodup'
      refine ⟨fun m => g (f m), hf.comp hg, ?_, ?_, ?_⟩
      · rw [List.foldl_cons, htree', htree, Forest.map_map]
      · intro h
        obtain ⟨rfl, h⟩ := hflag' h
        obtain ⟨rfl, h⟩ := hflag h
        exact ⟨rfl, h⟩
      · intro m hm p hp hident
        rw [show p.before.map (fun k => g (f k)) = (p.before.map f).map g by simp]
        rcases List.mem_cons.mp hm with rfl | hm
        · exact hg.not_underCollapsed (hn p hp hident)
        · have hp' : p.map f ∈ places [] [] (expandHeader r n).1 := by
            rw [htree]
            exact mem_places_map.mpr ⟨p, hp, rfl⟩
          exact hns m hm _ hp' ((hf.ident p.node).trans hident)

/-- After the rounds neither the row nor an ancestor is behind a collapsed header. -/
theorem foldl_expandHeader_clear {tree : Forest SectionNode}
    (hnodup : (keys SectionNode.ident tree).Nodup) (ident : ℕ) {p : Place SectionNode}
    (hp : p ∈ places [] [] ((chainOf tree fun n => n.ident = ident).foldl expandHeader
      (tree, false)).1)
    (hident : p.node.ident = ident) : ∀ x ∈ p.path, ¬UnderCollapsed x.2 := by
  obtain ⟨f, hf, htree, -, hclear⟩ :=
    foldl_expandHeader_spec (chainOf tree fun n => n.ident = ident) (r := (tree, false)) hnodup
  rw [htree] at hp
  obtain ⟨q, hq, rfl⟩ := mem_places_map.mp hp
  have hqident : q.node.ident = ident := (hf.ident q.node).symm.trans hident
  rcases chainOf_cases tree fun n => n.ident = ident with ⟨-, hnone⟩ | ⟨p', hp', hp'ident, hchain⟩
  · have h := hnone q hq
    rw [decide_eq_false_iff_not] at h
    exact absurd hqident h
  · obtain rfl : p' = q := by
      apply eq_of_mem_places hnodup hp' hq
      rw [of_decide_eq_true hp'ident, hqident]
    intro x hx
    rw [Place.path_map] at hx
    obtain ⟨y, hy, rfl⟩ := List.mem_map.mp hx
    obtain ⟨l, r, hsplit⟩ := List.append_of_mem hy
    rcases exists_place_above hp' hsplit with ⟨q', hq', hpath⟩ | hup
    · obtain ⟨hnode, -⟩ := List.cons.inj hpath
      have hmem : q'.node ∈ chainOf tree fun n => n.ident = ident := by
        rw [hchain]
        exact List.mem_map.mpr ⟨y, hy, by rw [← hnode]⟩
      have h := hclear q'.node hmem q' hq' rfl
      rwa [show q'.before = y.2 by rw [← hnode]] at h
    · have hlen := hup.length_le
      simp at hlen

/-- The rest of a row has its identity. -/
theorem ident_eq_of_bare {m n : SectionNode} (h : m.bare = n.bare) : m.ident = n.ident := by
  have hident := congrArg SectionNode.ident h
  exact hident

/-- A settled node is visible when no header above it is collapsed. -/
theorem Settled.visible {isActive : SectionNode → Bool} {p : Place SectionNode} {n : SectionNode}
    (h : Settled isActive p n) (hclear : ∀ x ∈ p.path, ¬UnderCollapsed x.2) :
    n.sectionHidden = false := by
  cases hn : n.sectionHidden with
  | false => rfl
  | true =>
      obtain ⟨-, x, hx, -, -, hunder⟩ := h.hidden.mp hn
      exact absurd hunder (hclear x hx)

/-- Every row is settled at its place. -/
theorem Sidebar.exists_settled (s : Sidebar) {n : SectionNode}
    (hn : n ∈ preorder s.recomputeSections.tree) :
    ∃ p ∈ places [] [] s.tree, Settled s.isActive p n := by
  obtain ⟨i, hi, rfl⟩ := List.getElem_of_mem hn
  have h := s.recomputeSections_settled
  have hlen := h.length_eq
  exact ⟨_, List.getElem_mem (hlen ▸ hi), h.get (hlen ▸ hi) hi⟩

/-- What the pass writes does not hide a row. -/
theorem underCollapsed_map_bare (before : List SectionNode) :
    UnderCollapsed (before.map SectionNode.bare) ↔ UnderCollapsed before := by
  have hsep : SectionNode.isSeparator ∘ SectionNode.bare = SectionNode.isSeparator := rfl
  rw [underCollapsed_iff_find?, underCollapsed_iff_find?, ← List.map_reverse, List.find?_map, hsep]
  cases before.reverse.find? SectionNode.isSeparator with
  | none => simp
  | some header => simp [SectionNode.bare, SectionNode.setSectionHidden,
      SectionNode.setSectionSummary, SectionNode.hasSectionHeader, SectionNode.isSeparator]

/-- A place in what a pass left is a place of the sidebar before, but for what the pass writes. -/
theorem Sidebar.exists_settled_place (s : Sidebar) {p : Place SectionNode}
    (hp : p ∈ places [] [] s.recomputeSections.tree) :
    ∃ q ∈ places [] [] s.tree, p.map SectionNode.bare = q.map SectionNode.bare ∧
      Settled s.isActive q p.node := by
  have hmem : p.node ∈ preorder s.recomputeSections.tree := by
    rw [preorder_eq_places [] []]
    exact List.mem_map_of_mem hp
  obtain ⟨q, hq, hsettled⟩ := s.exists_settled hmem
  have hbare : q.map SectionNode.bare ∈ places [] []
      (s.recomputeSections.tree.map SectionNode.bare) := by
    rw [show s.recomputeSections.tree.map SectionNode.bare = _ from map_bare_walk _ _ _ _ _]
    exact mem_places_map.mpr ⟨q, hq, rfl⟩
  obtain ⟨p', hp', hpq⟩ := mem_places_map.mp hbare
  obtain rfl : p' = p := by
    apply eq_of_mem_places s.recomputeSections.nodup hp' hp
    rw [ident_eq_of_bare (congrArg Place.node hpq), ident_eq_of_bare hsettled.bare]
  exact ⟨q, hq, hpq, hsettled⟩

/-- A node is visible when no header above it is collapsed in what the pass left. -/
theorem Sidebar.visible_of_clear (s : Sidebar) {p : Place SectionNode}
    (hp : p ∈ places [] [] s.recomputeSections.tree)
    (hclear : ∀ x ∈ p.path, ¬UnderCollapsed x.2) : p.node.sectionHidden = false := by
  obtain ⟨q, -, hpq, hsettled⟩ := s.exists_settled_place hp
  apply hsettled.visible
  intro x hx hunder
  have hpath := congrArg Place.path hpq
  rw [Place.path_map, Place.path_map] at hpath
  have hxp : (x.1.bare, x.2.map SectionNode.bare) ∈
      p.path.map fun y => (y.1.bare, y.2.map SectionNode.bare) := by
    rw [hpath]
    exact List.mem_map.mpr ⟨x, hx, rfl⟩
  obtain ⟨y, hy, hyx⟩ := List.mem_map.mp hxp
  have hbefore : y.2.map SectionNode.bare = x.2.map SectionNode.bare := congrArg Prod.snd hyx
  apply hclear y hy
  rw [← underCollapsed_map_bare, hbefore, underCollapsed_map_bare]
  exact hunder

/-- **Section hiding.** A pass leaves the tree as it is but for what it writes, settles every node,
and hides no row of the focused chain; expanding the sections of a row leaves it visible, also when
the focus has moved since the last pass. -/
theorem Sidebar.sections_hide (s : Sidebar) :
    s.recomputeSections.tree.map SectionNode.bare = s.tree.map SectionNode.bare ∧
    List.Forall₂ (Settled s.isActive) (places [] [] s.tree) (preorder s.recomputeSections.tree) ∧
    (∀ n ∈ preorder s.recomputeSections.tree, s.isActive n = true → n.sectionHidden = false) ∧
    ∀ focused ident,
      ∀ n ∈ preorder ((s.recomputeSections.focus focused).expandSectionsContaining ident).tree,
        n.ident = ident → n.sectionHidden = false := by
  refine ⟨map_bare_walk _ _ _ _ _, s.recomputeSections_settled, fun n hn hactive => ?_,
    fun focused ident n hn hident => ?_⟩
  · obtain ⟨p, -, hp⟩ := s.exists_settled hn
    cases hhidden : n.sectionHidden with
    | false => rfl
    | true =>
        have h := (hp.hidden.mp hhidden).1
        unfold isActive at hactive h
        rw [← ident_eq_of_bare hp.bare, hactive] at h
        cases h
  · have hnodup := s.recomputeSections.nodup
    unfold expandSectionsContaining at hn
    simp only at hn
    split_ifs at hn with hchanged
    · obtain ⟨p, hp, hsettled⟩ := Sidebar.exists_settled _ hn
      apply hsettled.visible
      apply foldl_expandHeader_clear hnodup ident hp
      rw [← ident_eq_of_bare hsettled.bare, hident]
    · -- nothing was collapsed: the node is the one the last pass left
      obtain ⟨f, -, htree, hflag, -⟩ := foldl_expandHeader_spec
        (chainOf s.recomputeSections.tree fun n => n.ident = ident)
        (r := (s.recomputeSections.tree, false)) hnodup
      obtain ⟨rfl, -⟩ := hflag (eq_false_of_ne_true hchanged)
      have hsame : ((chainOf s.recomputeSections.tree fun n => n.ident = ident).foldl expandHeader
          (s.recomputeSections.tree, false)).1 = s.recomputeSections.tree := by
        rw [htree, Forest.map_id]
      have hn' : n ∈ preorder s.recomputeSections.tree := hsame ▸ hn
      obtain ⟨p, hp, rfl⟩ := exists_place_of_mem hn'
      apply s.visible_of_clear hp
      exact foldl_expandHeader_clear hnodup ident (hsame.symm ▸ hp) hident

end Axan.SessionTree
