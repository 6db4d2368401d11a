import Axan.Base.Forest

/-!
# The collapse of idle subtrees: `_ApplyIdleCollapse`

With the idle effect "collapse" the sidebar closes the expander of a session whose whole subtree
is idle, and opens it again on activity. It remembers two flags for a row and changes them on its
own ticks only.

* `Row`, `visitNode`, `visit` — the walk over the tree; `Sidebar.tick` — the clock, which makes a
  last pass when the effect is turned off.
* `Sidebar.step`, `Sidebar.run` — ticks, changes of the rows' de-emphasis, and the user's own
  expands and collapses, in any order. `lastAction` and `overridden` are ghost fields.
* `NeverOverridden` — no tick, in any state of a run, opens a row that the user closed last.
* `neverOverridden_iff` — **when that holds**: the user never closes a row that still counts as
  closed by the page. A row the page closed keeps the mark when the user opens it, and the user's
  own collapse does not take it away.
-/

namespace Axan.SessionTree.IdleCollapse

open Axan.Base Axan.Base.Forest

/-- What opened or closed an expander. -/
inductive Action where
  | userExpand
  | userCollapse
  | pageExpand
  | pageCollapse
  deriving DecidableEq, Repr

/-- A node with the part of its view model the pass reads and writes. -/
structure Row where
  /-- The identity of the node. -/
  ident : ℕ
  isSeparator : Bool := false
  isDeEmphasised : Bool := false
  isExpanded : Bool := false
  /-- The subtree was idle at the last tick. -/
  subtreeIdle : Bool := false
  /-- The page closed the expander. -/
  autoCollapsed : Bool := false
  lastAction : Option Action := none
  /-- The page opened the expander after the user had closed it. -/
  overridden : Bool := false
  deriving DecidableEq, Repr

/-- `IsExpanded(false)` by the page. -/
def Row.pageCollapse (a : Row) : Row :=
  { a with isExpanded := false, autoCollapsed := true, lastAction := some .pageCollapse }

/-- `IsExpanded(true)` by the page. -/
def Row.pageExpand (a : Row) : Row :=
  { a with
    isExpanded := true
    lastAction := some .pageExpand
    overridden := a.overridden || a.lastAction = some .userCollapse }

/-- A node after its children: the row, and whether its subtree is idle.
Source: `_ApplyIdleCollapse`, `visit` -/
def visitNode (enabled : Bool) (a : Row) (childrenIdle hasSessionChild hasChild : Bool) :
    Row × Bool :=
  if a.isSeparator then (a, true)
  else
    let subtreeIdle := enabled && a.isDeEmphasised && childrenIdle
    let b :=
      if subtreeIdle && !a.subtreeIdle && hasSessionChild && a.isExpanded then a.pageCollapse
      else if !subtreeIdle && a.autoCollapsed then
        if !a.isExpanded && hasChild then { a with autoCollapsed := false }.pageExpand
        else { a with autoCollapsed := false }
      else a
    ({ b with subtreeIdle := subtreeIdle }, subtreeIdle)

/-- Does a node have children? -/
def hasTree : Forest Row → Bool
  | nil => false
  | node _ _ _ => true

/-- The nodes of a container, whether its sessions are idle, and whether it has one. -/
def visit (enabled : Bool) : Forest Row → Forest Row × Bool × Bool
  | nil => (nil, true, false)
  | node a c s =>
      let below := visit enabled c
      let here := visitNode enabled a below.2.1 below.2.2 (hasTree c)
      let rest := visit enabled s
      (node here.1 below.1 rest.1, (a.isSeparator || here.2) && rest.2.1,
        !a.isSeparator || rest.2.2)

/-- The sidebar. -/
structure Sidebar where
  tree : Forest Row
  /-- The last tick made a pass with the effect on. -/
  idleCollapseApplied : Bool := false

/-- Source: `_ApplyIdleCollapse` -/
def Sidebar.applyIdleCollapse (s : Sidebar) (enabled : Bool) : Sidebar :=
  { s with tree := (visit enabled s.tree).1 }

/-- `collapse` is that the effect is on. Source: `_SessionStateClockTick` -/
def Sidebar.tick (s : Sidebar) (collapse : Bool) : Sidebar :=
  if collapse || s.idleCollapseApplied then
    { s.applyIdleCollapse collapse with idleCollapseApplied := collapse }
  else s

/-! ### Runs -/

/-- What can happen. -/
inductive Event where
  | tick (collapse : Bool)
  | setDeEmphasised (ident : ℕ) (value : Bool)
  | userExpand (ident : ℕ)
  | userCollapse (ident : ℕ)

/-- Change the rows of a node; `f` is told whether it has children. -/
def update (ident : ℕ) (f : Bool → Row → Row) : Forest Row → Forest Row
  | nil => nil
  | node a c s =>
      node (if a.ident = ident then f (hasTree c) a else a) (update ident f c) (update ident f s)

/-- The user can open a closed node with children. -/
def Row.userExpand (hasChild : Bool) (a : Row) : Row :=
  if hasChild && !a.isExpanded then { a with isExpanded := true, lastAction := some .userExpand }
  else a

/-- The user can close an open node with children. -/
def Row.userCollapse (hasChild : Bool) (a : Row) : Row :=
  if hasChild && a.isExpanded then { a with isExpanded := false, lastAction := some .userCollapse }
  else a

/-- One event. -/
def Sidebar.step (s : Sidebar) : Event → Sidebar
  | .tick collapse => s.tick collapse
  | .setDeEmphasised ident value =>
      { s with tree := update ident (fun _ a => { a with isDeEmphasised := value }) s.tree }
  | .userExpand ident => { s with tree := update ident Row.userExpand s.tree }
  | .userCollapse ident => { s with tree := update ident Row.userCollapse s.tree }

/-- A finite run. -/
def Sidebar.run (s : Sidebar) (events : List Event) : Sidebar := events.foldl Sidebar.step s

/-- A row as it is created. -/
def Row.Fresh (a : Row) : Prop :=
  a.subtreeIdle = false ∧ a.autoCollapsed = false ∧ a.lastAction = none ∧ a.overridden = false

/-- A sidebar before its first tick. -/
def Sidebar.Fresh (s : Sidebar) : Prop :=
  s.idleCollapseApplied = false ∧ ∀ a ∈ preorder s.tree, a.Fresh

/-- **The idle collapse never overrides the user**: in no state of the run does a tick open a row
whose last action was the user's collapse. -/
def NeverOverridden (s : Sidebar) (events : List Event) : Prop :=
  ∀ n collapse, ∀ a ∈ preorder (s.run (events.take n ++ [.tick collapse])).tree,
    a.overridden = false

/-- The rows with whether they have children. -/
def rows : Forest Row → List (Row × Bool)
  | nil => []
  | node a c s => (a, hasTree c) :: (rows c ++ rows s)

/-- If the event is a collapse by the user, the row does not count as closed by the page. -/
def Event.Meets (s : Sidebar) : Event → Prop
  | .userCollapse ident => ∀ r ∈ rows s.tree, r.1.ident = ident → r.1.isExpanded = true →
      r.2 = true → r.1.autoCollapsed = false
  | _ => True

/-- Every event of a run meets the condition in the state before it. -/
def AllMeet (s : Sidebar) : List Event → Prop
  | [] => True
  | e :: events => e.Meets s ∧ AllMeet (s.step e) events

/-! ## The walk, row by row -/

/-- The rows in their order. -/
theorem preorder_eq_rows (F : Forest Row) : preorder F = (rows F).map Prod.fst := by
  induction F with
  | nil => rfl
  | node a c s ihc ihs => rw [preorder, rows, List.map_cons, List.map_append, ihc, ihs]

/-- A visit empties no collection. -/
theorem hasTree_visit (enabled : Bool) (F : Forest Row) :
    hasTree (visit enabled F).1 = hasTree F := by
  cases F <;> rfl

/-- Every row is visited once, with what its children say. -/
theorem rows_visit (enabled : Bool) (F : Forest Row) :
    List.Forall₂ (fun r b => b.2 = r.2 ∧ ∃ childrenIdle hasSessionChild,
        b.1 = (visitNode enabled r.1 childrenIdle hasSessionChild r.2).1)
      (rows F) (rows (visit enabled F).1) := by
  induction F with
  | nil => exact List.Forall₂.nil
  | node a c s ihc ihs =>
      refine List.Forall₂.cons ⟨hasTree_visit enabled c, _, _, rfl⟩ ?_
      exact List.rel_append ihc ihs

theorem hasTree_update (ident : ℕ) (f : Bool → Row → Row) (F : Forest Row) :
    hasTree (update ident f F) = hasTree F := by
  cases F <;> rfl

/-- The update changes the row of its identity. -/
theorem rows_update (ident : ℕ) (f : Bool → Row → Row) (F : Forest Row) :
    rows (update ident f F) =
      (rows F).map fun r => (if r.1.ident = ident then f r.2 r.1 else r.1, r.2) := by
  induction F with
  | nil => rfl
  | node a c s ihc ihs =>
      rw [update, rows, rows, List.map_cons, List.map_append, ihc, ihs, hasTree_update]

/-- Related lists have related rows. -/
theorem exists_row_of_forall₂ {R : Row × Bool → Row × Bool → Prop} {l l' : List (Row × Bool)}
    (h : List.Forall₂ R l l') : (∀ b ∈ l', ∃ r ∈ l, R r b) ∧ ∀ r ∈ l, ∃ b ∈ l', R r b := by
  induction h with
  | nil => simp
  | cons hab _ ih =>
      constructor
      · intro b hb
        rcases List.mem_cons.mp hb with rfl | hb
        · exact ⟨_, List.mem_cons_self, hab⟩
        · obtain ⟨r, hr, hrb⟩ := ih.1 b hb
          exact ⟨r, List.mem_cons_of_mem _ hr, hrb⟩
      · intro r hr
        rcases List.mem_cons.mp hr with rfl | hr
        · exact ⟨_, List.mem_cons_self, hab⟩
        · obtain ⟨b, hb, hrb⟩ := ih.2 r hr
          exact ⟨b, List.mem_cons_of_mem _ hb, hrb⟩

/-- A property of rows that a visit and an update keep holds after an event. -/
theorem forall_rows_update {P Q : Row × Bool → Prop} {ident : ℕ} {f : Bool → Row → Row}
    {F : Forest Row} (h : ∀ r ∈ rows F, P r)
    (hf : ∀ r ∈ rows F, P r → r.1.ident = ident → Q (f r.2 r.1, r.2))
    (hother : ∀ r ∈ rows F, P r → r.1.ident ≠ ident → Q r) :
    ∀ r ∈ rows (update ident f F), Q r := by
  rw [rows_update]
  intro b hb
  obtain ⟨r, hr, rfl⟩ := List.mem_map.mp hb
  by_cases hid : r.1.ident = ident
  · simp only [if_pos hid]
    exact hf r hr (h r hr) hid
  · simp only [if_neg hid]
    exact hother r hr (h r hr) hid

/-- What a visit can do to a row. -/
theorem visitNode_cases (enabled : Bool) (a : Row) (childrenIdle hasSessionChild hasChild : Bool) :
    (a.isSeparator = true ∧ (visitNode enabled a childrenIdle hasSessionChild hasChild).1 = a) ∨
    ∃ idle, a.isSeparator = false ∧ (enabled = false → idle = false) ∧
      ((idle = true ∧ a.isExpanded = true ∧
          (visitNode enabled a childrenIdle hasSessionChild hasChild).1 =
            { a.pageCollapse with subtreeIdle := idle }) ∨
        (idle = false ∧ a.autoCollapsed = true ∧ a.isExpanded = false ∧ hasChild = true ∧
          (visitNode enabled a childrenIdle hasSessionChild hasChild).1 =
            { { a with autoCollapsed := false }.pageExpand with subtreeIdle := idle }) ∨
        (idle = false ∧ a.autoCollapsed = true ∧ (a.isExpanded = true ∨ hasChild = false) ∧
          (visitNode enabled a childrenIdle hasSessionChild hasChild).1 =
            { a with autoCollapsed := false, subtreeIdle := idle }) ∨
        ((idle = true ∨ a.autoCollapsed = false) ∧
          (visitNode enabled a childrenIdle hasSessionChild hasChild).1 =
            { a with subtreeIdle := idle })) := by
  rw [visitNode]
  by_cases hsep : a.isSeparator = true
  · exact Or.inl ⟨hsep, by rw [if_pos hsep]⟩
  · refine Or.inr ⟨enabled && a.isDeEmphasised && childrenIdle, Bool.eq_false_iff.mpr hsep,
      fun he => by simp [he], ?_⟩
    simp only [if_neg hsep]
    generalize (enabled && a.isDeEmphasised && childrenIdle) = idle
    by_cases hcollapse : (idle && !a.subtreeIdle && hasSessionChild && a.isExpanded) = true
    · simp only [if_pos hcollapse]
      simp only [Bool.and_eq_true] at hcollapse
      exact Or.inl ⟨hcollapse.1.1.1, hcollapse.2, trivial⟩
    · simp only [if_neg hcollapse]
      by_cases hmark : (!idle && a.autoCollapsed) = true
      · simp only [if_pos hmark]
        simp only [Bool.and_eq_true, Bool.not_eq_true'] at hmark
        by_cases hopen : (!a.isExpanded && hasChild) = true
        · simp only [if_pos hopen]
          simp only [Bool.and_eq_true, Bool.not_eq_true'] at hopen
          exact Or.inr (Or.inl ⟨hmark.1, hmark.2, hopen.1, hopen.2, trivial⟩)
        · simp only [if_neg hopen]
          refine Or.inr (Or.inr (Or.inl ⟨hmark.1, hmark.2, ?_, trivial⟩))
          revert hopen
          cases a.isExpanded <;> cases hasChild <;> simp
      · simp only [if_neg hmark]
        refine Or.inr (Or.inr (Or.inr ⟨?_, trivial⟩))
        revert hmark
        cases idle <;> cases a.autoCollapsed <;> simp

/-! ## The marks -/

/-- A separator is never marked, and no row is when the last pass was made with the effect off. -/
def Marked (s : Sidebar) (r : Row × Bool) : Prop :=
  r.1.autoCollapsed = true → r.1.isSeparator = false ∧ s.idleCollapseApplied = true

/-- Nothing was overridden, and a row the user closed is closed and not marked. -/
def Kept (r : Row × Bool) : Prop :=
  r.1.overridden = false ∧
    (r.1.lastAction = some .userCollapse → r.1.isExpanded = false ∧ r.1.autoCollapsed = false)

/-- A visit marks sessions only, while the effect is on. -/
theorem marked_visitNode {enabled : Bool} {a : Row} (h : a.autoCollapsed = true →
      a.isSeparator = false) (childrenIdle hasSessionChild hasChild : Bool) :
    (visitNode enabled a childrenIdle hasSessionChild hasChild).1.autoCollapsed = true →
      (visitNode enabled a childrenIdle hasSessionChild hasChild).1.isSeparator = false ∧
        enabled = true := by
  intro hmark
  rcases visitNode_cases enabled a childrenIdle hasSessionChild hasChild with
    ⟨hsep, heq⟩ | ⟨idle, hsep, hoff, ⟨hidle, -, heq⟩ | ⟨-, -, -, -, heq⟩ | ⟨-, -, -, heq⟩ | ⟨hor, heq⟩⟩
  · rw [heq] at hmark
    rw [h hmark] at hsep
    cases hsep
  · rw [heq]
    refine ⟨hsep, ?_⟩
    by_contra hne
    rw [hoff (Bool.eq_false_iff.mpr hne)] at hidle
    cases hidle
  · rw [heq] at hmark
    cases hmark
  · rw [heq] at hmark
    cases hmark
  · rw [heq] at hmark ⊢
    refine ⟨hsep, ?_⟩
    by_contra hne
    rw [hoff (Bool.eq_false_iff.mpr hne)] at hor
    rcases hor with hor | hor
    · cases hor
    · exact absurd (hor.symm.trans hmark) (by decide)

theorem marked_step {s : Sidebar} (h : ∀ r ∈ rows s.tree, Marked s r) (e : Event) :
    ∀ r ∈ rows (s.step e).tree, Marked (s.step e) r := by
  cases e with
  | tick collapse =>
      by_cases hpass : (collapse || s.idleCollapseApplied) = true
      · simp only [Sidebar.step, Sidebar.tick, if_pos hpass, Sidebar.applyIdleCollapse]
        intro b hb
        obtain ⟨r, hr, -, ci, hs, heq⟩ :=
          (exists_row_of_forall₂ (rows_visit collapse s.tree)).1 b hb
        intro hmark
        rw [heq] at hmark ⊢
        exact marked_visitNode (fun hm => (h r hr hm).1) ci hs r.2 hmark
      · simp only [Sidebar.step, Sidebar.tick, if_neg hpass]
        exact h
  | setDeEmphasised ident value =>
      exact forall_rows_update h (fun r _ hr _ => hr) fun r _ hr _ => hr
  | userExpand ident =>
      refine forall_rows_update h (fun r _ hr _ => ?_) fun r _ hr _ => hr
      intro hmark
      simp only [Row.userExpand] at hmark ⊢
      split at hmark
      · rw [if_pos ‹_›]
        exact hr hmark
      · rw [if_neg ‹_›]
        exact hr hmark
  | userCollapse ident =>
      refine forall_rows_update h (fun r _ hr _ => ?_) fun r _ hr _ => hr
      intro hmark
      simp only [Row.userCollapse] at hmark ⊢
      split at hmark
      · rw [if_pos ‹_›]
        exact hr hmark
      · rw [if_neg ‹_›]
        exact hr hmark

/-- A visit overrides nothing. -/
theorem kept_visitNode (enabled : Bool) {r : Row × Bool} (h : Kept r)
    (childrenIdle hasSessionChild : Bool) :
    Kept ((visitNode enabled r.1 childrenIdle hasSessionChild r.2).1, r.2) := by
  obtain ⟨hover, huser⟩ := h
  rcases visitNode_cases enabled r.1 childrenIdle hasSessionChild r.2 with
    ⟨-, heq⟩ | ⟨idle, -, -, ⟨-, -, heq⟩ | ⟨-, hmark, hclosed, -, heq⟩ | ⟨-, hmark, hopen, heq⟩ |
      ⟨-, heq⟩⟩
  · rw [heq]
    exact ⟨hover, huser⟩
  · rw [heq]
    exact ⟨hover, fun hlast => by cases hlast⟩
  · -- a marked row was not closed by the user
    have hnot : ¬ r.1.lastAction = some .userCollapse := by
      intro hlast
      exact absurd ((huser hlast).2.symm.trans hmark) (by decide)
    rw [heq]
    refine ⟨?_, fun hlast => by cases hlast⟩
    simp [Row.pageExpand, hover, hnot]
  · rw [heq]
    refine ⟨hover, fun hlast => ?_⟩
    exact absurd ((huser hlast).2.symm.trans hmark) (by decide)
  · rw [heq]
    exact ⟨hover, huser⟩

/-- Nor does a tick. -/
theorem kept_tick {s : Sidebar} (h : ∀ r ∈ rows s.tree, Kept r) (collapse : Bool) :
    ∀ r ∈ rows (s.tick collapse).tree, Kept r := by
  by_cases hpass : (collapse || s.idleCollapseApplied) = true
  · simp only [Sidebar.tick, if_pos hpass, Sidebar.applyIdleCollapse]
    intro b hb
    obtain ⟨r, hr, hchild, ci, hs, heq⟩ :=
      (exists_row_of_forall₂ (rows_visit collapse s.tree)).1 b hb
    have hkept := kept_visitNode collapse (h r hr) ci hs
    rw [← heq] at hkept
    exact hkept
  · simp only [Sidebar.tick, if_neg hpass]
    exact h

/-- Nor does an event under the condition. -/
theorem kept_step {s : Sidebar} (h : ∀ r ∈ rows s.tree, Kept r) {e : Event} (he : e.Meets s) :
    ∀ r ∈ rows (s.step e).tree, Kept r := by
  cases e with
  | tick collapse => exact kept_tick h collapse
  | setDeEmphasised ident value =>
      exact forall_rows_update h (fun r _ hr _ => hr) fun r _ hr _ => hr
  | userExpand ident =>
      refine forall_rows_update h (fun r _ hr _ => ?_) fun r _ hr _ => hr
      rw [Row.userExpand]
      split
      · exact ⟨hr.1, fun hlast => by cases hlast⟩
      · exact hr
  | userCollapse ident =>
      refine forall_rows_update h (fun r hmem hr hid => ?_) fun r _ hr _ => hr
      rw [Row.userCollapse]
      split
      · rename_i hopen
        rw [Bool.and_eq_true] at hopen
        exact ⟨hr.1, fun _ => ⟨rfl, he r hmem hid hopen.2 hopen.1⟩⟩
      · exact hr

/-! ## Runs -/

/-- The last tick comes last. -/
theorem run_append_tick (s : Sidebar) (events : List Event) (collapse : Bool) :
    s.run (events ++ [.tick collapse]) = (s.run events).tick collapse := by
  rw [Sidebar.run, List.foldl_append]
  rfl

/-- Nothing is overridden now, and nothing later. -/
theorem neverOverridden_cons {s : Sidebar} {e : Event} {events : List Event} :
    NeverOverridden s (e :: events) ↔
      (∀ collapse, ∀ a ∈ preorder (s.tick collapse).tree, a.overridden = false) ∧
        NeverOverridden (s.step e) events := by
  constructor
  · intro h
    refine ⟨fun collapse a ha => h 0 collapse a ha, fun n collapse a ha => ?_⟩
    exact h (n + 1) collapse a ha
  · rintro ⟨hnow, hlater⟩ n collapse a ha
    cases n with
    | zero => exact hnow collapse a ha
    | succ n => exact hlater n collapse a ha

/-- What is kept was not overridden. -/
theorem overridden_of_kept {F : Forest Row} (h : ∀ r ∈ rows F, Kept r) :
    ∀ a ∈ preorder F, a.overridden = false := by
  rw [preorder_eq_rows]
  intro a ha
  obtain ⟨r, hr, rfl⟩ := List.mem_map.mp ha
  exact (h r hr).1

/-- So is nothing in a run under the condition. -/
theorem neverOverridden_of_allMeet {s : Sidebar} {events : List Event}
    (h : ∀ r ∈ rows s.tree, Kept r) (hmeet : AllMeet s events) : NeverOverridden s events := by
  induction events generalizing s with
  | nil =>
      intro n collapse
      rw [List.take_nil, run_append_tick]
      exact overridden_of_kept (kept_tick h collapse)
  | cons e events ih =>
      rw [neverOverridden_cons]
      refine ⟨fun collapse => overridden_of_kept (kept_tick h collapse), ?_⟩
      exact ih (kept_step h hmeet.1) hmeet.2

/-- A marked row that the user closes is opened by the next pass with the effect off. -/
theorem overridden_of_collapse {s : Sidebar} (h : ∀ r ∈ rows s.tree, Marked s r) {r : Row × Bool}
    (hr : r ∈ rows s.tree) (hopen : r.1.isExpanded = true) (hchild : r.2 = true)
    (hmark : r.1.autoCollapsed = true) :
    ∃ a ∈ preorder ((s.step (.userCollapse r.1.ident)).tick false).tree, a.overridden = true := by
  obtain ⟨hsep, happlied⟩ := h r hr hmark
  let closed : Row := { r.1 with isExpanded := false, lastAction := some .userCollapse }
  have hclosed : (closed, true) ∈ rows (s.step (.userCollapse r.1.ident)).tree := by
    show _ ∈ rows (update r.1.ident Row.userCollapse s.tree)
    rw [rows_update, List.mem_map]
    refine ⟨r, hr, ?_⟩
    simp [Row.userCollapse, hopen, hchild, closed]
  obtain ⟨b, hb, -, ci, hs, heq⟩ :=
    (exists_row_of_forall₂ (rows_visit false _)).2 _ hclosed
  refine ⟨b.1, ?_, ?_⟩
  · have hpass : (s.step (.userCollapse r.1.ident)).idleCollapseApplied = true := happlied
    simp only [Sidebar.tick, hpass, Bool.or_true, if_true, Sidebar.applyIdleCollapse]
    rw [preorder_eq_rows]
    exact List.mem_map_of_mem hb
  · rw [heq]
    simp [visitNode, closed, hsep, hmark, Row.pageExpand]

/-- And every other run overrides a row. -/
theorem allMeet_of_neverOverridden {s : Sidebar} {events : List Event}
    (h : ∀ r ∈ rows s.tree, Marked s r) (hnever : NeverOverridden s events) : AllMeet s events := by
  induction events generalizing s with
  | nil => trivial
  | cons e events ih =>
      obtain ⟨-, hlater⟩ := neverOverridden_cons.mp hnever
      refine ⟨?_, ih (marked_step h e) hlater⟩
      cases e with
      | tick collapse => trivial
      | setDeEmphasised ident value => trivial
      | userExpand ident => trivial
      | userCollapse ident =>
          intro r hr hid hopen hchild
          by_contra hmark
          obtain ⟨a, ha, hover⟩ :=
            overridden_of_collapse h hr hopen hchild (Bool.not_eq_false _ ▸ hmark)
          rw [hid] at ha
          have hfalse := hlater 0 false a ha
          rw [hover] at hfalse
          cases hfalse

/-- **When the idle collapse never overrides the user**: exactly when, throughout the run, the user
never closes a row that the page has closed before and that is still marked as such. -/
theorem neverOverridden_iff {s : Sidebar} (hs : s.Fresh) (events : List Event) :
    NeverOverridden s events ↔ AllMeet s events := by
  have hrow : ∀ r ∈ rows s.tree, r.1.Fresh := by
    intro r hr
    apply hs.2
    rw [preorder_eq_rows]
    exact List.mem_map_of_mem hr
  constructor
  · intro hnever
    refine allMeet_of_neverOverridden (fun r hr hmark => ?_) hnever
    rw [(hrow r hr).2.1] at hmark
    cases hmark
  · intro hmeet
    refine neverOverridden_of_allMeet (fun r hr => ⟨(hrow r hr).2.2.2, fun hlast => ?_⟩) hmeet
    rw [(hrow r hr).2.2.1] at hlast
    cases hlast

/-- A session with a child, both idle. -/
def idlePair : Sidebar :=
  ⟨node { ident := 0, isExpanded := true, isDeEmphasised := true }
    (node { ident := 1, isDeEmphasised := true } nil nil) nil, false⟩

/-- The sidebar of the witness is fresh. -/
theorem fresh_idlePair : idlePair.Fresh := by
  refine ⟨rfl, ?_⟩
  show ∀ a ∈ preorder idlePair.tree, a.subtreeIdle = false ∧ a.autoCollapsed = false ∧
    a.lastAction = none ∧ a.overridden = false
  decide

theorem neverOverridden_iff_idlePair :
    NeverOverridden idlePair [.userCollapse 0, .tick true] ↔
      AllMeet idlePair [.userCollapse 0, .tick true] :=
  neverOverridden_iff fresh_idlePair _

/-- The page closes the pair; the user opens it and closes it again; the child becomes active, and
the page opens what the user closed. -/
theorem idlePair_overridden :
    idlePair.Fresh ∧ ¬ NeverOverridden idlePair
      [.tick true, .userExpand 0, .userCollapse 0, .setDeEmphasised 1 false] := by
  refine ⟨fresh_idlePair, fun hnever => ?_⟩
  have hover : ∃ a ∈ preorder (idlePair.run [.tick true, .userExpand 0, .userCollapse 0,
      .setDeEmphasised 1 false, .tick true]).tree, a.overridden = true := by decide
  obtain ⟨a, ha, hover⟩ := hover
  have hfalse := hnever 4 true a ha
  rw [hover] at hfalse
  cases hfalse

end Axan.SessionTree.IdleCollapse
