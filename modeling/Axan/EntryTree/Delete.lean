import Axan.EntryTree.Editor

/-!
# Deleting a row of any well-formed list

Rows read from the settings may have no id, and ids may repeat. Here a delete is looked at on every
list that passes `isWellFormed`.

* `isChildOf`, `DeletesRow` — what a delete is for: the later rows that name the row go to its
  parent, and no other row changes.
* `isWellFormed_promote` — taking a row out this way keeps a list well-formed.
* `deleteEntry_promotes_iff` — the editor does it exactly when no row in front is taken for a child.
-/

namespace Axan.EntryTree

open Axan.Base Axan.LaunchEntryWire

/-- A parent id that is empty names no row. -/
def isChildOf (vm e : LaunchEntry) : Bool := !e.parentId.isEmpty && e.parentId = vm.id

/-- The rows without `vm`: its children, which stand behind it, have its parent, and every other row
is as it was. -/
def DeletesRow (pre : List LaunchEntry) (vm : LaunchEntry) (post after : List LaunchEntry) : Prop :=
  isWellFormed (nodes after) = true ∧
    after = pre ++ post.map fun e => if isChildOf vm e then setParentId e vm.parentId else e

/-- Setting the parent that is there changes nothing. -/
theorem setParentId_eq_self {e : LaunchEntry} {p : WString} (h : e.parentId = p) :
    setParentId e p = e := by
  subst h
  rfl

/-- A node that is a child of `d` under the parent of `d`. -/
def adopted (d n : Node) : Node :=
  if !n.parentId.isEmpty && n.parentId = d.id then { n with parentId := d.parentId } else n

/-- A child of the row that goes gets its parent. -/
theorem toNode_adopted (vm e : LaunchEntry) :
    toNode (if isChildOf vm e then setParentId e vm.parentId else e) =
      adopted (toNode vm) (toNode e) := by
  unfold adopted isChildOf
  split_ifs with h₁ h₂ h₂
  · rfl
  · exact absurd h₁ h₂
  · exact absurd h₂ h₁
  · rfl

section promote

variable {pre post : Nodes} {d : Node}

/-- The check goes on behind the rows it has seen. -/
theorem wellFormedFrom_append (seen : List (WString × Bool)) (a b : Nodes) :
    wellFormedFrom seen (a ++ b) = (wellFormedFrom seen a && wellFormedFrom (seen ++ flags a) b) := by
  induction a generalizing seen with
  | nil => simp [flags, wellFormedFrom]
  | cons n a ih =>
      rw [List.cons_append, wellFormedFrom, wellFormedFrom, ih, Bool.and_assoc, List.append_assoc]
      rfl

/-- A row is not needed to look up another id. -/
theorem lookup_flags_skip {seen : List (WString × Bool)} {b : Nodes} {id : WString}
    (h : id ≠ d.id) :
    (seen ++ [(d.id, d.separator)] ++ flags b).lookup id = (seen ++ flags b).lookup id := by
  rw [List.append_assoc, List.singleton_append, List.lookup_append, List.lookup_append,
    List.lookup_cons, beq_false_of_ne h]

/-- The rows behind, with the parent of `d` where they named `d`. -/
theorem isWellFormed_promote (hwf : isWellFormed (pre ++ d :: post) = true) {f : Node → Node}
    (hid : ∀ n, (f n).id = n.id) (hsep : ∀ n, (f n).separator = n.separator)
    (hpar : ∀ n ∈ post, (f n).parentId = [] ∨ (f n).parentId = d.parentId ∨
      (f n).parentId = n.parentId ∧ n.parentId ≠ d.id) :
    isWellFormed (pre ++ post.map f) = true := by
  have hflags : ∀ x, flags (x.map f) = flags x := by
    intro x
    rw [flags, flags, List.map_map]
    apply List.map_congr_left
    intro n _
    rw [Function.comp_apply, hid, hsep]
  rw [isWellFormed, wellFormedFrom_append, wellFormedFrom, Bool.and_eq_true, Bool.and_eq_true,
    Bool.or_eq_true, decide_eq_true_eq, List.isEmpty_iff, List.nil_append] at hwf
  obtain ⟨hpre, hd, hpost⟩ := hwf
  rw [isWellFormed, wellFormedFrom_append, Bool.and_eq_true, List.nil_append]
  refine ⟨hpre, ?_⟩
  rw [wellFormedFrom_iff] at hpost ⊢
  intro a n b hl
  obtain ⟨x, y, rfl, rfl, hy⟩ := List.map_eq_append_iff.mp hl
  obtain ⟨m, z, rfl, rfl, -⟩ := List.map_eq_cons_iff.mp hy
  rw [hflags]
  rcases hpar m (by simp) with hpar | hpar | ⟨hpar, hne⟩
  · exact Or.inl hpar
  · -- the parent of `d` stands in front of `d`
    rw [hpar]
    rcases hd with hroot | hlook
    · exact Or.inl hroot
    · refine Or.inr ?_
      rw [List.lookup_append, hlook]
      rfl
  · rw [hpar, ← lookup_flags_skip hne]
    exact hpost x m z rfl

end promote

/-- The first row of a well-formed list is a root. -/
theorem isWellFormed_head {n : Node} {l : Nodes} (h : isWellFormed (n :: l) = true) :
    n.parentId = [] := by
  rw [isWellFormed, wellFormedFrom, Bool.and_eq_true] at h
  simpa using h.1

/-- The rows in front stay, those behind are adopted. -/
theorem nodes_adopted (vm : LaunchEntry) (pre post : List LaunchEntry) :
    nodes (pre ++ post.map fun e => if isChildOf vm e then setParentId e vm.parentId else e) =
      nodes pre ++ (nodes post).map (adopted (toNode vm)) := by
  rw [nodes_append, nodes, nodes, nodes, List.map_map, List.map_map]
  congr 1
  apply List.map_congr_left
  intro e _
  exact toNode_adopted vm e

/-- Children that go to the parent keep the list well formed. -/
theorem isWellFormed_adopted {n : Node} {pre post : Nodes}
    (h : isWellFormed (pre ++ n :: post) = true) :
    isWellFormed (pre ++ post.map (adopted n)) = true := by
  apply isWellFormed_promote h
  · intro m
    unfold adopted
    split_ifs <;> rfl
  · intro m
    unfold adopted
    split_ifs <;> rfl
  · intro m _
    unfold adopted
    split_ifs with hchild
    · exact Or.inr (Or.inl rfl)
    · by_cases hroot : m.parentId = []
      · exact Or.inl hroot
      · refine Or.inr (Or.inr ⟨rfl, ?_⟩)
        simpa [hroot] using hchild

/-- **A delete promotes exactly the children** when the row's parent id is its own id, or the row
has an id and no row in front of it names it; and only then. -/
theorem deleteEntry_promotes_iff {ed : Editor} (hwf : isWellFormed (nodes ed.entries) = true)
    {pre post : List LaunchEntry} {vm : LaunchEntry} (hl : ed.entries = pre ++ vm :: post) :
    DeletesRow pre vm post (ed.deleteEntry pre.length).entries ↔
      vm.parentId = vm.id ∨ vm.id ≠ [] ∧ ∀ e ∈ pre, e.parentId ≠ vm.id := by
  have hentries := deleteEntry_entries hl
  rw [List.map_append] at hentries
  have hnodes : isWellFormed (nodes pre ++ toNode vm :: nodes post) = true := by
    rw [← nodes_cons, ← nodes_append, ← hl]
    exact hwf
  constructor
  · rintro ⟨-, hafter⟩
    rw [hentries] at hafter
    have hpre := (List.append_inj hafter (by simp)).1.trans (List.map_id pre).symm
    by_cases hself : vm.parentId = vm.id
    · exact Or.inl hself
    · have hnames : ∀ e ∈ pre, e.parentId ≠ vm.id := by
        intro e he hname
        have hkept := List.map_inj_left.mp hpre e he
        rw [if_pos hname, id] at hkept
        have hparent := congrArg LaunchEntry.parentId hkept
        exact hself (hparent.trans hname)
      refine Or.inr ⟨fun hid => ?_, hnames⟩
      -- without an id it would be the parent of the first row
      cases pre with
      | nil => exact hself ((isWellFormed_head hnodes).trans hid.symm)
      | cons e pre =>
          exact hnames e List.mem_cons_self ((isWellFormed_head hnodes).trans hid.symm)
  · intro hcond
    have hpre : (pre.map fun other =>
        if other.parentId = vm.id then setParentId other vm.parentId else other) = pre := by
      refine (List.map_congr_left fun e he => ?_).trans (List.map_id pre)
      split_ifs with hname
      · rcases hcond with hself | ⟨-, hnames⟩
        · exact setParentId_eq_self (hname.trans hself.symm)
        · exact absurd hname (hnames e he)
      · rfl
    have hpost : (post.map fun other =>
        if other.parentId = vm.id then setParentId other vm.parentId else other) =
        post.map fun e => if isChildOf vm e then setParentId e vm.parentId else e := by
      apply List.map_congr_left
      intro e _
      by_cases hroot : e.parentId = []
      · -- a root is no child, and a row without an id has no parent
        have hchild : ¬isChildOf vm e = true := by simp [isChildOf, hroot]
        rw [if_neg hchild]
        split_ifs with hname
        · rcases hcond with hself | ⟨hid, -⟩
          · exact setParentId_eq_self (hname.trans hself.symm)
          · exact absurd (hname.symm.trans hroot) hid
        · rfl
      · have hchild : isChildOf vm e = true ↔ e.parentId = vm.id := by simp [isChildOf, hroot]
        simp only [hchild]
    rw [hpre, hpost] at hentries
    refine ⟨?_, hentries⟩
    rw [hentries, nodes_adopted]
    exact isWellFormed_adopted hnodes

/-- Two roots; between them a row without an id hangs at the first. -/
def idlessRows : List LaunchEntry :=
  [{ id := L "p" }, { parentId := L "p" }, { id := L "q" }]

theorem deleteEntry_promotes_root :
    DeletesRow [] { id := L "p" } [{ parentId := L "p" }, { id := L "q" }]
        ((Editor.mk idlessRows []).deleteEntry 0).entries ↔
      ([] : WString) = L "p" ∨ L "p" ≠ [] ∧ ∀ e ∈ ([] : List LaunchEntry), e.parentId ≠ L "p" :=
  deleteEntry_promotes_iff (by decide)
    (show (Editor.mk idlessRows []).entries =
      [] ++ { id := L "p" } :: [{ parentId := L "p" }, { id := L "q" }] from rfl)

/-- Deleting the row without an id hangs both roots at the first, which is then its own parent. -/
theorem deleteEntry_idless :
    isWellFormed (nodes idlessRows) = true ∧
      ((Editor.mk idlessRows []).deleteEntry 1).entries =
        [{ id := L "p", parentId := L "p" }, { id := L "q", parentId := L "p" }] ∧
      isWellFormed (nodes ((Editor.mk idlessRows []).deleteEntry 1).entries) = false ∧
      ¬DeletesRow [{ id := L "p" }] { parentId := L "p" } [{ id := L "q" }]
        ((Editor.mk idlessRows []).deleteEntry 1).entries := by
  have hill : isWellFormed (nodes ((Editor.mk idlessRows []).deleteEntry 1).entries) = false := by
    decide
  refine ⟨by decide, by decide, hill, ?_⟩
  rintro ⟨hwell, -⟩
  rw [hill] at hwell
  cases hwell

end Axan.EntryTree
