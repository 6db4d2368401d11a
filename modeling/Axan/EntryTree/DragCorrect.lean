import Axan.EntryTree.Drag

/-!
# What a drag does to the tree

* `Dropped` — the promise of the fix-up: which rows stand where, and at which row the head hangs.
* `normalizeAfterDrag_correct` — **the fix-up keeps it on every well-formed list, for every row and
  every place it is dropped at.**
-/

namespace Axan.EntryTree

open Axan.Base Axan.Base.Forest

/-- The rows `front ++ h' :: (below ++ back)` after a drop of the row `h` of `l`, which is `h'`
then, behind the rows `a`. -/
structure Dropped (l a : Nodes) (h h' : Node) (front below back : Nodes) : Prop where
  wellFormed : isWellFormed (front ++ h' :: (below ++ back)) = true
  /-- The same rows, but for the parent of the head. -/
  perm : (front ++ h' :: (below ++ back)).Perm (l.map fun n => if n = h then h' else n)
  head : h'.id = h.id ∧ h'.separator = h.separator
  /-- The rows outside the subtree keep their order and their parents. -/
  outside : (front ++ back).Sublist l
  mem_outside : ∀ n, n ∈ front ++ back ↔ n ∈ l ∧ ¬ Below (lines l) n.id h.id
  /-- So do the rows of the subtree, right behind the head. -/
  inside : below.Sublist l
  mem_inside : ∀ n, n ∈ below ↔ n ∈ l ∧ n ≠ h ∧ Below (lines l) n.id h.id
  /-- The head stands behind the rows outside its subtree that are in front of the drop. -/
  anchored : front.Sublist a
  mem_front : ∀ n, n ∈ front ↔ n ∈ a ∧ ¬ Below (lines l) n.id h.id
  /-- It is a root, or it hangs at the last of these or at a row above that one, a session. -/
  parent : h'.parentId = [] ∨ ∃ r m, front.getLast? = some r ∧ m ∈ front ∧ m.id = h'.parentId ∧
    m.separator = false ∧ Below (lines l) r.id m.id

/-- Outside of the block are the rows that are not below the head. -/
theorem mem_filter_outside {l : Nodes} {h : Node} {p : Node → Bool} (hf : Family l h p)
    (ht : Tree l) {k : Nodes} (hk : ∀ n ∈ k, n ∈ l) (n : Node) :
    n ∈ k.filter (fun n => !p n) ↔ n ∈ k ∧ ¬ Below (lines l) n.id h.id := by
  rw [List.mem_filter]
  apply and_congr_right
  intro hn
  rw [← hf.eq_true_iff ht (hk n hn), Bool.not_eq_true', Bool.not_eq_true]

/-- One row of a list exchanged. -/
theorem map_replace_split {x y : Nodes} {h h' : Node} (hnd : (x ++ h :: y).Nodup) :
    ((x ++ h :: y).map fun n => if n = h then h' else n) = x ++ h' :: y := by
  have hnot := (List.nodup_cons.mp (List.nodup_middle.mp hnd)).1
  have hkeep (k : Nodes) (hk : ∀ n ∈ k, n ∈ x ++ y) :
      (k.map fun n => if n = h then h' else n) = k := by
    conv_rhs => rw [← List.map_id k]
    apply List.map_congr_left
    intro n hn
    have hne : n ≠ h := by
      rintro rfl
      exact hnot (hk n hn)
    rw [if_neg hne, id]
  rw [List.map_append, List.map_cons, hkeep x fun n hn => List.mem_append_left _ hn,
    hkeep y fun n hn => List.mem_append_right _ hn, if_pos rfl]

/-- **The fix-up after a drag is right on every well-formed list.** -/
theorem normalizeAfterDrag_correct {l : Nodes} (hwf : isWellFormed l = true)
    (hnd : (l.map Node.id).Nodup) (hne : [] ∉ l.map Node.id) {x y a b : Nodes} {h : Node}
    (hl : l = x ++ h :: y) (hab : a ++ b = x ++ y) (oldDepth : ℕ) :
    ∃ fix front below back,
      normalizeAfterDrag (a ++ h :: b) a.length oldDepth = .ok (some fix) ∧
      applyBlockMove fix.move (a ++ h.withParent fix.headParentId :: b) =
        .ok (front ++ h.withParent fix.headParentId :: (below ++ back)) ∧
      Dropped l a h (h.withParent fix.headParentId) front below back := by
  subst hl
  have ht : Tree (x ++ h :: y) := (tree_iff _).mpr ⟨hwf, hnd, hne⟩
  obtain ⟨fix, p, hok, hf, hrest, hmove, hpar⟩ := normalizeAfterDrag_apply ht hab oldDepth
  obtain ⟨fix', l', hok', hmove', htree, hperm⟩ := ht.normalizeAfterDrag hab oldDepth
  obtain rfl : fix' = fix := Option.some.inj (Except.ok.inj (hok'.symm.trans hok))
  set h' := h.withParent fix'.headParentId with hh'
  set front := a.filter fun n => !p n with hfront
  set back := b.filter fun n => !p n with hback
  set below := (x ++ h :: y).filter fun n => p n && n ≠ h with hbelow
  have hassoc : front ++ (h' :: below) ++ back = front ++ h' :: (below ++ back) := by simp
  rw [hassoc] at hmove
  obtain rfl : l' = _ := Except.ok.inj (hmove'.symm.trans hmove)
  have hmem : ∀ n ∈ a, n ∈ x ++ h :: y := by
    intro n hn
    have hn' : n ∈ x ++ y := hab ▸ List.mem_append_left b hn
    simp only [List.mem_append, List.mem_cons] at hn' ⊢
    tauto
  refine ⟨fix', front, below, back, hok, hmove, ?_⟩
  exact
    { wellFormed := ((tree_iff _).mp htree).1
      perm := by
        rw [map_replace_split ht.nodup]
        exact hperm
      head := ⟨rfl, rfl⟩
      outside := hrest ▸ List.filter_sublist
      mem_outside := fun n => by
        rw [hrest]
        exact mem_filter_outside hf ht (fun _ h => h) n
      inside := List.filter_sublist
      mem_inside := fun n => by
        rw [hbelow, List.mem_filter, Bool.and_eq_true, decide_eq_true_eq]
        apply and_congr_right
        intro hn
        rw [← hf.eq_true_iff ht hn]
        exact and_comm
      anchored := List.filter_sublist
      mem_front := mem_filter_outside hf ht hmem
      parent := by
        rcases hpar with ⟨-, hroot⟩ | ⟨init, r, -, m, -, hlast, -, hm, hid, hs, -, hup⟩
        · exact Or.inl hroot
        · refine Or.inr ⟨r, m, by rw [hlast, List.getLast?_concat], hm, hid, hs, ?_⟩
          apply hup.mono
          rw [hrest]
          exact List.map_subset _ (List.filter_subset_self _) }

/-- A session, its child, and a separator; the session is dropped below its child. -/
def familyRows : Nodes :=
  [⟨L "a", [], false⟩, ⟨L "b", L "a", false⟩, ⟨L "s", [], true⟩]

theorem normalizeAfterDrag_familyRows :
    ∃ fix front below back,
      normalizeAfterDrag [⟨L "b", L "a", false⟩, ⟨L "a", [], false⟩, ⟨L "s", [], true⟩] 1 0 =
        .ok (some fix) ∧
      applyBlockMove fix.move
        [⟨L "b", L "a", false⟩, ⟨L "a", fix.headParentId, false⟩, ⟨L "s", [], true⟩] =
        .ok (front ++ ⟨L "a", fix.headParentId, false⟩ :: (below ++ back)) ∧
      Dropped familyRows [⟨L "b", L "a", false⟩] ⟨L "a", [], false⟩
        ⟨L "a", fix.headParentId, false⟩ front below back :=
  normalizeAfterDrag_correct (l := familyRows) (x := []) (a := [⟨L "b", L "a", false⟩])
    (b := [⟨L "s", [], true⟩]) (by decide) (by decide) (by decide) rfl rfl 0

end Axan.EntryTree
