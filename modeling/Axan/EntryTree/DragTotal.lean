import Axan.EntryTree.Drag

/-!
# The fix-up of a drag on any list

An imported list may have ids twice or none, parents that are gone, parents behind their children,
and cycles. The fix-up returns on all of them.

* `exists_earlier` — a row with a depth has its parent's id in front of it, whichever row the depth
  was taken from; `ancestorWalk_total` — so that the walk, which goes to the first row of the id,
  goes to the front and ends.
* `depthBounds` — what `std::clamp` is given.
* `InBlock` — a block that can be lifted and put back.
* `normalizeAfterDrag_total` — **the fix-up returns a block that can be put back, for every list**.
-/

namespace Axan.EntryTree

open Axan.Base

/-! ### The walk -/

/-- A row with a depth has its parent's id in front of it. -/
theorem exists_earlier {pre : Nodes} {n : Node} (hd : 0 < rowDepth pre n) :
    ∃ m ∈ pre, m.id = n.parentId := by
  by_contra hnone
  push Not at hnone
  have hlook : (depthTable [] pre).lookup n.parentId = none := lookup_depthTable hnone
  rw [rowDepth, depthIn, hlook] at hd
  split_ifs at hd
  · exact absurd hd (Nat.lt_irrefl 0)
  · exact absurd hd (Nat.lt_irrefl 0)

/-- **The walk ends on every list**: the first row of an id is no later than the row whose depth was
taken, so that every step goes to the front, where there is no depth. -/
theorem ancestorWalk_total {l : Nodes} {target fuel cur : ℕ} (hcur : cur < l.length)
    (hfuel : cur < fuel) :
    ∃ j, ancestorWalk l (depths l) target fuel cur = .ok j ∧ j < l.length := by
  induction fuel generalizing cur with
  | zero => omega
  | succ fuel ih =>
      obtain ⟨pre, n, post, hl, hlen⟩ : ∃ pre n post, l = pre ++ n :: post ∧ pre.length = cur :=
        ⟨l.take cur, l[cur], l.drop (cur + 1), by simp, by simp; omega⟩
      have hrow : l[cur]? = some n := by rw [hl, ← hlen]; simp
      have hdepth : (depths l)[cur]? = some (rowDepth pre n) := by
        rw [hl, ← hlen]
        exact depths_getElem? pre post n
      rw [ancestorWalk, hrow, hdepth]
      by_cases hgt : rowDepth pre n > target
      · obtain ⟨m, hm, hid⟩ := exists_earlier (Nat.zero_lt_of_lt hgt)
        obtain ⟨j, hj⟩ : ∃ j, pre.findIdx? (fun q => q.id = n.parentId) = some j := by
          refine Option.isSome_iff_exists.mp ?_
          rw [List.findIdx?_isSome, List.any_eq_true]
          exact ⟨m, hm, decide_eq_true hid⟩
        have hlt : j < pre.length := (List.findIdx?_eq_some_iff_getElem.mp hj).1
        have hfind : l.findIdx? (fun q => q.id = n.parentId) = some j := by
          rw [hl, List.findIdx?_append, hj]
          rfl
        simp only [if_pos hgt, hfind]
        exact ih (by omega) (by omega)
      · simp only [if_neg hgt]
        exact ⟨cur, rfl, hcur⟩

/-! ### The clamp -/

/-- The bounds that `std::clamp` is given. Source: `minDepth`, `maxDepth` -/
def depthBounds (rest : Nodes) (anchor : Option ℕ) (insertAt : ℕ) : ℕ × ℕ :=
  let maxDepth := match anchor with
    | some a => (depths rest).getD a 0 + 1
    | none => 0
  let below := if insertAt < rest.length then (depths rest).getD insertAt 0 else 0
  (min below maxDepth, maxDepth)

/-! ### The block -/

/-- The rows of a block can be lifted, the head among them once, and put back. -/
structure InBlock (n headIndex : ℕ) (move : BlockMove) : Prop where
  head_once : move.block.count headIndex = 1
  distinct : move.block.Nodup
  lt_length : ∀ i ∈ move.block, i < n
  /-- The block goes among the rows outside it, or behind them. -/
  insertAt_le : move.insertAt ≤ ((List.range n).filter fun i => i ∉ move.block).length

/-- As many indices are outside as are not in the block. -/
theorem length_outside {n : ℕ} {block : List ℕ} (hnd : block.Nodup) (hlt : ∀ i ∈ block, i < n) :
    ((List.range n).filter fun i => i ∉ block).length + block.length = n := by
  have hinside : ((List.range n).filter fun i => i ∈ block).Perm block := by
    refine (List.perm_ext_iff_of_nodup (List.nodup_range.filter _) hnd).mpr fun i => ?_
    rw [List.mem_filter, List.mem_range, decide_eq_true_iff]
    exact ⟨fun h => h.2, fun h => ⟨hlt i h, h⟩⟩
  have hsplit := List.length_eq_length_filter_add (l := List.range n) fun i => decide (i ∈ block)
  rw [List.length_range, hinside.length_eq] at hsplit
  simp only [decide_not]
  omega

/-- The rows of the block and the rest are all rows. -/
theorem length_maskIdx (k : ℕ) (q : Node → Bool) (l : Nodes) :
    (maskIdx k (l.map q)).length + (l.filter fun n => !q n).length = l.length := by
  induction l generalizing k with
  | nil => rfl
  | cons n l ih =>
      have hrest := ih (k + 1)
      rw [List.map_cons, maskIdx]
      cases hq : q n with
      | true =>
          rw [if_pos rfl, List.filter_cons_of_neg (by simp [hq]), List.length_cons,
            List.length_cons]
          omega
      | false =>
          rw [if_neg (by simp), List.filter_cons_of_pos (by simp [hq]), List.length_cons,
            List.length_cons]
          omega

/-- The block of a drop holds the indices of the rows that `q` selects, the head first. -/
theorem inBlock_of_mask {q : Node → Bool} {a b : Nodes} {h : Node} (hq : q h = true) :
    InBlock (a ++ h :: b).length a.length
      { block := a.length :: (maskIdx 0 (a.map q) ++ maskIdx (a.length + 1) (b.map q))
        insertAt := (a.filter fun n => !q n).length } := by
  have hperm : (a.length :: (maskIdx 0 (a.map q) ++ maskIdx (a.length + 1) (b.map q))).Perm
      (maskIdx 0 ((a ++ h :: b).map q)) := by
    rw [List.map_append, List.map_cons, maskIdx_append, hq, maskIdx, if_pos rfl, List.length_map,
      Nat.zero_add]
    exact List.perm_middle.symm
  have hnd := hperm.nodup_iff.mpr (pairwise_maskIdx 0 ((a ++ h :: b).map q)).nodup
  have hlt : ∀ i ∈ a.length :: (maskIdx 0 (a.map q) ++ maskIdx (a.length + 1) (b.map q)),
      i < (a ++ h :: b).length := by
    intro i hi
    have hmask := hperm.mem_iff.mp hi
    rw [← Nat.zero_add i, mem_maskIdx_iff] at hmask
    have hlen := (List.getElem?_eq_some_iff.mp hmask).1
    rwa [List.length_map] at hlen
  refine ⟨List.count_eq_one_of_mem hnd List.mem_cons_self, hnd, hlt, ?_⟩
  have hout := length_outside hnd hlt
  have hsum := length_maskIdx 0 q (a ++ h :: b)
  rw [← hperm.length_eq] at hsum
  have hfront : (a.filter fun n => !q n).length ≤ ((a ++ h :: b).filter fun n => !q n).length := by
    rw [List.filter_append, List.length_append]
    exact Nat.le_add_right _ _
  have hle : (a.filter fun n => !q n).length ≤ ((List.range (a ++ h :: b).length).filter fun i =>
      i ∉ a.length :: (maskIdx 0 (a.map q) ++ maskIdx (a.length + 1) (b.map q))).length := by omega
  exact hle

/-- The second half of the fix-up returns when the anchor is a row. -/
theorem dragFixup_total {s : DragScan} (hanchor : ∀ a ∈ s.anchor, a < s.rest.length)
    (oldDepth : ℕ) : ∃ fix, dragFixup s oldDepth = .ok fix ∧ fix.move.block = s.block ∧
      fix.move.insertAt = (s.anchor.map (· + 1)).getD 0 := by
  unfold dragFixup
  cases hs : s.anchor with
  | none =>
      simp only [landingDepth_none]
      exact ⟨_, rfl, rfl, rfl⟩
  | some a =>
      have ha := hanchor a hs
      dsimp only
      split_ifs with hpos
      · obtain ⟨j, hwalk, hj⟩ := ancestorWalk_total (l := s.rest) ha (Nat.lt_succ_of_lt ha)
        rw [hwalk]
        simp only [List.getElem?_eq_getElem hj]
        exact ⟨_, rfl, rfl, rfl⟩
      · exact ⟨_, rfl, rfl, rfl⟩

/-- What the fix-up of a drop does on the way, and what it returns. -/
structure Fixed (after : Nodes) (headIndex oldDepth : ℕ) (subtree : List WString) (fix : DragFixup) :
    Prop where
  /-- The closure by id ends. -/
  closes : ∃ head, after[headIndex]? = some head ∧
    closeLoop after (after.length + 1) [head.id] = .ok subtree
  /-- The anchor is a row outside the block. -/
  anchor_lt : ∀ a ∈ (dragScan subtree headIndex 0 after ⟨[headIndex], [], none⟩).anchor,
    a < (dragScan subtree headIndex 0 after ⟨[headIndex], [], none⟩).rest.length
  /-- The lower bound of the clamp is not above the upper one. -/
  clamps : (depthBounds (dragScan subtree headIndex 0 after ⟨[headIndex], [], none⟩).rest
      (dragScan subtree headIndex 0 after ⟨[headIndex], [], none⟩).anchor fix.move.insertAt).1 ≤
    (depthBounds (dragScan subtree headIndex 0 after ⟨[headIndex], [], none⟩).rest
      (dragScan subtree headIndex 0 after ⟨[headIndex], [], none⟩).anchor fix.move.insertAt).2
  /-- The walk finds every key and ends. -/
  returns : normalizeAfterDrag after headIndex oldDepth = .ok (some fix)
  block : InBlock after.length headIndex fix.move

/-- **The fix-up of a drop returns on every list**, with a block that can be lifted and put back. -/
theorem normalizeAfterDrag_total (after : Nodes) {headIndex : ℕ} (hhead : headIndex < after.length)
    (oldDepth : ℕ) : ∃ subtree fix, Fixed after headIndex oldDepth subtree fix := by
  obtain ⟨a, h, b, rfl, rfl⟩ : ∃ a h b, after = a ++ h :: b ∧ headIndex = a.length :=
    ⟨after.take headIndex, after[headIndex], after.drop (headIndex + 1), by simp, by simp; omega⟩
  have hget : (a ++ h :: b)[a.length]? = some h := by simp
  obtain ⟨ids, hloop, hsub, -⟩ :
      ∃ s', closeLoop (a ++ h :: b) ((a ++ h :: b).length + 1) [h.id] = .ok s' ∧ _ :=
    closeLoop_ok (lt_of_le_of_lt (List.length_filter_le _ _) (Nat.lt_succ_self _))
  have hh : inIds ids h = true := by
    have hmem : h.id ∈ ids := hsub List.mem_cons_self
    simpa [inIds] using hmem
  have hscan := dragScan_eq hh a b
  have hanchor : ∀ r ∈ (dragScan ids a.length 0 (a ++ h :: b) ⟨[a.length], [], none⟩).anchor,
      r < (dragScan ids a.length 0 (a ++ h :: b) ⟨[a.length], [], none⟩).rest.length := by
    intro r hr
    rw [hscan] at hr ⊢
    unfold anchorOf at hr
    split_ifs at hr with hnil
    · cases hr
    · obtain rfl := Option.some.inj hr
      have hpos := List.length_pos_of_ne_nil hnil
      rw [List.length_append]
      omega
  obtain ⟨fix, hfix, hblock, hinsert⟩ := dragFixup_total hanchor oldDepth
  rw [hscan] at hblock hinsert
  have hmove : fix.move =
      { block := a.length ::
          (maskIdx 0 (a.map (inIds ids)) ++ maskIdx (a.length + 1) (b.map (inIds ids)))
        insertAt := (a.filter fun n => !inIds ids n).length } := by
    have hlen : (((anchorOf (a.filter fun n => !inIds ids n)).map (· + 1)).getD 0) =
        (a.filter fun n => !inIds ids n).length := by
      unfold anchorOf
      split_ifs with hnil
      · rw [hnil]
        rfl
      · have hpos := List.length_pos_of_ne_nil hnil
        simp only [Option.map_some, Option.getD_some]
        omega
    cases hm : fix.move with
    | mk block insertAt =>
        rw [hm] at hblock hinsert
        dsimp only at hblock hinsert
        rw [hblock, hinsert, hlen]
  refine ⟨ids, fix, ⟨h, hget, hloop⟩, hanchor, min_le_right _ _, ?_, hmove ▸ inBlock_of_mask hh⟩
  unfold normalizeAfterDrag
  rw [hget]
  simp only [hloop, hfix]
  rfl

/-- Two rows of one id, a cycle, a parent that is gone and one behind its child. -/
def malformedRows : Nodes :=
  [⟨L "a", L "b", false⟩, ⟨L "b", L "a", false⟩, ⟨L "c", L "a", false⟩, ⟨L "c", L "c", true⟩,
    ⟨[], L "x", false⟩, ⟨L "d", L "c", false⟩]

theorem normalizeAfterDrag_malformedRows :
    ∃ subtree fix, Fixed malformedRows 4 7 subtree fix :=
  normalizeAfterDrag_total malformedRows (by decide) 7

end Axan.EntryTree
