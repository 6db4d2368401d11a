import Axan.EntryTree.WellFormed

/-!
# Subtrees and moves among siblings

* `subtreeMask_eq`, `family_subtree` — on a well-formed list the one-pass mask of a row selects
  its family.
* `applyBlockMove_eq` — what lifting a block and putting it back comes to.
* `moveAmongSiblings_cases` — the block is the row's family, and it goes in front of the previous
  sibling or behind the last row of the next sibling's family.
* `Tree.moveAmongSiblings` — so a move keeps the invariant.
-/

namespace Axan.EntryTree

open Axan.Base Axan.Base.Forest

/-! ## The subtree mask -/

/-- The ids `SubtreeMask` has collected at the end of its loop. -/
def markFrom (ids : List WString) : Nodes → List WString
  | [] => ids
  | n :: rest =>
      if !n.parentId.isEmpty && ids.contains n.parentId then markFrom (n.id :: ids) rest
      else markFrom ids rest

/-- The marks of two parts in a row. -/
theorem markFrom_append (ids : List WString) (a b : Nodes) :
    markFrom ids (a ++ b) = markFrom (markFrom ids a) b := by
  induction a generalizing ids with
  | nil => rfl
  | cons n a ih =>
      rw [List.cons_append, markFrom, markFrom]
      split_ifs
      · exact ih _
      · exact ih _

theorem subset_markFrom (ids : List WString) (l : Nodes) : ids ⊆ markFrom ids l := by
  induction l generalizing ids with
  | nil => exact List.Subset.refl _
  | cons n l ih =>
      rw [markFrom]
      split_ifs
      · exact List.Subset.trans (List.subset_cons_self _ _) (ih _)
      · exact ih _

/-- A collected id was there at the start, or is that of a row whose parent was collected. -/
theorem markFrom_origin {ids : List WString} {l : Nodes} {x : WString}
    (hx : x ∈ markFrom ids l) :
    x ∈ ids ∨ ∃ n ∈ l, n.id = x ∧ n.parentId ≠ [] ∧ n.parentId ∈ markFrom ids l := by
  induction l generalizing ids with
  | nil => exact Or.inl hx
  | cons n l ih =>
      rw [markFrom] at hx ⊢
      split_ifs at hx ⊢ with hc
      · simp only [Bool.and_eq_true, Bool.not_eq_true', List.isEmpty_eq_false_iff,
          List.contains_iff_mem] at hc
        rcases ih hx with hx | ⟨m, hm, h⟩
        · rcases List.mem_cons.mp hx with rfl | hx
          · refine Or.inr ⟨n, List.mem_cons_self, rfl, hc.1, ?_⟩
            exact subset_markFrom _ _ (List.mem_cons_of_mem _ hc.2)
          · exact Or.inl hx
        · exact Or.inr ⟨m, List.mem_cons_of_mem _ hm, h⟩
      · rcases ih hx with hx | ⟨m, hm, h⟩
        · exact Or.inl hx
        · exact Or.inr ⟨m, List.mem_cons_of_mem _ hm, h⟩

/-- With distinct ids the mask says of each row whether its id is collected. -/
theorem maskFrom_eq_map {ids : List WString} {l : Nodes} (hd : (l.map Node.id).Nodup)
    (hids : ∀ n ∈ l, n.id ∉ ids) :
    maskFrom ids l = l.map fun n => (markFrom ids l).contains n.id := by
  induction l generalizing ids with
  | nil => rfl
  | cons n l ih =>
      rw [List.map_cons, List.nodup_cons] at hd
      have hnot : ∀ m ∈ l, m.id ≠ n.id := fun m hm he => hd.1 (he ▸ List.mem_map_of_mem hm)
      rw [maskFrom, markFrom]
      split_ifs with hc
      · have hmem : n.id ∈ markFrom (n.id :: ids) l := subset_markFrom _ _ List.mem_cons_self
        rw [List.map_cons, ih hd.2 fun m hm => ?_]
        · simp [hmem]
        · simp only [List.mem_cons, not_or]
          exact ⟨hnot m hm, hids m (List.mem_cons_of_mem _ hm)⟩
      · have hmem : n.id ∉ markFrom ids l := by
          intro hm
          rcases markFrom_origin hm with h | ⟨m, hm, he, -⟩
          · exact hids n List.mem_cons_self h
          · exact hnot m hm he
        rw [List.map_cons, ih hd.2 fun m hm => hids m (List.mem_cons_of_mem _ hm)]
        simp [hmem]

/-- The members of the subtree of `r`, when the rows behind `r` are `post`. -/
def inSubtree (r : Node) (post : Nodes) (n : Node) : Bool := (markFrom [r.id] post).contains n.id

section subtree

variable {pre post : Nodes} {r : Node}

/-- A row in front is not in the subtree. -/
theorem not_inSubtree_of_mem_pre (ht : Tree (pre ++ r :: post)) {n : Node} (hn : n ∈ pre) :
    inSubtree r post n = false := by
  have hd := ht.distinct
  rw [List.map_append, List.nodup_append] at hd
  have hne : ∀ m ∈ r :: post, m.id ≠ n.id := fun m hm he =>
    hd.2.2 n.id (List.mem_map_of_mem hn) m.id (List.mem_map_of_mem hm) he.symm
  have : n.id ∉ markFrom [r.id] post := by
    intro hm
    rcases markFrom_origin hm with h | ⟨m, hm, he, -⟩
    · exact hne r List.mem_cons_self (List.mem_singleton.mp h).symm
    · exact hne m (List.mem_cons_of_mem _ hm) he
  simpa [inSubtree] using this

/-- The mask follows the predicate. -/
theorem subtreeMask_eq (ht : Tree (pre ++ r :: post)) :
    subtreeMask (pre ++ r :: post) pre.length =
      (pre ++ r :: post).map (inSubtree r post) := by
  have hd := ht.distinct
  rw [List.map_append, List.map_cons, List.nodup_append, List.nodup_cons] at hd
  have hpre : pre.map (inSubtree r post) = List.replicate pre.length false :=
    List.eq_replicate_iff.mpr ⟨by simp, fun b hb => by
      obtain ⟨n, hn, rfl⟩ := List.mem_map.mp hb
      exact not_inSubtree_of_mem_pre ht hn⟩
  have hr : inSubtree r post r = true := by
    have : r.id ∈ markFrom [r.id] post := subset_markFrom _ _ List.mem_cons_self
    simpa [inSubtree] using this
  have hpost : maskFrom [r.id] post = post.map (inSubtree r post) :=
    maskFrom_eq_map hd.2.1.2 fun n hn he =>
      hd.2.1.1 (List.mem_singleton.mp he ▸ List.mem_map_of_mem hn)
  have hget : (pre ++ r :: post)[pre.length]? = some r := by simp
  have hdrop : (pre ++ r :: post).drop (pre.length + 1) = post := by
    rw [show pre ++ r :: post = (pre ++ [r]) ++ post by simp]
    exact List.drop_left' (by simp)
  unfold subtreeMask
  rw [hget]
  simp only [hdrop]
  rw [List.map_append, List.map_cons, hpre, hr, hpost]

/-- **The one-pass mask selects the family of the row.** -/
theorem family_subtree (ht : Tree (pre ++ r :: post)) :
    Family (pre ++ r :: post) r (inSubtree r post) where
  head_mem := by simp
  head := by
    have : r.id ∈ markFrom [r.id] post := subset_markFrom _ _ List.mem_cons_self
    simpa [inSubtree] using this
  closed := by
    intro m hm n hn hpm hid
    have hpn : n.parentId ≠ [] := by
      rw [hid]
      exact ht.id_ne m hm
    obtain ⟨m', hb, hid', -⟩ := ht.parent n hn hpn
    obtain rfl : m' = m := ht.eq_of_id hb.mem_left hm (by rw [hid', hid])
    -- the parent is collected, so it does not stand in front of the root
    have hmpre : m' ∉ pre := fun h => by
      rw [not_inSubtree_of_mem_pre ht h] at hpm
      cases hpm
    have hnpost : n ∈ post := by
      rcases List.mem_append.mp hn with h | h
      · obtain ⟨a, b, hab⟩ := List.append_of_mem h
        have hl : pre ++ r :: post = a ++ n :: (b ++ r :: post) := by simp [hab]
        have := hb.mem_of_split ht.nodup hl
        exact absurd (hab ▸ List.mem_append_left _ this) hmpre
      · rcases List.mem_cons.mp h with rfl | h
        · exact absurd (hb.mem_of_split ht.nodup rfl) hmpre
        · exact h
    obtain ⟨a, b, hab⟩ := List.append_of_mem hnpost
    have hl : pre ++ r :: post = (pre ++ r :: a) ++ n :: b := by simp [hab]
    have hma : m' ∈ pre ++ r :: a := hb.mem_of_split ht.nodup hl
    -- when the loop reaches `n`, its parent's id is among those collected
    have hcol : m'.id ∈ markFrom [r.id] a := by
      have hpm' : m'.id ∈ markFrom [r.id] post := by simpa [inSubtree] using hpm
      rw [hab, markFrom_append] at hpm'
      rcases markFrom_origin hpm' with h | ⟨q, hq, he, -⟩
      · exact h
      · exfalso
        have hd := ht.distinct
        rw [hl, List.map_append, List.nodup_append] at hd
        exact hd.2.2 m'.id (List.mem_map_of_mem hma) q.id (List.mem_map_of_mem hq) he.symm
    have hin : n.id ∈ markFrom [r.id] post := by
      have hc : (!n.parentId.isEmpty && (markFrom [r.id] a).contains n.parentId) = true := by
        rw [hid]
        simp [hcol, ht.id_ne m' hm]
      rw [hab, markFrom_append, markFrom, if_pos hc]
      exact subset_markFrom _ _ List.mem_cons_self
    simpa [inSubtree] using hin
  proper := by
    intro n hn hpn
    have hin : n.id ∈ markFrom [r.id] post := by simpa [inSubtree] using hpn
    rcases markFrom_origin hin with h | ⟨q, hq, he, hqp, hqm⟩
    · exact Or.inl (ht.eq_of_id hn (by simp) (List.mem_singleton.mp h))
    · have hql : q ∈ pre ++ r :: post := by simp [hq]
      obtain rfl : q = n := ht.eq_of_id hql hn he
      obtain ⟨m, hb, hmid, -⟩ := ht.parent q hn hqp
      refine Or.inr ⟨m, hb.mem_left, ?_, hmid.symm⟩
      rw [← hmid] at hqm
      simpa [inSubtree] using hqm

end subtree

/-! ## Lifting a block -/

/-- Lifting the rows `q` selects, in any order, and putting them back at `insertAt`. -/
theorem applyBlockMove_eq {α : Type} {move : BlockMove} {l block : List α} (q : α → Bool)
    (hperm : move.block.Perm (maskIdx 0 (l.map q))) (hblock : pick move.block l = some block)
    (hk : move.insertAt ≤ (l.filter fun a => !q a).length) :
    applyBlockMove move l = .ok ((l.filter fun a => !q a).take move.insertAt ++ block ++
      (l.filter fun a => !q a).drop move.insertAt) := by
  set removal := move.block.mergeSort fun i j => j ≤ i with hrem
  have hmem : ∀ i, i ∈ removal ↔ (l.map q)[i]? = some true := by
    intro i
    rw [hrem, (List.mergeSort_perm _ _).mem_iff, hperm.mem_iff]
    have h := @mem_maskIdx_iff 0 i (l.map q)
    rwa [Nat.zero_add] at h
  have hnd : removal.Nodup := by
    have : (maskIdx 0 (l.map q)).Nodup := (pairwise_maskIdx 0 _).imp fun h => ne_of_lt h
    exact ((List.mergeSort_perm _ _).trans hperm).nodup_iff.mpr this
  have hdesc : removal.Pairwise (· > ·) := by
    have hge : removal.Pairwise fun i j => decide (j ≤ i) = true :=
      List.pairwise_mergeSort (fun a b c hab hbc => by simp_all; omega)
        (fun a b => by simp; omega) _
    exact (hge.and hnd).imp fun h => lt_of_le_of_ne (of_decide_eq_true h.1) (Ne.symm h.2)
  have hlt : ∀ i ∈ removal, i < l.length := by
    intro i hi
    have := (List.getElem?_eq_some_iff.mp ((hmem i).mp hi)).1
    simpa using this
  have hkeep : keep (fun j => !removal.contains j) 0 l = l.filter fun a => !q a := by
    refine keep_eq_filter fun i a hi => ?_
    have : (l.map q)[i]? = some (q a) := by simp [hi]
    cases hq : q a with
    | true =>
        have hm := (hmem i).mpr (by rw [this, hq])
        simpa using hm
    | false =>
        have hm : i ∉ removal := fun h => by
          have := (hmem i).mp h
          simp_all
        simpa using hm
  unfold applyBlockMove
  rw [hblock]
  simp only
  rw [← hrem, removeEach_eq hdesc hlt, hkeep]
  simp only
  rw [insertRun_eq hk]

/-- A block move of rows is the block move of what they show. -/
theorem applyBlockMove_map {α β : Type} (f : α → β) (move : BlockMove) (l : List α) :
    applyBlockMove move (l.map f) = (applyBlockMove move l).map (List.map f) := by
  have hrem : ∀ (is : List ℕ) (l : List α),
      removeEach is (l.map f) = (removeEach is l).map (List.map f) := by
    intro is
    induction is with
    | nil => intro l; rfl
    | cons i is ih =>
        intro l
        rw [removeEach, removeEach, removeAt, removeAt, List.length_map]
        split_ifs
        · rw [Option.bind_some, Option.bind_some, List.eraseIdx_map, ih]
        · rfl
  have hins : ∀ (as : List α) (i : ℕ) (l : List α),
      insertRun i (as.map f) (l.map f) = (insertRun i as l).map (List.map f) := by
    intro as
    induction as with
    | nil => intro i l; rfl
    | cons a as ih =>
        intro i l
        rw [List.map_cons, insertRun, insertRun, insertAt, insertAt, List.length_map]
        split_ifs
        · rw [Option.bind_some, Option.bind_some, ← List.map_insertIdx, ih]
        · rfl
  unfold applyBlockMove
  rw [pick_eq_map, hrem]
  cases pick move.block l with
  | none => rfl
  | some block =>
      cases removeEach (move.block.mergeSort fun i j => j ≤ i) l with
      | none => rfl
      | some rest =>
          simp only [Option.map_some]
          rw [hins]
          cases insertRun move.insertAt block rest <;> rfl

/-! ## Siblings -/

/-- The row that is found is in front, and of the kind. -/
theorem lastBelow_eq_some {p : Node → Bool} {nodes : Nodes} {i j : ℕ}
    (h : lastBelow p nodes i = some j) : j < i ∧ ∃ n, nodes[j]? = some n ∧ p n = true := by
  induction i with
  | zero => cases h
  | succ i ih =>
      have step : lastBelow p nodes i = some j →
          j < i + 1 ∧ ∃ n, nodes[j]? = some n ∧ p n = true := fun h =>
        ⟨(ih h).1.trans (Nat.lt_succ_self i), (ih h).2⟩
      rw [lastBelow] at h
      cases hn : nodes[i]? with
      | none =>
          rw [hn] at h
          exact step h
      | some n =>
          rw [hn] at h
          simp only at h
          split_ifs at h with hp
          · obtain rfl : i = j := Option.some.inj h
            exact ⟨Nat.lt_succ_self i, n, hn, hp⟩
          · exact step h

/-- It is the last of the kind. -/
theorem lastBelow_split {p : Node → Bool} {a b c : Nodes} {s : Node} (hs : p s = true)
    (hb : ∀ q ∈ b, p q = false) :
    lastBelow p (a ++ s :: (b ++ c)) (a.length + 1 + b.length) = some a.length := by
  induction b using List.reverseRecOn generalizing c with
  | nil => simp [lastBelow, hs]
  | append_singleton b q ih =>
      have hget : (a ++ s :: (b ++ [q] ++ c))[a.length + 1 + b.length]? = some q := by
        have hsplit : a ++ s :: (b ++ [q] ++ c) = (a ++ s :: b) ++ q :: c := by simp
        have hlen : a.length + 1 + b.length = (a ++ s :: b).length := by
          rw [List.length_append, List.length_cons]
          omega
        rw [hsplit, hlen, List.getElem?_append_right le_rfl, Nat.sub_self]
        rfl
      have hq : p q = false := hb q (by simp)
      have hrest := ih (c := q :: c) fun q' hq' => hb q' (List.mem_append_left _ hq')
      rw [List.length_append, List.length_singleton, ← Nat.add_assoc, lastBelow, hget]
      simp only [hq, Bool.false_eq_true, if_false]
      simpa using hrest

section siblings

variable {a b c pre post : Nodes} {s h : Node} {j : ℕ}

/-- The previous sibling is the nearest row in front with the same parent. -/
theorem prevSibling_split (hs : s.parentId = h.parentId)
    (hb : ∀ q ∈ b, q.parentId ≠ h.parentId) :
    prevSibling ((a ++ s :: b) ++ h :: post) (a ++ s :: b).length = some a.length := by
  have hget : ((a ++ s :: b) ++ h :: post)[(a ++ s :: b).length]? = some h := by
    rw [List.getElem?_append_right le_rfl, Nat.sub_self]
    rfl
  rw [prevSibling, hget, List.append_assoc, List.cons_append, List.length_append, List.length_cons,
    Nat.add_comm b.length, ← Nat.add_assoc]
  apply lastBelow_split
  · simpa using hs
  · intro q hq
    simpa using hb q hq

/-- Between a row and its previous sibling is no other sibling. -/
theorem exists_prevSibling (hj : prevSibling (pre ++ h :: post) pre.length = some j) :
    ∃ a s b, pre = a ++ s :: b ∧ s.parentId = h.parentId ∧
      ∀ q ∈ b, q.parentId ≠ h.parentId := by
  have hget : (pre ++ h :: post)[pre.length]? = some h := by simp
  rw [prevSibling, hget] at hj
  obtain ⟨hlt, n, hn, hp⟩ := lastBelow_eq_some hj
  have hmem : n ∈ pre := mem_of_getElem?_lt hn hlt
  obtain ⟨a, s, b, hpre, hs, hb, -⟩ :=
    exists_last (p := fun q => q.parentId = h.parentId) hmem (of_decide_eq_true hp)
  exact ⟨a, s, b, hpre, hs, hb⟩

/-- The next sibling is the nearest row behind with the same parent. -/
theorem nextSibling_split (hs : s.parentId = h.parentId)
    (hb : ∀ q ∈ b, q.parentId ≠ h.parentId) :
    nextSibling (pre ++ h :: (b ++ s :: c)) pre.length = some (pre ++ h :: b).length := by
  have hget : (pre ++ h :: (b ++ s :: c))[pre.length]? = some h := by
    rw [List.getElem?_append_right le_rfl, Nat.sub_self]
    rfl
  have hdrop : (pre ++ h :: (b ++ s :: c)).drop (pre.length + 1) = b ++ s :: c := by
    rw [← List.drop_drop, List.drop_left]
    rfl
  have hfind : (b ++ s :: c).findIdx? (fun n => n.parentId = h.parentId) = some b.length := by
    rw [List.findIdx?_append, List.findIdx?_eq_none_iff.mpr fun q hq => by simpa using hb q hq]
    simp [List.findIdx?_cons, hs]
  rw [nextSibling, hget]
  simp only [hdrop, hfind, Option.map_some, List.length_append, List.length_cons]
  congr 1
  omega

/-- Nor is there one before the next sibling. -/
theorem exists_nextSibling (hj : nextSibling (pre ++ h :: post) pre.length = some j) :
    ∃ b s c, post = b ++ s :: c ∧ s.parentId = h.parentId ∧
      ∀ q ∈ b, q.parentId ≠ h.parentId := by
  have hget : (pre ++ h :: post)[pre.length]? = some h := by simp
  have hdrop : (pre ++ h :: post).drop (pre.length + 1) = post := by
    rw [← List.drop_drop, List.drop_left]
    rfl
  rw [nextSibling, hget] at hj
  simp only [hdrop] at hj
  obtain ⟨k, hk, -⟩ := Option.map_eq_some_iff.mp hj
  obtain ⟨hlt, hp, hbefore⟩ := List.findIdx?_eq_some_iff_getElem.mp hk
  have hs : ∃ s, post[k]? = some s ∧ s.parentId = h.parentId :=
    ⟨post[k], List.getElem?_eq_getElem hlt, of_decide_eq_true hp⟩
  obtain ⟨s, hget', hs⟩ := hs
  obtain ⟨b, c, rfl, rfl⟩ := split_of_getElem? hget'
  refine ⟨b, s, c, rfl, hs, fun q hq => ?_⟩
  obtain ⟨i, hi, rfl⟩ := List.mem_iff_getElem.mp hq
  have hno := hbefore i hi
  rw [List.getElem_append_left hi] at hno
  simpa using hno

end siblings

/-! ## The scan of a move -/

/-- How many rows of a scan stay. -/
def stay (masks : List (Bool × Bool)) : ℕ := (masks.filter fun x => !x.1).length

/-- The scan of two parts in a row. -/
theorem moveScan_append (up : Bool) (sibling i r : ℕ) (a b : List (Bool × Bool))
    (move : BlockMove) : moveScan up sibling i r (a ++ b) move =
      moveScan up sibling (i + a.length) (r + stay a) b (moveScan up sibling i r a move) := by
  induction a generalizing i r move with
  | nil => rfl
  | cons x a ih =>
      obtain ⟨moved, inSibling⟩ := x
      have hlen : i + 1 + a.length = i + (a.length + 1) := by omega
      rw [List.length_cons, ← hlen]
      cases moved with
      | true => exact ih _ _ _
      | false =>
          have hstay : r + 1 + stay a = r + stay ((false, inSibling) :: a) := by
            simp only [stay, Bool.not_false, List.filter_cons_of_pos, List.length_cons]
            omega
          rw [← hstay]
          exact ih _ _ _

/-- The block are the marked rows. -/
theorem moveScan_block (up : Bool) (sibling i r : ℕ) (masks : List (Bool × Bool))
    (move : BlockMove) : (moveScan up sibling i r masks move).block =
      move.block ++ maskIdx i (masks.map Prod.fst) := by
  induction masks generalizing i r move with
  | nil => simp [moveScan, maskIdx]
  | cons x masks ih =>
      obtain ⟨moved, inSibling⟩ := x
      cases moved with
      | true => rw [moveScan, if_pos rfl, ih]; simp [maskIdx]
      | false => rw [moveScan, if_neg (by simp), ih]; simp [maskIdx]

/-- Behind the previous sibling a move up leaves the insertion index alone. -/
theorem moveScan_up_behind {sibling i r : ℕ} (masks : List (Bool × Bool)) (move : BlockMove)
    (h : sibling < i) : (moveScan true sibling i r masks move).insertAt = move.insertAt := by
  induction masks generalizing i r move with
  | nil => rfl
  | cons x masks ih =>
      obtain ⟨moved, inSibling⟩ := x
      cases moved with
      | true => rw [moveScan, if_pos rfl, ih _ (by omega)]
      | false =>
          have hne : i ≠ sibling := by omega
          rw [moveScan, if_neg (by simp), ih _ (by omega)]
          simp [hne]

/-- Without further rows of the sibling's family a move down leaves it alone. -/
theorem moveScan_down_behind {sibling i r : ℕ} {masks : List (Bool × Bool)} (move : BlockMove)
    (h : (false, true) ∉ masks) :
    (moveScan false sibling i r masks move).insertAt = move.insertAt := by
  induction masks generalizing i r move with
  | nil => rfl
  | cons x masks ih =>
      obtain ⟨moved, inSibling⟩ := x
      have hrest : (false, true) ∉ masks := fun hm => h (List.mem_cons_of_mem _ hm)
      cases moved with
      | true => rw [moveScan, if_pos rfl, ih _ hrest]
      | false =>
          have hfalse : inSibling = false := by
            cases inSibling with
            | true => exact absurd List.mem_cons_self h
            | false => rfl
          rw [moveScan, if_neg (by simp), ih _ hrest]
          simp [hfalse]

/-- What stays are the rows outside of the block. -/
theorem stay_zip (l : Nodes) (p q : Node → Bool) :
    stay ((l.map p).zip (l.map q)) = (l.filter fun n => !p n).length := by
  induction l with
  | nil => rfl
  | cons n l ih =>
      simp only [stay, List.map_cons, List.zip_cons_cons, List.filter_cons] at ih ⊢
      cases p n <;> simp [ih]

/-! ## Moves -/

section moves

variable {pre post a b c d : Nodes} {h s : Node}

/-- A sibling is outside the family. -/
theorem not_inSubtree_sibling (ht : Tree (pre ++ h :: post)) (hs : s ∈ pre ++ h :: post)
    (hne : s ≠ h) (hpar : s.parentId = h.parentId) : inSubtree h post s = false := by
  have hf := family_subtree ht
  by_contra hps
  rw [Bool.not_eq_false] at hps
  obtain ⟨m, hb, hid, -, hpm⟩ := hf.parent_mem ht hs hps hne
  have hpne : h.parentId ≠ [] := by
    rw [← hpar, ← hid]
    exact ht.id_ne m hb.mem_left
  obtain ⟨m', hb', hid', -⟩ := ht.parent h (by simp) hpne
  obtain rfl : m' = m := ht.eq_of_id hb'.mem_left hb.mem_left (by rw [hid', hid, hpar])
  rw [hf.pre_false ht rfl m' (hb'.mem_of_split ht.nodup rfl)] at hpm
  cases hpm

/-- Two families, neither of which holds the other's head, have no row in common. -/
theorem Family.disjoint {l : Nodes} (ht : Tree l) {p q : Node → Bool} (hf : Family l h p)
    (hg : Family l s q) (hps : p s = false) (hqh : q h = false) {n : Node} (hn : n ∈ l)
    (hqn : q n = true) : p n = false := by
  by_contra hpn
  rw [Bool.not_eq_false] at hpn
  have hunique : Relator.RightUnique (HangsAt (lines l)) := by
    rintro i j k ⟨x, hx, hxi, hxj⟩ ⟨y, hy, hyi, hyk⟩
    have heq : x = y := List.inj_on_of_nodup_map ht.parentsFirst.nodup hx hy (hxi.trans hyi.symm)
    rw [heq, hyk] at hxj
    exact (Option.some.inj hxj).symm
  rcases Relation.ReflTransGen.total_of_right_unique hunique ((hf.eq_true_iff ht hn).mp hpn)
    ((hg.eq_true_iff ht hn).mp hqn) with hbelow | hbelow
  · rw [(hg.eq_true_iff ht hf.head_mem).mpr hbelow] at hqh
    cases hqh
  · rw [(hf.eq_true_iff ht hg.head_mem).mpr hbelow] at hps
    cases hps

/-- Two places of a list have different rows. -/
theorem ne_of_split (ht : Tree (a ++ s :: (b ++ h :: c))) : s ≠ h := by
  rintro rfl
  have hnd := ht.nodup
  rw [List.nodup_append, List.nodup_cons] at hnd
  exact hnd.2.1.1 (by simp)

/-- The block of a move up goes in front of the previous sibling. -/
theorem moveAmongSiblings_up (ht : Tree ((a ++ s :: b) ++ h :: post))
    (hs : s.parentId = h.parentId) (hb : ∀ q ∈ b, q.parentId ≠ h.parentId) :
    ∃ move, moveAmongSiblings ((a ++ s :: b) ++ h :: post) (a ++ s :: b).length true = some move ∧
      move.block = maskIdx 0 (((a ++ s :: b) ++ h :: post).map (inSubtree h post)) ∧
      move.insertAt = (a.filter fun n => !inSubtree h post n).length := by
  have hl : (a ++ s :: b) ++ h :: post = a ++ s :: (b ++ h :: post) := by simp
  have hps : inSubtree h post s = false :=
    not_inSubtree_sibling ht (by simp) (ne_of_split (hl ▸ ht)) hs
  have hmask : subtreeMask ((a ++ s :: b) ++ h :: post) a.length =
      ((a ++ s :: b) ++ h :: post).map (inSubtree s (b ++ h :: post)) := by
    rw [hl]
    exact subtreeMask_eq (hl ▸ ht)
  refine ⟨_, by rw [moveAmongSiblings, if_pos rfl, prevSibling_split hs hb], ?_, ?_⟩
  · rw [moveScan_block, List.nil_append, List.map_fst_zip (by rw [subtreeMask_eq ht, hmask]; simp),
      subtreeMask_eq ht]
  · rw [subtreeMask_eq ht, hmask, hl, List.map_append, List.map_append, List.zip_append (by simp),
      moveScan_append, List.map_cons, List.map_cons, List.zip_cons_cons, hps, moveScan,
      if_neg (by simp), moveScan_up_behind _ _ (by simp), stay_zip]
    simp

/-- The block of a move down goes behind the last row of the next sibling's family. -/
theorem moveAmongSiblings_down (ht : Tree (pre ++ h :: (b ++ s :: (c ++ d))))
    (hs : s.parentId = h.parentId) (hb : ∀ q ∈ b, q.parentId ≠ h.parentId)
    (hlast : ∀ e ∈ (s :: c).getLast?, inSubtree s (c ++ d) e = true)
    (hd : ∀ e ∈ d, inSubtree s (c ++ d) e = false) :
    ∃ move, moveAmongSiblings (pre ++ h :: (b ++ s :: (c ++ d))) pre.length false = some move ∧
      move.block = maskIdx 0 ((pre ++ h :: (b ++ s :: (c ++ d))).map
        (inSubtree h (b ++ s :: (c ++ d)))) ∧
      move.insertAt = ((pre ++ h :: (b ++ s :: c)).filter fun n =>
        !inSubtree h (b ++ s :: (c ++ d)) n).length := by
  have hl : pre ++ h :: (b ++ s :: (c ++ d)) = (pre ++ h :: b) ++ s :: (c ++ d) := by simp
  have hts : Tree ((pre ++ h :: b) ++ s :: (c ++ d)) := hl ▸ ht
  have hps : inSubtree h (b ++ s :: (c ++ d)) s = false :=
    not_inSubtree_sibling ht (by simp) (ne_of_split ht).symm hs
  have hqh : inSubtree s (c ++ d) h = false := not_inSubtree_of_mem_pre hts (by simp)
  have hmask : subtreeMask (pre ++ h :: (b ++ s :: (c ++ d))) (pre ++ h :: b).length =
      (pre ++ h :: (b ++ s :: (c ++ d))).map (inSubtree s (c ++ d)) := by
    rw [hl]
    exact subtreeMask_eq hts
  refine ⟨_, by rw [moveAmongSiblings, if_neg (by simp), nextSibling_split hs hb], ?_, ?_⟩
  · rw [moveScan_block, List.nil_append, List.map_fst_zip (by rw [subtreeMask_eq ht, hmask]; simp),
      subtreeMask_eq ht]
  · obtain ⟨f, e, hfe⟩ : ∃ f e, s :: c = f ++ [e] := by
      rcases List.eq_nil_or_concat' (s :: c) with hnil | h
      · cases hnil
      · exact h
    have he : inSubtree s (c ++ d) e = true := hlast e (by rw [hfe, List.getLast?_concat]; rfl)
    have hel : e ∈ pre ++ h :: (b ++ s :: (c ++ d)) := by
      have hmem : e ∈ s :: c := by rw [hfe]; simp
      simp only [List.mem_append, List.mem_cons] at hmem ⊢
      tauto
    have hpe : inSubtree h (b ++ s :: (c ++ d)) e = false :=
      (family_subtree ht).disjoint ht (hl ▸ family_subtree hts) hps hqh hel he
    have hsplit : pre ++ h :: (b ++ s :: (c ++ d)) = (pre ++ h :: (b ++ f)) ++ e :: d := by
      have hcd : s :: (c ++ d) = f ++ e :: d := by
        rw [← List.cons_append, hfe]
        simp
      rw [hcd]
      simp
    have hfront : pre ++ h :: (b ++ s :: c) = (pre ++ h :: (b ++ f)) ++ [e] := by
      rw [hfe]
      simp
    have hnone : (false, true) ∉ (d.map (inSubtree h (b ++ s :: (c ++ d)))).zip
        (d.map (inSubtree s (c ++ d))) := by
      intro hmem
      rw [List.zip_map', List.mem_map] at hmem
      obtain ⟨n, hn, hpair⟩ := hmem
      rw [hd n hn] at hpair
      cases (Prod.mk.inj hpair).2
    rw [subtreeMask_eq ht, hmask, hfront]
    conv_lhs => rw [hsplit]
    generalize pre ++ h :: (b ++ f) = front
    rw [List.map_append, List.map_append, List.zip_append (by simp), moveScan_append, List.map_cons,
      List.map_cons, List.zip_cons_cons, hpe, he, moveScan, if_neg (by simp),
      moveScan_down_behind _ hnone, stay_zip]
    simp [hpe]

/-- A family ends somewhere. -/
theorem exists_family_end (s : Node) (c : Nodes) : ∃ c₁ c₂, c = c₁ ++ c₂ ∧
    (∀ e ∈ (s :: c₁).getLast?, inSubtree s c e = true) ∧ ∀ e ∈ c₂, inSubtree s c e = false := by
  have hs : inSubtree s c s = true := by
    have hmem : s.id ∈ markFrom [s.id] c := subset_markFrom _ _ List.mem_cons_self
    simpa [inSubtree] using hmem
  obtain ⟨f, e, c₂, hsplit, he, hrest, -⟩ :=
    exists_last (p := fun n => inSubtree s c n = true) (List.mem_cons_self (a := s) (l := c)) hs
  have hrest' : ∀ n ∈ c₂, inSubtree s c n = false := fun n hn => by simpa using hrest n hn
  cases f with
  | nil =>
      obtain ⟨rfl, rfl⟩ := List.cons.inj hsplit
      refine ⟨[], c, rfl, fun n hn => ?_, hrest'⟩
      obtain rfl : s = n := Option.some.inj hn
      exact hs
  | cons q f =>
      obtain ⟨rfl, hc⟩ := List.cons.inj hsplit
      refine ⟨f ++ [e], c₂, by rw [hc]; simp, fun n hn => ?_, hrest'⟩
      rw [← List.cons_append, List.getLast?_concat] at hn
      obtain rfl : e = n := Option.some.inj hn
      exact he

/-- **What a move among siblings does**: the block is the family of the row; the cut it is put
back at is in front of the previous sibling, or behind the family of the next one. -/
theorem moveAmongSiblings_cases (ht : Tree (pre ++ h :: post)) {up : Bool} {move : BlockMove}
    (hm : moveAmongSiblings (pre ++ h :: post) pre.length up = some move) :
    ∃ front back, pre ++ h :: post = front ++ back ∧
      move.block = maskIdx 0 ((pre ++ h :: post).map (inSubtree h post)) ∧
      move.insertAt = (front.filter fun n => !inSubtree h post n).length ∧
      ((up = true ∧ ∃ s b, pre = front ++ s :: b ∧ s.parentId = h.parentId ∧
          ∀ q ∈ b, q.parentId ≠ h.parentId) ∨
        up = false ∧ ∃ b s c, post = b ++ s :: (c ++ back) ∧ front = pre ++ h :: (b ++ s :: c) ∧
          s.parentId = h.parentId ∧ (∀ q ∈ b, q.parentId ≠ h.parentId) ∧
          (∀ e ∈ (s :: c).getLast?, inSubtree s (c ++ back) e = true) ∧
          ∀ e ∈ back, inSubtree s (c ++ back) e = false) := by
  cases up with
  | true =>
      obtain ⟨j, hj⟩ : ∃ j, prevSibling (pre ++ h :: post) pre.length = some j := by
        cases hj : prevSibling (pre ++ h :: post) pre.length with
        | none => simp [moveAmongSiblings, hj] at hm
        | some j => exact ⟨j, rfl⟩
      obtain ⟨a, s, b, rfl, hs, hb⟩ := exists_prevSibling hj
      obtain ⟨move', hm', hblock, hat⟩ := moveAmongSiblings_up ht hs hb
      obtain rfl := Option.some.inj (hm.symm.trans hm')
      exact ⟨a, s :: b ++ h :: post, by simp, hblock, hat, Or.inl ⟨rfl, s, b, rfl, hs, hb⟩⟩
  | false =>
      obtain ⟨j, hj⟩ : ∃ j, nextSibling (pre ++ h :: post) pre.length = some j := by
        cases hj : nextSibling (pre ++ h :: post) pre.length with
        | none => simp [moveAmongSiblings, hj] at hm
        | some j => exact ⟨j, rfl⟩
      obtain ⟨b, s, c', rfl, hs, hb⟩ := exists_nextSibling hj
      obtain ⟨c, d, rfl, hlast, hd⟩ := exists_family_end s c'
      obtain ⟨move', hm', hblock, hat⟩ := moveAmongSiblings_down ht hs hb hlast hd
      obtain rfl := Option.some.inj (hm.symm.trans hm')
      exact ⟨_, d, by simp, hblock, hat,
        Or.inr ⟨rfl, b, s, c, rfl, rfl, hs, hb, hlast, hd⟩⟩

/-- Lifting the family of a row and putting it back at a cut. -/
theorem applyBlockMove_family (ht : Tree (pre ++ h :: post)) {move : BlockMove} {front back : Nodes}
    (hl : pre ++ h :: post = front ++ back)
    (hblock : move.block = maskIdx 0 ((pre ++ h :: post).map (inSubtree h post)))
    (hat : move.insertAt = (front.filter fun n => !inSubtree h post n).length) :
    applyBlockMove move (pre ++ h :: post) =
      .ok ((front.filter fun n => !inSubtree h post n) ++
        (h :: (pre ++ h :: post).filter fun n => inSubtree h post n && n ≠ h) ++
        back.filter fun n => !inSubtree h post n) := by
  have hf := family_subtree ht
  have hrest : ((pre ++ h :: post).filter fun n => !inSubtree h post n) =
      (front.filter fun n => !inSubtree h post n) ++
        back.filter fun n => !inSubtree h post n := by
    rw [hl, List.filter_append]
  have hpick : pick move.block (pre ++ h :: post) =
      some (h :: (pre ++ h :: post).filter fun n => inSubtree h post n && n ≠ h) := by
    rw [hblock, ← hf.filter_eq ht]
    have := pick_maskIdx (inSubtree h post) [] (pre ++ h :: post) []
    rwa [List.append_nil] at this
  have hle : move.insertAt ≤
      ((pre ++ h :: post).filter fun n => !inSubtree h post n).length := by
    rw [hat, hrest, List.length_append]
    omega
  have hmove := applyBlockMove_eq (inSubtree h post) (hblock ▸ List.Perm.refl _) hpick hle
  rwa [hrest, hat, List.take_left, List.drop_left] at hmove

end moves

/-- A move has a row to move. -/
theorem split_of_move {l : Nodes} {i : ℕ} {up : Bool} {move : BlockMove}
    (hm : moveAmongSiblings l i up = some move) :
    ∃ pre h post, l = pre ++ h :: post ∧ i = pre.length := by
  cases hi : l[i]? with
  | none => cases up <;> simp [moveAmongSiblings, prevSibling, nextSibling, hi] at hm
  | some h =>
      obtain ⟨pre, post, hl, hlen⟩ := split_of_getElem? hi
      exact ⟨pre, h, post, hl, hlen⟩

/-- A move among siblings succeeds, keeps the invariant and only reorders. -/
theorem Tree.moveAmongSiblings {l : Nodes} (ht : Tree l) {i : ℕ} {up : Bool} {move : BlockMove}
    (hm : moveAmongSiblings l i up = some move) :
    ∃ l', applyBlockMove move l = .ok l' ∧ Tree l' ∧ l'.Perm l := by
  obtain ⟨pre, h, post, rfl, rfl⟩ := split_of_move hm
  have hf := family_subtree ht
  obtain ⟨front, back, hl, hblock, hat, hside⟩ := moveAmongSiblings_cases ht hm
  have hrest : ((pre ++ h :: post).filter fun n => !inSubtree h post n) =
      (front.filter fun n => !inSubtree h post n) ++
        back.filter fun n => !inSubtree h post n := by
    rw [hl, List.filter_append]
  refine ⟨_, applyBlockMove_family ht hl hblock hat, ?_, ?_⟩
  · have hid : h.id = h.id := rfl
    have htree := ht.blockMove hf hid rfl (front.filter fun n => !inSubtree h post n).length
    rw [hrest, List.take_left, List.drop_left] at htree
    apply htree
    by_cases hp : h.parentId = []
    · exact Or.inl hp
    · -- the parent stands in front of the sibling, which shares it
      obtain ⟨m, hb, hid, hs⟩ := ht.parent h hf.head_mem hp
      refine Or.inr ⟨m, ?_, hid, hs⟩
      have hpm : inSubtree h post m = false :=
        hf.pre_false ht rfl m (hb.mem_of_split ht.nodup rfl)
      rw [List.mem_filter, hpm]
      refine ⟨?_, rfl⟩
      rcases hside with ⟨-, s, b, rfl, hpar, -⟩ | ⟨-, b, s, c, -, rfl, -⟩
      · have hsl : s ∈ (front ++ s :: b) ++ h :: post := by simp
        obtain ⟨m', hb', hid', -⟩ := ht.parent s hsl (by rw [hpar]; exact hp)
        obtain rfl : m' = m := ht.eq_of_id hb'.mem_left hb.mem_left (by rw [hid', hid, hpar])
        have hsplit : (front ++ s :: b) ++ h :: post = front ++ s :: (b ++ h :: post) := by simp
        exact hb'.mem_of_split ht.nodup hsplit
      · exact List.mem_append_left _ (hb.mem_of_split ht.nodup rfl)
  · have hperm := hf.perm ht
    refine List.Perm.trans ?_ hperm
    rw [List.append_assoc]
    refine (List.Perm.append_left _ List.perm_append_comm).trans ?_
    rw [← List.append_assoc, hrest]

end Axan.EntryTree
