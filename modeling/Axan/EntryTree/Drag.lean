import Axan.EntryTree.Moves

/-!
# The fix-up after a drag

* `closeLoop_ok` — the closure by id ends on every list, closed under children and holding only
  the head and children of its members.
* `rowDepth`, `exists_parent_row` — the depth of a row under its parent.
* `ancestorWalk_ok` — the walk up from the anchor ends at the depth it looks for, and a row it
  climbs to is no separator.
* `dragScan_eq` — the pass over the dropped list.
* `normalizeAfterDrag_spec`, `normalizeAfterDrag_apply` — the fix-up of any drop of a row of a
  well-formed list, and the rows it leaves; with it `Tree.normalizeAfterDrag`: the invariant holds
  again.
-/

namespace Axan.EntryTree

open Axan.Base Axan.Base.Forest

/-! ## The closure by id -/

/-- The ids a round starts from stay. -/
theorem subset_closeRound (l : Nodes) (s : List WString) (g : Bool) :
    s ⊆ (closeRound l s g).1 := by
  induction l generalizing s g with
  | nil => exact List.Subset.refl _
  | cons n l ih =>
      rw [closeRound]
      split_ifs
      · exact List.Subset.trans (List.subset_append_left _ _) (ih _ _)
      · exact ih _ _

/-- A round never forgets that an earlier one grew. -/
theorem closeRound_grew (l : Nodes) (s : List WString) : (closeRound l s true).2 = true := by
  induction l generalizing s with
  | nil => rfl
  | cons n l ih =>
      rw [closeRound]
      split_ifs
      · exact ih _
      · exact ih _

/-- A round that adds nothing found the ids closed under children. -/
theorem closeRound_false {l : Nodes} {s : List WString} (h : (closeRound l s false).2 = false) :
    (closeRound l s false).1 = s ∧
      ∀ n ∈ l, n.parentId ≠ [] → n.parentId ∈ s → n.id ∈ s := by
  induction l with
  | nil => exact ⟨rfl, by simp⟩
  | cons n l ih =>
      rw [closeRound] at h ⊢
      split_ifs at h ⊢ with hc
      · rw [closeRound_grew] at h
        cases h
      · refine ⟨(ih h).1, fun m hm hp hs => ?_⟩
        rcases List.mem_cons.mp hm with rfl | hm
        · by_contra hid
          exact hc (by simp [hp, hs, hid])
        · exact (ih h).2 m hm hp hs

/-- A round that grows adds the id of a row. -/
theorem closeRound_true {l : Nodes} {s : List WString} (h : (closeRound l s false).2 = true) :
    ∃ n ∈ l, n.id ∉ s ∧ n.id ∈ (closeRound l s false).1 := by
  induction l with
  | nil => cases h
  | cons n l ih =>
      rw [closeRound] at h ⊢
      split_ifs at h ⊢ with hc
      · simp only [Bool.and_eq_true, Bool.not_eq_true', List.contains_eq_mem,
          decide_eq_false_iff_not] at hc
        exact ⟨n, List.mem_cons_self, hc.2,
          subset_closeRound _ _ _ (List.mem_append_right _ List.mem_cons_self)⟩
      · obtain ⟨m, hm, h₁, h₂⟩ := ih h
        exact ⟨m, List.mem_cons_of_mem _ hm, h₁, h₂⟩

/-- An id a round leaves was there, or is that of a row whose parent is there. -/
theorem closeRound_origin {l : Nodes} {s : List WString} {g : Bool} {x : WString}
    (hx : x ∈ (closeRound l s g).1) :
    x ∈ s ∨ ∃ n ∈ l, n.id = x ∧ n.parentId ≠ [] ∧ n.parentId ∈ (closeRound l s g).1 := by
  induction l generalizing s g with
  | nil => exact Or.inl hx
  | cons n l ih =>
      rw [closeRound] at hx ⊢
      split_ifs at hx ⊢ with hc
      · simp only [Bool.and_eq_true, Bool.not_eq_true', List.isEmpty_eq_false_iff,
          List.contains_eq_mem, decide_eq_true_eq, decide_eq_false_iff_not] at hc
        rcases ih hx with hx | ⟨m, hm, h⟩
        · rcases List.mem_append.mp hx with hx | hx
          · exact Or.inl hx
          · refine Or.inr ⟨n, List.mem_cons_self, (List.mem_singleton.mp hx).symm, hc.1.1, ?_⟩
            exact subset_closeRound _ _ _ (List.mem_append_left _ hc.1.2)
        · exact Or.inr ⟨m, List.mem_cons_of_mem _ hm, h⟩
      · rcases ih hx with hx | ⟨m, hm, h⟩
        · exact Or.inl hx
        · exact Or.inr ⟨m, List.mem_cons_of_mem _ hm, h⟩

/-- **The closure loop ends**, within as many rounds as there are ids to add, and leaves the
least set it could: closed under children, with a reason for each id. -/
theorem closeLoop_ok {l : Nodes} {fuel : ℕ} {s : List WString}
    (hfuel : (l.filter fun n => n.id ∉ s).length < fuel) :
    ∃ s', closeLoop l fuel s = .ok s' ∧ s ⊆ s' ∧
      (∀ n ∈ l, n.parentId ≠ [] → n.parentId ∈ s' → n.id ∈ s') ∧
      ∀ x ∈ s', x ∈ s ∨ ∃ n ∈ l, n.id = x ∧ n.parentId ≠ [] ∧ n.parentId ∈ s' := by
  induction fuel generalizing s with
  | zero => omega
  | succ fuel ih =>
      rw [closeLoop]
      cases hr : closeRound l s false with
      | mk s₁ grew =>
          have h₁ : (closeRound l s false).1 = s₁ := by rw [hr]
          have h₂ : (closeRound l s false).2 = grew := by rw [hr]
          cases grew with
          | false =>
              obtain ⟨hs, hclosed⟩ := closeRound_false h₂
              rw [h₁] at hs
              subst hs
              exact ⟨s₁, rfl, List.Subset.refl _, hclosed, fun x hx => Or.inl hx⟩
          | true =>
              have hsub : s ⊆ s₁ := h₁ ▸ subset_closeRound l s false
              obtain ⟨n, hn, hnot, hin⟩ := closeRound_true h₂
              rw [h₁] at hin
              -- one id fewer to add
              have hlt : (l.filter fun n => n.id ∉ s₁).length <
                  (l.filter fun n => n.id ∉ s).length := by
                have heq : (l.filter fun n => n.id ∉ s₁) =
                    (l.filter fun n => n.id ∉ s).filter fun n => n.id ∉ s₁ := by
                  rw [List.filter_filter]
                  refine List.filter_congr fun m _ => ?_
                  by_cases hm : m.id ∈ s₁
                  · simp [hm]
                  · have : m.id ∉ s := fun h => hm (hsub h)
                    simp [hm, this]
                rw [heq]
                refine List.length_filter_lt_length_iff_exists.mpr ⟨n, ?_, by simpa using hin⟩
                simp [hn, hnot]
              obtain ⟨s', hok, hs', hclosed, horigin⟩ := ih (s := s₁) (by omega)
              refine ⟨s', hok, List.Subset.trans hsub hs', hclosed, fun x hx => ?_⟩
              rcases horigin x hx with hx | h
              · rcases closeRound_origin (h₁ ▸ hx : x ∈ (closeRound l s false).1) with hx | h
                · exact Or.inl hx
                · obtain ⟨m, hm, he, hp, hpm⟩ := h
                  exact Or.inr ⟨m, hm, he, hp, hs' (h₁ ▸ hpm)⟩
              · exact Or.inr h

/-! ## Depths -/

/-- The depths `Depths` has recorded behind a list. -/
def depthTable (byId : List (WString × ℕ)) : Nodes → List (WString × ℕ)
  | [] => byId
  | n :: rest => depthTable ((n.id, depthIn byId n) :: byId) rest

/-- The depths behind some rows depend on the table of these. -/
theorem depthsFrom_append (byId : List (WString × ℕ)) (a b : Nodes) :
    depthsFrom byId (a ++ b) = depthsFrom byId a ++ depthsFrom (depthTable byId a) b := by
  induction a generalizing byId with
  | nil => rfl
  | cons n a ih => rw [List.cons_append, depthsFrom, ih, depthsFrom, depthTable, List.cons_append]

/-- The table of two parts. -/
theorem depthTable_append (byId : List (WString × ℕ)) (a b : Nodes) :
    depthTable byId (a ++ b) = depthTable (depthTable byId a) b := by
  induction a generalizing byId with
  | nil => rfl
  | cons n a ih => exact ih _

/-- Every row has a depth. -/
theorem length_depthsFrom (byId : List (WString × ℕ)) (l : Nodes) :
    (depthsFrom byId l).length = l.length := by
  induction l generalizing byId with
  | nil => rfl
  | cons n l ih => rw [depthsFrom, List.length_cons, ih, List.length_cons]

/-- Rows with other ids do not change the depth of an id. -/
theorem lookup_depthTable {byId : List (WString × ℕ)} {l : Nodes} {id : WString}
    (h : ∀ n ∈ l, n.id ≠ id) : (depthTable byId l).lookup id = byId.lookup id := by
  induction l generalizing byId with
  | nil => rfl
  | cons n l ih =>
      rw [depthTable, ih fun m hm => h m (List.mem_cons_of_mem _ hm), List.lookup_cons,
        beq_false_of_ne (h n List.mem_cons_self).symm]

/-- The depth of the row `n` behind the rows `pre`. -/
def rowDepth (pre : Nodes) (n : Node) : ℕ := depthIn (depthTable [] pre) n

/-- The depth of a row depends on the rows in front of it. -/
theorem depths_getElem? (pre post : Nodes) (n : Node) :
    (depths (pre ++ n :: post))[pre.length]? = some (rowDepth pre n) := by
  have hlen : (depthsFrom [] pre).length = pre.length := length_depthsFrom [] pre
  rw [depths, depthsFrom_append, List.getElem?_append_right (by omega), hlen, Nat.sub_self]
  rfl

/-- A row with a parent is one level below it, an earlier session. -/
theorem rowDepth_of_ne {pre post : Nodes} {n : Node} (ht : Tree (pre ++ n :: post))
    (hp : n.parentId ≠ []) : ∃ a m b, pre = a ++ m :: b ∧ m.id = n.parentId ∧
      m.separator = false ∧ rowDepth pre n = rowDepth a m + 1 := by
  obtain ⟨m, hb, hid, hs⟩ := ht.parent n (by simp) hp
  obtain ⟨a, b, hab⟩ := List.append_of_mem (hb.mem_of_split ht.nodup rfl)
  refine ⟨a, m, b, hab, hid, hs, ?_⟩
  have hd := ht.distinct
  have hne : ∀ q ∈ b, q.id ≠ m.id := by
    intro q hq he
    rw [hab] at hd
    simp only [List.map_append, List.map_cons, List.append_assoc, List.cons_append] at hd
    have hcons := (List.nodup_append.mp hd).2.1
    refine (List.nodup_cons.mp hcons).1 (List.mem_append_left _ ?_)
    exact he ▸ List.mem_map_of_mem hq
  have hlook : (depthTable [] pre).lookup n.parentId = some (rowDepth a m) := by
    rw [← hid, hab, depthTable_append, depthTable, lookup_depthTable hne, List.lookup_cons,
      beq_self_eq_true]
    rfl
  unfold rowDepth depthIn
  rw [if_neg (by simpa using hp), hlook]
  rfl

/-- A root has depth zero. -/
theorem rowDepth_of_root {n : Node} (hp : n.parentId = []) (pre : Nodes) : rowDepth pre n = 0 := by
  rw [rowDepth, depthIn, if_pos (by rw [hp]; rfl)]

/-- A row below the root level is one level below its parent, an earlier session. -/
theorem exists_parent_row {pre post : Nodes} {n : Node} (ht : Tree (pre ++ n :: post))
    (hd : 0 < rowDepth pre n) : ∃ a m b, pre = a ++ m :: b ∧ m.id = n.parentId ∧
      m.separator = false ∧ rowDepth pre n = rowDepth a m + 1 := by
  apply rowDepth_of_ne ht
  intro hp
  rw [rowDepth_of_root hp] at hd
  exact absurd hd (Nat.lt_irrefl 0)

/-! ## The walk to the new parent -/

/-- A row is found at its index. -/
theorem findIdx?_id {a b : Nodes} {m : Node} (ht : Tree (a ++ m :: b)) {id : WString}
    (hid : m.id = id) : (a ++ m :: b).findIdx? (fun q => q.id = id) = some a.length := by
  refine List.findIdx?_eq_some_iff_getElem.mpr ⟨by simp, by simp [hid], fun j hj => ?_⟩
  have hlt : j < (a ++ m :: b).length := by
    rw [List.length_append]
    omega
  have hmem : (a ++ m :: b)[j] ∈ a := by
    rw [List.getElem_append_left hj]
    exact List.getElem_mem hj
  have hd := ht.distinct
  rw [List.map_append, List.nodup_append] at hd
  have hne := hd.2.2 _ (List.mem_map_of_mem hmem) m.id (by simp)
  simpa [hid] using hne

/-- **The walk ends** at a row of the depth it looks for, the row it starts from or one above it; a
row it climbs to is a session. -/
theorem ancestorWalk_ok {l : Nodes} (ht : Tree l) {target fuel : ℕ} {pre post : Nodes} {n : Node}
    (hl : l = pre ++ n :: post) (hd : target ≤ rowDepth pre n) (hfuel : pre.length < fuel) :
    ∃ a m b, ancestorWalk l (depths l) target fuel pre.length = .ok a.length ∧
      l = a ++ m :: b ∧ rowDepth a m = target ∧
      (a = pre ∧ m = n ∨ a.length < pre.length ∧ m.separator = false) ∧
      Below (lines l) n.id m.id := by
  induction fuel generalizing pre n post with
  | zero => omega
  | succ fuel ih =>
      have h₁ : l[pre.length]? = some n := by rw [hl]; simp
      have h₂ : (depths l)[pre.length]? = some (rowDepth pre n) := by
        rw [hl]
        exact depths_getElem? pre post n
      rw [ancestorWalk, h₁, h₂]
      by_cases hgt : rowDepth pre n > target
      · obtain ⟨a, m, b, hab, hid, hs, hdepth⟩ := exists_parent_row (hl ▸ ht) (by omega)
        have hl' : l = a ++ m :: (b ++ n :: post) := by rw [hl, hab]; simp
        have hlen : a.length < pre.length := by
          rw [hab]
          simp
        have hfind : l.findIdx? (fun q => q.id = n.parentId) = some a.length := by
          rw [hl']
          exact findIdx?_id (hl' ▸ ht) hid
        obtain ⟨a', m', b', hok, hl'', hd', hor, hbelow⟩ := ih hl' (by omega) (by omega)
        refine ⟨a', m', b', ?_, hl'', hd', Or.inr ?_, ?_⟩
        · simp only [if_pos hgt, hfind]
          exact hok
        · rcases hor with ⟨rfl, rfl⟩ | ⟨hlt, hs'⟩
          · exact ⟨hlen, hs⟩
          · exact ⟨hlt.trans hlen, hs'⟩
        · have hmem : m ∈ l := by rw [hl']; simp
          have hstep := hangsAt_lines (l := l) (n := n) (by rw [hl]; simp)
            (hid ▸ ht.id_ne m hmem)
          rw [← hid] at hstep
          exact hbelow.head hstep
      · refine ⟨pre, n, post, ?_, hl, by omega, Or.inl ⟨rfl, rfl⟩, Relation.ReflTransGen.refl⟩
        simp only [if_neg hgt]

/-! ## The pass over the dropped list -/

/-- Is the row's id among the collected ones? -/
def inIds (ids : List WString) (n : Node) : Bool := ids.contains n.id

/-- **The closure by id selects the family of a row**, in whatever order the rows are. -/
theorem family_closure {l after : Nodes} (ht : Tree l) {h : Node} (hh : h ∈ l)
    (hmem : ∀ n, n ∈ after ↔ n ∈ l) :
    ∃ ids, closeLoop after (after.length + 1) [h.id] = .ok ids ∧ Family l h (inIds ids) ∧
      ∀ x ∈ ids, ∃ n ∈ l, n.id = x := by
  obtain ⟨ids, hloop, hsub, hclosed, horigin⟩ :
      ∃ s', closeLoop after (after.length + 1) [h.id] = .ok s' ∧ _ :=
    closeLoop_ok (lt_of_le_of_lt (List.length_filter_le _ _) (Nat.lt_succ_self _))
  refine ⟨ids, hloop, ⟨hh, ?_, fun m hm n hn hpm hid => ?_, fun n hn hpn => ?_⟩, fun x hx => ?_⟩
  · have hhead : h.id ∈ ids := hsub List.mem_cons_self
    simpa [inIds] using hhead
  · have hpm' : n.parentId ∈ ids := by
      rw [hid]
      simpa [inIds] using hpm
    have hne : n.parentId ≠ [] := by
      rw [hid]
      exact ht.id_ne m hm
    simpa [inIds] using hclosed n ((hmem n).mpr hn) hne hpm'
  · have hn' : n.id ∈ ids := by simpa [inIds] using hpn
    rcases horigin n.id hn' with h' | ⟨q, hq, hid, hp, hpq⟩
    · exact Or.inl (ht.eq_of_id hn hh (List.mem_singleton.mp h'))
    · obtain rfl : q = n := ht.eq_of_id ((hmem q).mp hq) hn hid
      obtain ⟨m, hb, hmid, -⟩ := ht.parent q hn hp
      refine Or.inr ⟨m, hb.mem_left, ?_, hmid.symm⟩
      rw [← hmid] at hpq
      simpa [inIds] using hpq
  · rcases horigin x hx with h' | ⟨n, hn, hid, -⟩
    · exact ⟨h, hh, (List.mem_singleton.mp h').symm⟩
    · exact ⟨n, (hmem n).mp hn, hid⟩

/-- The rows in front of the head. -/
theorem dragScan_front {ids : List WString} {hi i : ℕ} (a more : Nodes) (s : DragScan)
    (h : i + a.length ≤ hi) : dragScan ids hi i (a ++ more) s =
      dragScan ids hi (i + a.length) more
        { block := s.block ++ maskIdx i (a.map (inIds ids))
          rest := s.rest ++ a.filter fun n => !inIds ids n
          anchor :=
            if (a.filter fun n => !inIds ids n) = [] then s.anchor
            else some (s.rest.length + (a.filter fun n => !inIds ids n).length - 1) } := by
  induction a generalizing i s with
  | nil => simp [maskIdx]
  | cons n a ih =>
      rw [List.length_cons] at h
      have hlen : i + (a.length + 1) = i + 1 + a.length := by omega
      rw [List.cons_append, dragScan, List.length_cons, hlen]
      by_cases hn : ids.contains n.id = true
      · have hin : inIds ids n = true := hn
        rw [if_pos hn, if_pos (by omega), ih _ (by omega)]
        simp [hin, maskIdx]
      · have hin : inIds ids n = false := by simpa [inIds] using hn
        rw [if_neg hn, ih _ (by omega)]
        have hlt : i < hi := by omega
        by_cases ha : (a.filter fun n => !inIds ids n) = []
        · simp [hin, maskIdx, ha, hlt]
        · simp only [List.map_cons, hin, maskIdx, Bool.false_eq_true, if_false, List.append_assoc,
            List.singleton_append, List.filter_cons, Bool.not_false, if_true, List.length_append,
            List.length_cons, List.length_nil, ha, reduceCtorEq]
          congr 3
          omega

/-- The rows behind the head. -/
theorem dragScan_back {ids : List WString} {hi i : ℕ} (b : Nodes) (s : DragScan) (h : hi < i) :
    dragScan ids hi i b s =
      { block := s.block ++ maskIdx i (b.map (inIds ids))
        rest := s.rest ++ b.filter fun n => !inIds ids n
        anchor := s.anchor } := by
  induction b generalizing i s with
  | nil => simp [dragScan, maskIdx]
  | cons n b ih =>
      rw [dragScan]
      by_cases hn : ids.contains n.id = true
      · have hin : inIds ids n = true := hn
        rw [if_pos hn, if_pos (by omega), ih _ (by omega)]
        simp [hin, maskIdx]
      · have hin : inIds ids n = false := by simpa [inIds] using hn
        have hge : ¬i < hi := by omega
        rw [if_neg hn, ih _ (by omega)]
        simp [hin, maskIdx, hge]

/-- The last of the rows in front of the head. -/
def anchorOf (front : Nodes) : Option ℕ := if front = [] then none else some (front.length - 1)

/-- **What the pass collects** around the head. -/
theorem dragScan_eq {ids : List WString} {h : Node} (hh : inIds ids h = true) (a b : Nodes) :
    dragScan ids a.length 0 (a ++ h :: b) ⟨[a.length], [], none⟩ =
      { block := a.length ::
          (maskIdx 0 (a.map (inIds ids)) ++ maskIdx (a.length + 1) (b.map (inIds ids)))
        rest := (a.filter fun n => !inIds ids n) ++ b.filter fun n => !inIds ids n
        anchor := anchorOf (a.filter fun n => !inIds ids n) } := by
  have hc : ids.contains h.id = true := hh
  rw [dragScan_front a (h :: b) _ (by omega), dragScan, if_pos hc, if_neg (by omega),
    dragScan_back b _ (by omega), anchorOf]
  simp

/-! ## The landing depth -/

/-- The head lands at most one level below the anchor, and there only below a session. -/
theorem landingDepth_le (a b : Nodes) (r : Node) (k oldDepth : ℕ) :
    landingDepth (a ++ r :: b) (some a.length) k oldDepth ≤ rowDepth a r + 1 ∧
      (landingDepth (a ++ r :: b) (some a.length) k oldDepth = rowDepth a r + 1 →
        r.separator = false) := by
  have hdepth : (depths (a ++ r :: b)).getD a.length 0 = rowDepth a r := by
    rw [List.getD_eq_getElem?_getD, depths_getElem?]
    rfl
  have hget : (a ++ r :: b)[a.length]? = some r := by simp
  unfold landingDepth
  simp only [hdepth, hget, Option.map_some, Option.getD_some]
  generalize (if k < (a ++ r :: b).length then (depths (a ++ r :: b)).getD k 0 else 0) = below
  split_ifs with hc
  · exact ⟨Nat.le_succ _, fun h => absurd h (by omega)⟩
  · refine ⟨by omega, fun h => ?_⟩
    by_contra hs
    rw [Bool.not_eq_false] at hs
    exact hc (by simp [h, hs])

/-- In front of all rows a row is a root. -/
theorem landingDepth_none (rest : Nodes) (k oldDepth : ℕ) :
    landingDepth rest none k oldDepth = 0 := by
  simp [landingDepth]

/-! ## The fix-up -/

/-- The parent a head takes at a depth behind the rows `front`: none at the top, else the last of
them or a row above it, a session one level up. -/
def NewParent (front back : Nodes) (newDepth : ℕ) (parent : WString) : Prop :=
  newDepth = 0 ∧ parent = [] ∨
    ∃ init r a m b, front = init ++ [r] ∧ front ++ back = a ++ m :: b ∧ m ∈ front ∧
      m.id = parent ∧ m.separator = false ∧ rowDepth a m + 1 = newDepth ∧
      Below (lines (front ++ back)) r.id m.id

/-- The new parent is none, or a session in front. -/
theorem NewParent.cases {front back : Nodes} {newDepth : ℕ} {parent : WString}
    (h : NewParent front back newDepth parent) :
    parent = [] ∨ ∃ m ∈ front, m.id = parent ∧ m.separator = false := by
  rcases h with ⟨-, hroot⟩ | ⟨-, -, -, m, -, -, -, hm, hid, hs, -⟩
  · exact Or.inl hroot
  · exact Or.inr ⟨m, hm, hid, hs⟩

/-- The head goes behind the rows `front` outside the family, under none or one of them. -/
theorem dragFixup_spec {block : List ℕ} {front back : Nodes} (ht : Tree (front ++ back))
    (oldDepth : ℕ) :
    ∃ fix, dragFixup ⟨block, front ++ back, anchorOf front⟩ oldDepth = .ok fix ∧
      fix.move.block = block ∧ fix.move.insertAt = front.length ∧
      NewParent front back
        (landingDepth (front ++ back) (anchorOf front) front.length oldDepth) fix.headParentId := by
  rcases List.eq_nil_or_concat front with rfl | ⟨init, r, rfl⟩
  · -- dropped in front of everything else: a root
    refine ⟨⟨⟨block, 0⟩, []⟩, ?_, rfl, rfl, Or.inl ⟨landingDepth_none _ _ _, rfl⟩⟩
    rw [anchorOf, if_pos rfl, dragFixup]
    simp only [landingDepth_none]
    rfl
  · -- behind the anchor `r`
    rw [List.concat_eq_append] at ht ⊢
    have hassoc : init ++ [r] ++ back = init ++ r :: back := by simp
    have hlast : (init ++ [r]).length - 1 = init.length := by simp
    have hlen : (init ++ [r]).length = init.length + 1 := by simp
    have hanchor : anchorOf (init ++ [r]) = some init.length := by
      rw [anchorOf, if_neg (by simp), hlast]
    unfold NewParent
    rw [hanchor, hlen, hassoc]
    rw [hassoc] at ht
    rw [dragFixup]
    simp only [Option.map_some, Option.getD_some]
    obtain ⟨hle, hsession⟩ := landingDepth_le init back r (init.length + 1) oldDepth
    set newDepth := landingDepth (init ++ r :: back) (some init.length) (init.length + 1) oldDepth
    by_cases hpos : newDepth > 0
    · have hfuel : init.length < (init ++ r :: back).length + 1 := by
        rw [List.length_append]
        omega
      have htarget : newDepth - 1 ≤ rowDepth init r := by omega
      obtain ⟨a, m, b, hwalk, hl, hdm, hor, hbelow⟩ := ancestorWalk_ok ht rfl htarget hfuel
      have hget : (init ++ r :: back)[a.length]? = some m := by
        rw [hl]
        simp
      have hmem : m ∈ init ++ [r] := by
        rcases hor with ⟨-, rfl⟩ | ⟨hlt, -⟩
        · simp
        · have hm : (init ++ r :: back)[a.length]? = init[a.length]? :=
            List.getElem?_append_left hlt
          rw [hget] at hm
          exact List.mem_append_left _ (List.mem_of_getElem? hm.symm)
      have hsep : m.separator = false := by
        rcases hor with ⟨rfl, rfl⟩ | ⟨-, hs⟩
        · exact hsession (by omega)
        · exact hs
      refine ⟨⟨⟨block, init.length + 1⟩, m.id⟩, ?_, rfl, rfl, Or.inr ?_⟩
      · simp only [if_pos hpos, hwalk, hget]
      · exact ⟨init, r, a, m, b, rfl, hl, hmem, rfl, hsep, by omega, hbelow⟩
    · refine ⟨⟨⟨block, init.length + 1⟩, []⟩, ?_, rfl, rfl, Or.inl ⟨by omega, rfl⟩⟩
      simp only [if_neg hpos]

/-- **The fix-up after any drop of a row of a well-formed list**: it returns; the block is the
family of the head, head first; it goes behind the rows outside the family that stood in front of
the drop; and the head's parent is found from the last of those. -/
theorem normalizeAfterDrag_spec {x y a b : Nodes} {h : Node} (ht : Tree (x ++ h :: y))
    (hab : a ++ b = x ++ y) (oldDepth : ℕ) :
    ∃ fix ids, normalizeAfterDrag (a ++ h :: b) a.length oldDepth = .ok (some fix) ∧
      Family (x ++ h :: y) h (inIds ids) ∧
      (a.filter fun n => !inIds ids n) ++ (b.filter fun n => !inIds ids n) =
        (x ++ h :: y).filter (fun n => !inIds ids n) ∧
      fix.move.block = a.length ::
        (maskIdx 0 (a.map (inIds ids)) ++ maskIdx (a.length + 1) (b.map (inIds ids))) ∧
      fix.move.insertAt = (a.filter fun n => !inIds ids n).length ∧
      NewParent (a.filter fun n => !inIds ids n) (b.filter fun n => !inIds ids n)
        (landingDepth ((x ++ h :: y).filter fun n => !inIds ids n)
          (anchorOf (a.filter fun n => !inIds ids n)) (a.filter fun n => !inIds ids n).length
          oldDepth) fix.headParentId := by
  have hmem : ∀ n, n ∈ a ++ h :: b ↔ n ∈ x ++ h :: y := by
    intro n
    have : n ∈ a ++ b ↔ n ∈ x ++ y := by rw [hab]
    simp only [List.mem_append, List.mem_cons] at this ⊢
    tauto
  obtain ⟨ids, hloop, hf, -⟩ := family_closure ht (h := h) (by simp) hmem
  have hh := hf.head
  have hget : (a ++ h :: b)[a.length]? = some h := by simp
  -- the rows outside the family, a tree of their own
  have hrest : (a.filter fun n => !inIds ids n) ++ (b.filter fun n => !inIds ids n) =
      (x ++ h :: y).filter fun n => !inIds ids n := by
    rw [← List.filter_append, hab, List.filter_append, List.filter_append,
      List.filter_cons_of_neg (by simp [hh])]
  have htr : Tree ((a.filter fun n => !inIds ids n) ++ b.filter fun n => !inIds ids n) :=
    hrest ▸ hf.tree_rest ht
  obtain ⟨fix, hfix, hblock, hat, hpar⟩ := dragFixup_spec htr oldDepth
  refine ⟨fix, ids, ?_, hf, hrest, hblock, hat, hrest ▸ hpar⟩
  unfold normalizeAfterDrag
  rw [hget]
  simp only [hloop, dragScan_eq hh, hfix]
  rfl

/-- A row with another parent. -/
def Node.withParent (n : Node) (parentId : WString) : Node := { n with parentId := parentId }

/-- **The fix-up of a drop, applied**: the family of the head, head first and under its new parent,
stands between the rows outside it that were in front of the drop and those behind. -/
theorem normalizeAfterDrag_apply {x y a b : Nodes} {h : Node} (ht : Tree (x ++ h :: y))
    (hab : a ++ b = x ++ y) (oldDepth : ℕ) :
    ∃ fix p, normalizeAfterDrag (a ++ h :: b) a.length oldDepth = .ok (some fix) ∧
      Family (x ++ h :: y) h p ∧
      (a.filter fun n => !p n) ++ (b.filter fun n => !p n) = (x ++ h :: y).filter (fun n => !p n) ∧
      applyBlockMove fix.move (a ++ h.withParent fix.headParentId :: b) =
        .ok ((a.filter fun n => !p n) ++
          (h.withParent fix.headParentId :: (x ++ h :: y).filter fun n => p n && n ≠ h) ++
          b.filter fun n => !p n) ∧
      NewParent (a.filter fun n => !p n) (b.filter fun n => !p n)
        (landingDepth ((x ++ h :: y).filter fun n => !p n) (anchorOf (a.filter fun n => !p n))
          (a.filter fun n => !p n).length oldDepth) fix.headParentId := by
  obtain ⟨fix, ids, hok, hf, hrest, hblock, hat, hpar⟩ := normalizeAfterDrag_spec ht hab oldDepth
  refine ⟨fix, inIds ids, hok, hf, hrest, ?_, hpar⟩
  set h' := h.withParent fix.headParentId with hh'
  have hph : inIds ids h' = true := hf.head
  have hsplit : ((a ++ h' :: b).filter fun n => !inIds ids n) =
      (a.filter fun n => !inIds ids n) ++ b.filter fun n => !inIds ids n := by
    rw [List.filter_append, List.filter_cons_of_neg (by simp [hph])]
  have hnot : ∀ n ∈ a ++ b, n ≠ h := by
    rintro n hn rfl
    rw [hab] at hn
    exact (List.nodup_cons.mp (List.nodup_middle.mp ht.nodup)).1 hn
  have hbelow : (a.filter (inIds ids)) ++ b.filter (inIds ids) =
      (x ++ h :: y).filter fun n => inIds ids n && n ≠ h := by
    have hxy : (x ++ h :: y).filter (fun n => inIds ids n && n ≠ h) =
        (x ++ y).filter fun n => inIds ids n && n ≠ h := by
      rw [List.filter_append, List.filter_cons_of_neg (by simp), ← List.filter_append]
    rw [hxy, ← hab, ← List.filter_append]
    exact List.filter_congr fun n hn => by simp [hnot n hn]
  have hpick : pick fix.move.block (a ++ h' :: b) =
      some (h' :: (x ++ h :: y).filter fun n => inIds ids n && n ≠ h) := by
    have h₁ : pick [a.length] (a ++ h' :: b) = some [h'] := by simp [pick]
    have h₂ : pick (maskIdx 0 (a.map (inIds ids))) (a ++ h' :: b) =
        some (a.filter (inIds ids)) := pick_maskIdx (inIds ids) [] a (h' :: b)
    have h₃ : pick (maskIdx (a.length + 1) (b.map (inIds ids))) (a ++ h' :: b) =
        some (b.filter (inIds ids)) := by
      have := pick_maskIdx (inIds ids) (a ++ [h']) b []
      rwa [List.length_append, List.append_nil, List.append_assoc] at this
    rw [hblock, ← hbelow]
    exact pick_append h₁ (pick_append h₂ h₃)
  have hperm : fix.move.block.Perm (maskIdx 0 ((a ++ h' :: b).map (inIds ids))) := by
    rw [hblock, List.map_append, List.map_cons, hph, maskIdx_append, maskIdx, if_pos rfl,
      List.length_map, Nat.zero_add]
    exact List.perm_middle.symm
  have hle : fix.move.insertAt ≤ ((a ++ h' :: b).filter fun n => !inIds ids n).length := by
    rw [hat, hsplit, List.length_append]
    omega
  have hmove := applyBlockMove_eq (inIds ids) hperm hpick hle
  rwa [hsplit, hat, List.take_left, List.drop_left] at hmove

/-- The fix-up of a drop, applied: it succeeds, the invariant holds again, and the rows are those
of the list with the head under its new parent. -/
theorem Tree.normalizeAfterDrag {x y a b : Nodes} {h : Node} (ht : Tree (x ++ h :: y))
    (hab : a ++ b = x ++ y) (oldDepth : ℕ) :
    ∃ fix l', EntryTree.normalizeAfterDrag (a ++ h :: b) a.length oldDepth = .ok (some fix) ∧
      applyBlockMove fix.move (a ++ h.withParent fix.headParentId :: b) = .ok l' ∧ Tree l' ∧
      l'.Perm (x ++ h.withParent fix.headParentId :: y) := by
  obtain ⟨fix, p, hok, hf, hrest, hmove, hpar⟩ := normalizeAfterDrag_apply ht hab oldDepth
  refine ⟨fix, _, hok, hmove, ?_, ?_⟩
  · have hid : (h.withParent fix.headParentId).id = h.id := rfl
    have htree := ht.blockMove hf hid rfl (a.filter fun n => !p n).length
    rw [← hrest, List.take_left, List.drop_left] at htree
    exact htree hpar.cases
  · -- the same rows, the head exchanged
    rw [List.append_assoc]
    refine (List.Perm.append_left _ List.perm_append_comm).trans ?_
    rw [← List.append_assoc, hrest]
    have hrows := hf.perm ht
    have h₁ : ((x ++ h :: y).filter (fun n => !p n) ++
        (x ++ h :: y).filter fun n => p n && n ≠ h).Perm (x ++ y) :=
      List.Perm.cons_inv ((List.perm_middle.symm.trans hrows).trans List.perm_middle)
    exact List.perm_middle.trans ((h₁.cons _).trans List.perm_middle.symm)

end Axan.EntryTree
