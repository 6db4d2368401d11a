import Axan.EntryTree.Drag

/-!
# What one command of the toolbar changes

* `siblings`, `moveAmongSiblings_steps` — what a move does to the rows that share the moved row's
  parent: up is one step; down goes behind the whole subtree of the next sibling, and with it
  behind the siblings that stand inside that range.
* `leveled`, `indentScan_split` — the rows with their depths, and the row the search of an indent
  stops at.
* `indentParent_sibling_iff` — that row is a sibling exactly when no other branch comes between.
-/

namespace Axan.EntryTree

open Axan.Base Axan.Base.Forest

/-! ### Moves -/

/-- The rows with the parent of `h`, in list order. -/
def siblings (h : Node) (l : Nodes) : Nodes := l.filter fun n => n.parentId = h.parentId

/-- Two neighbours change places, and nothing else. -/
def Exchanged (a b : Node) (k k' : Nodes) : Prop :=
  ∃ A B, k = A ++ a :: b :: B ∧ k' = A ++ b :: a :: B

section siblings

variable {pre post k a b : Nodes} {h s : Node}

/-- The siblings in two parts. -/
theorem siblings_append : siblings h (a ++ b) = siblings h a ++ siblings h b :=
  List.filter_append ..

theorem siblings_cons (hs : s.parentId = h.parentId) : siblings h (s :: k) = s :: siblings h k :=
  List.filter_cons_of_pos (by simpa using hs)

/-- The siblings have the parent of the row. -/
theorem mem_siblings {q : Node} : q ∈ siblings h k ↔ q ∈ k ∧ q.parentId = h.parentId := by
  simp [siblings]

/-- There is none when no row has that parent. -/
theorem siblings_eq_nil : siblings h k = [] ↔ ∀ q ∈ k, q.parentId ≠ h.parentId := by
  simp [siblings]

/-- Lifting the family of a row takes none of its siblings along. -/
theorem siblings_outside (ht : Tree (pre ++ h :: post)) (hk : ∀ q ∈ k, q ∈ pre ++ post) :
    siblings h (k.filter fun n => !inSubtree h post n) = siblings h k := by
  rw [siblings, siblings, List.filter_filter]
  apply List.filter_congr
  intro q hq
  by_cases hpar : q.parentId = h.parentId
  · have hnd := List.nodup_cons.mp (List.nodup_middle.mp ht.nodup)
    have hne : q ≠ h := fun heq => hnd.1 (heq ▸ hk q hq)
    have hmem : q ∈ pre ++ h :: post := by
      have hq' := hk q hq
      simp only [List.mem_append, List.mem_cons] at hq' ⊢
      tauto
    simp [hpar, not_inSubtree_sibling ht hmem hne hpar]
  · simp [hpar]

/-- The siblings outside of the block of a row. -/
theorem siblings_lift (ht : Tree (pre ++ h :: post)) (ha : ∀ q ∈ a, q ∈ pre ++ post)
    (hb : ∀ q ∈ b, q ∈ pre ++ post) :
    siblings h ((a ++ h :: b).filter fun n => !inSubtree h post n) =
      siblings h a ++ siblings h b := by
  have hhead : inSubtree h post h = true := (family_subtree ht).head
  rw [List.filter_append, List.filter_cons_of_neg (by simp [hhead]), siblings_append,
    siblings_outside ht ha, siblings_outside ht hb]

/-- In the block of a row is no sibling of it. -/
theorem siblings_inside (ht : Tree (pre ++ h :: post)) :
    siblings h ((pre ++ h :: post).filter fun n => inSubtree h post n && n ≠ h) = [] := by
  rw [siblings_eq_nil]
  intro q hq hpar
  rw [List.mem_filter, Bool.and_eq_true, decide_eq_true_eq] at hq
  have hout := not_inSubtree_sibling ht hq.1 hq.2.2 hpar
  rw [hq.2.1] at hout
  cases hout

end siblings

/-- The siblings of a row that stand in front of the last row of its subtree. -/
theorem mem_range_iff {pre c d : Nodes} {s q : Node} (ht : Tree (pre ++ s :: (c ++ d)))
    (hq : q ∈ c ++ d) (hpar : q.parentId = s.parentId)
    (hlast : ∀ e ∈ (s :: c).getLast?, inSubtree s (c ++ d) e = true)
    (hd : ∀ e ∈ d, inSubtree s (c ++ d) e = false) :
    q ∈ c ↔ ∃ e, Below (lines (pre ++ s :: (c ++ d))) e.id s.id ∧
      Before (pre ++ s :: (c ++ d)) q e := by
  have hf := family_subtree ht
  have hnd := ht.nodup
  have hne : q ≠ s := by
    rintro rfl
    exact (List.nodup_cons.mp (List.nodup_append.mp hnd).2.1).1 hq
  constructor
  · intro hqc
    obtain ⟨f, e, hfe⟩ : ∃ f e, s :: c = f ++ [e] := by
      rcases List.eq_nil_or_concat' (s :: c) with hnil | h
      · cases hnil
      · exact h
    have he : inSubtree s (c ++ d) e = true := hlast e (by rw [hfe, List.getLast?_concat]; rfl)
    have hl : pre ++ s :: (c ++ d) = (pre ++ f) ++ (e :: d) := by
      rw [← List.cons_append, hfe]
      simp
    refine ⟨e, (hf.eq_true_iff ht (by rw [hl]; simp)).mp he, ?_⟩
    -- the last row is in the subtree, a sibling is not
    have hqf : q ∈ f := by
      have hmem : q ∈ f ++ [e] := hfe ▸ List.mem_cons_of_mem _ hqc
      rcases List.mem_append.mp hmem with hqf | hqe
      · exact hqf
      · have hout := not_inSubtree_sibling ht (by simp [hqc]) hne hpar
        rw [List.mem_singleton.mp hqe, he] at hout
        cases hout
    rw [hl]
    exact before_append (List.mem_append_right _ hqf) List.mem_cons_self
  · rintro ⟨e, hbelow, hbefore⟩
    by_contra hqc
    have hqd : q ∈ d := (List.mem_append.mp hq).resolve_left hqc
    have hed : e ∉ d := by
      intro hed
      have hout := hd e hed
      rw [(hf.eq_true_iff ht hbefore.mem_right).mpr hbelow] at hout
      cases hout
    have hcut : pre ++ s :: (c ++ d) = (pre ++ s :: c) ++ d := by simp
    have he : e ∈ pre ++ s :: c :=
      (List.mem_append.mp (hcut ▸ hbefore.mem_right)).resolve_right hed
    obtain ⟨X, Z, hXZ⟩ := List.append_of_mem he
    have hqX : q ∈ X := hbefore.mem_of_split hnd (by rw [hcut, hXZ, List.append_assoc]; rfl)
    rw [hcut, hXZ] at hnd
    exact (List.nodup_append.mp hnd).2.2 q (by simp [hqX]) q hqd rfl

section moves

variable {pre post : Nodes} {h : Node}

/-- Up is one step. -/
theorem siblings_moveUp (ht : Tree (pre ++ h :: post)) :
    (moveAmongSiblings (pre ++ h :: post) pre.length true = none ∧ siblings h pre = []) ∨
    ∃ move l' A s, moveAmongSiblings (pre ++ h :: post) pre.length true = some move ∧
      applyBlockMove move (pre ++ h :: post) = .ok l' ∧ siblings h pre = A ++ [s] ∧
      siblings h l' = A ++ h :: s :: siblings h post := by
  cases hm : moveAmongSiblings (pre ++ h :: post) pre.length true with
  | none =>
      refine Or.inl ⟨rfl, siblings_eq_nil.mpr fun q hq hpar => ?_⟩
      obtain ⟨a, s, b, rfl, hs, hb, -⟩ :=
        exists_last (p := fun n => n.parentId = h.parentId) hq hpar
      obtain ⟨move, hm', -⟩ := moveAmongSiblings_up ht hs hb
      rw [hm] at hm'
      cases hm'
  | some move =>
      obtain ⟨front, back, hl, hblock, hat, hside⟩ := moveAmongSiblings_cases ht hm
      rcases hside with ⟨-, s, b, rfl, hs, hb⟩ | ⟨hup, -⟩
      · obtain rfl : s :: b ++ h :: post = back := by
          rw [List.append_assoc] at hl
          exact List.append_cancel_left hl
        have hsb : siblings h (s :: b) = [s] := by
          rw [siblings_cons hs, siblings_eq_nil.mpr hb]
        have hfront : ∀ q ∈ front, q ∈ (front ++ s :: b) ++ post := fun q hq => by simp [hq]
        have hmid : ∀ q ∈ s :: b, q ∈ (front ++ s :: b) ++ post := fun q hq =>
          List.mem_append_left _ (List.mem_append_right _ hq)
        refine Or.inr ⟨move, _, siblings h front, s, rfl, applyBlockMove_family ht hl hblock hat,
          ?_, ?_⟩
        · rw [siblings_append, hsb]
        · rw [siblings_append, siblings_append, siblings_cons rfl, siblings_inside ht,
            siblings_outside ht hfront,
            siblings_lift ht hmid fun q hq => List.mem_append_right _ hq, hsb]
          simp
      · cases hup

/-- Down is a step over the next sibling and over the siblings inside its range. -/
theorem siblings_moveDown (ht : Tree (pre ++ h :: post)) :
    (moveAmongSiblings (pre ++ h :: post) pre.length false = none ∧ siblings h post = []) ∨
    ∃ move l' s M B, moveAmongSiblings (pre ++ h :: post) pre.length false = some move ∧
      applyBlockMove move (pre ++ h :: post) = .ok l' ∧ siblings h post = s :: (M ++ B) ∧
      siblings h l' = siblings h pre ++ s :: (M ++ h :: B) ∧
      ∀ q ∈ M ++ B, q ∈ M ↔ ∃ e, Below (lines (pre ++ h :: post)) e.id s.id ∧
        Before (pre ++ h :: post) q e := by
  cases hm : moveAmongSiblings (pre ++ h :: post) pre.length false with
  | none =>
      refine Or.inl ⟨rfl, siblings_eq_nil.mpr fun q hq hpar => ?_⟩
      obtain ⟨b, s, c', rfl, hs, hb⟩ := exists_first (p := fun n => n.parentId = h.parentId) hq hpar
      obtain ⟨c, d, rfl, hlast, hd⟩ := exists_family_end s c'
      obtain ⟨move, hm', -⟩ := moveAmongSiblings_down ht hs hb hlast hd
      rw [hm] at hm'
      cases hm'
  | some move =>
      obtain ⟨front, back, hl, hblock, hat, hside⟩ := moveAmongSiblings_cases ht hm
      rcases hside with ⟨hup, -⟩ | ⟨-, b, s, c, rfl, rfl, hs, hb, hlast, hbehind⟩
      · cases hup
      · have hsc : siblings h (b ++ s :: c) = s :: siblings h c := by
          rw [siblings_append, siblings_eq_nil.mpr hb, siblings_cons hs, List.nil_append]
        have hcut : b ++ s :: (c ++ back) = (b ++ s :: c) ++ back := by simp
        have hmid : ∀ q ∈ b ++ s :: c, q ∈ pre ++ (b ++ s :: (c ++ back)) := fun q hq => by
          rw [hcut]
          exact List.mem_append_right _ (List.mem_append_left _ hq)
        have hback : ∀ q ∈ back, q ∈ pre ++ (b ++ s :: (c ++ back)) := fun q hq => by simp [hq]
        refine Or.inr ⟨move, _, s, siblings h c, siblings h back, rfl,
          applyBlockMove_family ht hl hblock hat, ?_, ?_, ?_⟩
        · rw [hcut, siblings_append, hsc, List.cons_append]
        · rw [siblings_append, siblings_append, siblings_cons rfl, siblings_inside ht,
            siblings_lift ht (fun q hq => List.mem_append_left _ hq) hmid,
            siblings_outside ht hback, hsc]
          simp
        · have hts : Tree ((pre ++ h :: b) ++ s :: (c ++ back)) := by
            rw [List.append_assoc]
            exact ht
          intro q hq
          rw [← siblings_append, mem_siblings] at hq
          have hl' : (pre ++ h :: b) ++ s :: (c ++ back) = pre ++ h :: (b ++ s :: (c ++ back)) := by
            simp
          rw [mem_siblings, and_iff_left hq.2, ← hl']
          exact mem_range_iff hts hq.1 (hq.2.trans hs.symm) hlast hbehind

end moves

/-- **What a move does among the siblings.** Up exchanges the row with its previous sibling. Down
takes it behind the next sibling `s` and behind those further siblings `M` that stand before the
last row of the subtree of `s`; no other two siblings change places. Without a sibling on that side
there is no move. -/
theorem moveAmongSiblings_steps {l : Nodes} (hwf : isWellFormed l = true)
    (hnd : (l.map Node.id).Nodup) (hne : [] ∉ l.map Node.id) {pre post : Nodes} {h : Node}
    (hl : l = pre ++ h :: post) :
    ((moveAmongSiblings l pre.length true = none ∧ siblings h pre = []) ∨
      ∃ move l' s, moveAmongSiblings l pre.length true = some move ∧
        applyBlockMove move l = .ok l' ∧ Exchanged s h (siblings h l) (siblings h l')) ∧
    ((moveAmongSiblings l pre.length false = none ∧ siblings h post = []) ∨
      ∃ move l' s M B, moveAmongSiblings l pre.length false = some move ∧
        applyBlockMove move l = .ok l' ∧
        siblings h l = siblings h pre ++ h :: s :: (M ++ B) ∧
        siblings h l' = siblings h pre ++ s :: (M ++ h :: B) ∧
        ∀ q ∈ M ++ B, q ∈ M ↔ ∃ e, Below (lines l) e.id s.id ∧ Before l q e) := by
  subst hl
  have ht : Tree (pre ++ h :: post) := (tree_iff _).mpr ⟨hwf, hnd, hne⟩
  have hsib : siblings h (pre ++ h :: post) = siblings h pre ++ h :: siblings h post := by
    rw [siblings_append, siblings_cons rfl]
  constructor
  · rcases siblings_moveUp ht with hnone | ⟨move, l', A, s, hm, happly, hpre, hafter⟩
    · exact Or.inl hnone
    · refine Or.inr ⟨move, l', s, hm, happly, A, siblings h post, ?_, hafter⟩
      rw [hsib, hpre]
      simp
  · rcases siblings_moveDown ht with hnone | ⟨move, l', s, M, B, hm, happly, hpost, hafter, hM⟩
    · exact Or.inl hnone
    · exact Or.inr ⟨move, l', s, M, B, hm, happly, by rw [hsib, hpost], hafter, hM⟩

/-- Three roots; the child of the second stands behind the third, as an outdent can leave it. -/
def outdentedRows : Nodes :=
  [⟨L "a", [], false⟩, ⟨L "b", [], false⟩, ⟨L "c", [], false⟩, ⟨L "b1", L "b", false⟩]

theorem moveAmongSiblings_outdentedRows :
    ∃ move l' s M B, moveAmongSiblings outdentedRows 0 false = some move ∧
      applyBlockMove move outdentedRows = .ok l' ∧
      siblings ⟨L "a", [], false⟩ outdentedRows = ⟨L "a", [], false⟩ :: s :: (M ++ B) ∧
      siblings ⟨L "a", [], false⟩ l' = s :: (M ++ ⟨L "a", [], false⟩ :: B) ∧
      ∀ q ∈ M ++ B, q ∈ M ↔
        ∃ e, Below (lines outdentedRows) e.id s.id ∧ Before outdentedRows q e :=
  (moveAmongSiblings_steps (by decide) (by decide) (by decide)
    (show outdentedRows = [] ++ ⟨L "a", [], false⟩ :: outdentedRows.drop 1 from rfl)).2.resolve_left
      fun hnone => by cases hnone.2

/-- There a move down of the first root takes it past both others. -/
theorem moveAmongSiblings_two_steps :
    isWellFormed outdentedRows = true ∧ (outdentedRows.map Node.id).Nodup ∧
      [] ∉ outdentedRows.map Node.id ∧
      ∃ move l', moveAmongSiblings outdentedRows 0 false = some move ∧
        applyBlockMove move outdentedRows = .ok l' ∧
        ∀ s, ¬Exchanged ⟨L "a", [], false⟩ s (siblings ⟨L "a", [], false⟩ outdentedRows)
          (siblings ⟨L "a", [], false⟩ l') := by
  refine ⟨by decide, by decide, by decide, ⟨[0], 3⟩,
    [⟨L "b", [], false⟩, ⟨L "c", [], false⟩, ⟨L "b1", L "b", false⟩, ⟨L "a", [], false⟩],
    by decide, by simp [applyBlockMove, outdentedRows, pick, removeEach, removeAt, insertRun, insertAt], ?_⟩
  rintro s ⟨A, B, hbefore, hafter⟩
  cases A with
  | nil =>
      -- the second root is the next sibling
      obtain ⟨-, hB⟩ := List.cons.inj hbefore
      obtain ⟨-, rfl⟩ := List.cons.inj hB
      have hthird := (List.cons.inj (List.cons.inj hafter).2).1
      revert hthird
      decide
  | cons x A =>
      have hmem : (⟨L "a", [], false⟩ : Node) ∈ A ++ ⟨L "a", [], false⟩ :: s :: B := by simp
      have htail : [⟨L "b", [], false⟩, ⟨L "c", [], false⟩] =
          A ++ (⟨L "a", [], false⟩ : Node) :: s :: B := (List.cons.inj hbefore).2
      rw [← htail] at hmem
      revert hmem
      decide

/-! ### Indents -/

/-- The rows with their depths. -/
def leveled (l : Nodes) : List (Node × ℕ) := l.zip (depths l)

/-- The search for a new parent passes deeper rows and separators of the row's own depth. -/
def Passed (depth : ℕ) (q : Node × ℕ) : Prop :=
  depth < q.2 ∨ q.2 = depth ∧ q.1.separator = true

/-- Between the row `r` and a session of its depth in another branch stands a session with the
parent of `r`, or a row that is shallower. -/
def BranchBounded (pre : Nodes) (r : Node) : Prop :=
  ∀ a m b, leveled pre = a ++ m :: b → m.1.separator = false → m.2 = rowDepth pre r →
    m.1.parentId ≠ r.parentId →
    ∃ q ∈ b, q.2 < rowDepth pre r ∨ q.1.separator = false ∧ q.1.parentId = r.parentId

section leveled

variable {pre post : Nodes} {n r : Node}

/-- The depth of the last row. -/
theorem leveled_concat (pre : Nodes) (n : Node) :
    leveled (pre ++ [n]) = leveled pre ++ [(n, rowDepth pre n)] := by
  have hlen : pre.length = (depthsFrom [] pre).length := (length_depthsFrom [] pre).symm
  rw [leveled, depths, depthsFrom_append, List.zip_append hlen]
  rfl

/-- A row with its depth, as a split of the list. -/
theorem leveled_split {a b : List (Node × ℕ)} {m : Node × ℕ} (h : leveled pre = a ++ m :: b) :
    ∃ x y, pre = x ++ m.1 :: y ∧ m.2 = rowDepth x m.1 := by
  induction pre using List.reverseRecOn generalizing b with
  | nil => cases a <;> cases h
  | append_singleton pre n ih =>
      rw [leveled_concat] at h
      rcases List.eq_nil_or_concat' b with rfl | ⟨b, q, rfl⟩
      · obtain ⟨-, hm⟩ := List.append_inj' h rfl
        obtain rfl := (List.cons.inj hm).1
        exact ⟨pre, [], rfl, rfl⟩
      · have hassoc : a ++ m :: (b ++ [q]) = (a ++ m :: b) ++ [q] := by simp
        rw [hassoc] at h
        obtain ⟨x, y, rfl, hdepth⟩ := ih (List.append_inj' h rfl).1
        exact ⟨x, y ++ [n], by simp, hdepth⟩

/-- One round of the search. -/
theorem indentScan_concat (pre post : Nodes) (n : Node) (d : ℕ) :
    indentScan (pre ++ n :: post) (depths (pre ++ n :: post)) d (pre.length + 1) =
      if rowDepth pre n = d then
        if n.separator then
          indentScan (pre ++ n :: post) (depths (pre ++ n :: post)) d pre.length
        else some n.id
      else if rowDepth pre n < d then none
      else indentScan (pre ++ n :: post) (depths (pre ++ n :: post)) d pre.length := by
  have hget : (pre ++ n :: post)[pre.length]? = some n := by simp
  rw [indentScan, hget, depths_getElem?]

/-- The scan passes a row that is deeper. -/
theorem indentScan_passes {d : ℕ} (h : Passed d (n, rowDepth pre n)) :
    indentScan (pre ++ n :: post) (depths (pre ++ n :: post)) d (pre.length + 1) =
      indentScan (pre ++ n :: post) (depths (pre ++ n :: post)) d pre.length := by
  rw [indentScan_concat]
  rcases h with hlt | ⟨heq, hsep⟩
  · dsimp only at hlt
    rw [if_neg (by omega), if_neg (by omega)]
  · dsimp only at heq hsep
    rw [if_pos heq, if_pos hsep]

/-- It stops at any other row. -/
theorem indentScan_stops {d : ℕ} (h : ¬Passed d (n, rowDepth pre n)) :
    indentScan (pre ++ n :: post) (depths (pre ++ n :: post)) d (pre.length + 1) =
      if rowDepth pre n = d then some n.id else none := by
  rw [indentScan_concat]
  unfold Passed at h
  push Not at h
  dsimp only at h
  split_ifs with heq hsep hlt
  · exact absurd hsep (h.2 heq)
  · rfl
  · rfl
  · omega

/-- The search stops at the nearest row that is not passed. -/
theorem indentScan_split {d : ℕ} {a b : List (Node × ℕ)} {m : Node × ℕ}
    (h : leveled pre = a ++ m :: b) (hm : ¬Passed d m) (hb : ∀ q ∈ b, Passed d q) :
    indentScan (pre ++ post) (depths (pre ++ post)) d pre.length =
      if m.2 = d then some m.1.id else none := by
  induction pre using List.reverseRecOn generalizing b post with
  | nil => cases a <;> cases h
  | append_singleton pre n ih =>
      rw [leveled_concat] at h
      rw [List.append_assoc, List.singleton_append, List.length_append, List.length_singleton]
      rcases List.eq_nil_or_concat' b with rfl | ⟨b, q, rfl⟩
      · obtain ⟨-, hlast⟩ := List.append_inj' h rfl
        obtain rfl := (List.cons.inj hlast).1
        exact indentScan_stops hm
      · have hassoc : a ++ m :: (b ++ [q]) = (a ++ m :: b) ++ [q] := by simp
        rw [hassoc] at h
        obtain ⟨hinit, hlast⟩ := List.append_inj' h rfl
        obtain rfl := (List.cons.inj hlast).1
        rw [indentScan_passes (hb _ (by simp))]
        exact ih hinit fun q hq => hb q (List.mem_append_left _ hq)

/-- It finds nothing when all rows are deeper. -/
theorem indentScan_passed {d : ℕ} (h : ∀ q ∈ leveled pre, Passed d q) :
    indentScan (pre ++ post) (depths (pre ++ post)) d pre.length = none := by
  induction pre using List.reverseRecOn generalizing post with
  | nil => rfl
  | append_singleton pre n ih =>
      rw [leveled_concat] at h
      rw [List.append_assoc, List.singleton_append, List.length_append, List.length_singleton,
        indentScan_passes (h _ (by simp))]
      exact ih fun q hq => h q (List.mem_append_left _ hq)

/-- **The new parent of an indented row**: the nearest row in front that is not passed, when it is
of the row's depth. -/
theorem indentParent_eq_some_iff {p : WString} :
    indentParent (pre ++ r :: post) pre.length = some p ↔
      ∃ a m b, leveled pre = a ++ m :: b ∧ m.1.id = p ∧ m.1.separator = false ∧
        m.2 = rowDepth pre r ∧ ∀ q ∈ b, Passed (rowDepth pre r) q := by
  have hscan : indentParent (pre ++ r :: post) pre.length =
      indentScan (pre ++ r :: post) (depths (pre ++ r :: post)) (rowDepth pre r) pre.length := by
    rw [indentParent, depths_getElem?]
    split_ifs with hzero
    · rw [hzero, indentScan]
    · rfl
  rw [hscan]
  constructor
  · intro hsome
    by_cases hall : ∀ q ∈ leveled pre, Passed (rowDepth pre r) q
    · rw [indentScan_passed hall] at hsome
      cases hsome
    · push Not at hall
      obtain ⟨x, hx, hstop⟩ := hall
      obtain ⟨a, m, b, hl, hm, hb, -⟩ :=
        exists_last (p := fun q => ¬Passed (rowDepth pre r) q) hx hstop
      have hb' : ∀ q ∈ b, Passed (rowDepth pre r) q := fun q hq => not_not.mp (hb q hq)
      rw [indentScan_split hl hm hb'] at hsome
      split_ifs at hsome with hdepth
      refine ⟨a, m, b, hl, Option.some.inj hsome, ?_, hdepth, hb'⟩
      rw [← Bool.not_eq_true]
      exact fun hsep => hm (Or.inr ⟨hdepth, hsep⟩)
  · rintro ⟨a, m, b, hl, rfl, hsep, hdepth, hb⟩
    have hm : ¬Passed (rowDepth pre r) m := by
      rintro (hlt | ⟨-, hsep'⟩)
      · omega
      · rw [hsep] at hsep'
        cases hsep'
    rw [indentScan_split hl hm hb, if_pos hdepth]

/-- Rows with one parent have one depth. -/
theorem rowDepth_sibling {x y : Nodes} {q : Node} (ht : Tree (pre ++ r :: post))
    (hl : pre ++ r :: post = x ++ q :: y) (hpar : q.parentId = r.parentId) :
    rowDepth x q = rowDepth pre r := by
  by_cases hp : r.parentId = []
  · rw [rowDepth_of_root hp, rowDepth_of_root (hpar.trans hp)]
  · obtain ⟨a, m, b, rfl, hid, -, hdepth⟩ := rowDepth_of_ne ht hp
    obtain ⟨a', m', b', rfl, hid', -, hdepth'⟩ := rowDepth_of_ne (hl ▸ ht) (hpar ▸ hp)
    obtain rfl : m' = m :=
      ht.eq_of_id (by rw [hl]; simp) (by simp) (hid'.trans (hpar.trans hid.symm))
    have hnd := ht.nodup
    rw [hl] at hnd
    have haa : a' = a := by
      simp only [List.append_assoc, List.cons_append] at hl hnd
      obtain ⟨hnot, -⟩ := List.nodup_cons.mp (List.nodup_middle.mp hnd)
      rw [List.mem_append, not_or] at hnot
      exact ((List.append_cons_inj_of_notMem hnot.1 hnot.2).mp hl.symm).1
    rw [hdepth, hdepth', haa]

end leveled

/-- An indented row goes back to its new parent's parent. -/
theorem outdentParent_indented {pre post x y : Nodes} {r m : Node} (ht : Tree (pre ++ r :: post))
    (hpre : pre = x ++ m :: y) :
    outdentParent (pre ++ r.withParent m.id :: post) pre.length = some m.parentId := by
  have hget : (pre ++ r.withParent m.id :: post)[pre.length]? = some (r.withParent m.id) := by simp
  have hne : m.id ≠ [] := ht.id_ne m (by rw [hpre]; simp)
  have hx : ∀ q ∈ x, q.id ≠ m.id := by
    intro q hq heq
    have hd := ht.distinct
    rw [hpre, List.append_assoc, List.map_append, List.nodup_append] at hd
    exact hd.2.2 _ (List.mem_map_of_mem hq) m.id (by simp) heq
  have hfind : (pre ++ r.withParent m.id :: post).find? (fun n => n.id = m.id) = some m := by
    rw [List.find?_eq_some_iff_append]
    refine ⟨by simp, x, y ++ r.withParent m.id :: post, by rw [hpre]; simp, fun q hq => ?_⟩
    simpa using hx q hq
  rw [outdentParent, hget]
  have hempty : (r.withParent m.id).parentId.isEmpty = false := by
    rw [List.isEmpty_eq_false_iff]
    exact hne
  simp only [hempty, Bool.false_eq_true, if_false]
  rw [show (r.withParent m.id).parentId = m.id from rfl, hfind]

/-- **An indent nests under a sibling, and an outdent undoes it, exactly when no other branch comes
between.** -/
theorem indentParent_sibling_iff {l : Nodes} (hwf : isWellFormed l = true)
    (hnd : (l.map Node.id).Nodup) (hne : [] ∉ l.map Node.id) {pre post : Nodes} {r : Node}
    (hl : l = pre ++ r :: post) :
    (∀ p, indentParent l pre.length = some p →
      (∃ m ∈ l, m.id = p ∧ m.parentId = r.parentId) ∧
        outdentParent (pre ++ r.withParent p :: post) pre.length = some r.parentId) ↔
      BranchBounded pre r := by
  subst hl
  have ht : Tree (pre ++ r :: post) := (tree_iff _).mpr ⟨hwf, hnd, hne⟩
  constructor
  · intro hall a m b hlev hsep hdepth hpar
    by_contra hnone
    push Not at hnone
    -- the nearest session of this depth, from `m` on, is what the search stops at
    obtain ⟨c, m', d, hsplit, ⟨hsep', hdepth'⟩, hlast, -⟩ :=
      exists_last (l := m :: b) (p := fun q => q.1.separator = false ∧ q.2 = rowDepth pre r)
        List.mem_cons_self ⟨hsep, hdepth⟩
    have hlev' : leveled pre = (a ++ c) ++ m' :: d := by rw [hlev, hsplit, List.append_assoc]
    have hpassed : ∀ q ∈ d, Passed (rowDepth pre r) q := by
      intro q hq
      have hle : rowDepth pre r ≤ q.2 := by
        have hmem : q ∈ m :: b := by rw [hsplit]; simp [hq]
        rcases List.mem_cons.mp hmem with rfl | hqb
        · exact hdepth.ge
        · exact (hnone q hqb).1
      rcases Nat.lt_or_eq_of_le hle with hlt | heq
      · exact Or.inl hlt
      · refine Or.inr ⟨heq.symm, ?_⟩
        rw [← Bool.not_eq_false]
        exact fun hfalse => hlast q hq ⟨hfalse, heq.symm⟩
    obtain ⟨x, y, hpre, -⟩ := leveled_split hlev'
    obtain ⟨-, hout⟩ :=
      hall m'.1.id (indentParent_eq_some_iff.mpr ⟨_, m', d, hlev', rfl, hsep', hdepth', hpassed⟩)
    rw [outdentParent_indented ht hpre] at hout
    have hsame : m'.1.parentId = r.parentId := Option.some.inj hout
    have hmem : m' ∈ m :: b := by rw [hsplit]; simp
    rcases List.mem_cons.mp hmem with rfl | hmb
    · exact hpar hsame
    · exact (hnone m' hmb).2 hsep' hsame
  · intro hbound p hp
    obtain ⟨a, m, b, hlev, rfl, hsep, hdepth, hpassed⟩ := indentParent_eq_some_iff.mp hp
    obtain ⟨x, y, hpre, -⟩ := leveled_split hlev
    have hsame : m.1.parentId = r.parentId := by
      by_contra hpar
      obtain ⟨q, hq, hcase⟩ := hbound a m b hlev hsep hdepth hpar
      rcases hcase with hlt | ⟨hqsep, hqpar⟩
      · rcases hpassed q hq with hgt | ⟨heq, -⟩
        · omega
        · omega
      · -- a session with the same parent has the same depth, and is not passed
        obtain ⟨b₁, b₂, rfl⟩ := List.append_of_mem hq
        have hassoc : leveled pre = (a ++ m :: b₁) ++ q :: b₂ := by rw [hlev]; simp
        obtain ⟨x', y', hpre', hqdepth⟩ := leveled_split hassoc
        have hsib := rowDepth_sibling ht (x := x') (y := y' ++ r :: post) (q := q.1)
          (by rw [hpre']; simp) hqpar
        rcases hpassed q hq with hgt | ⟨-, hsep'⟩
        · omega
        · rw [hqsep] at hsep'
          cases hsep'
    refine ⟨⟨m.1, by rw [hpre]; simp, rfl, hsame⟩, ?_⟩
    rw [outdentParent_indented ht hpre, hsame]

/-- Two roots in front of a child of each. -/
def twoBranches : Nodes :=
  [⟨L "a", [], false⟩, ⟨L "b", [], false⟩, ⟨L "a1", L "a", false⟩, ⟨L "b1", L "b", false⟩]

theorem indentParent_sibling_twoBranches :
    (∀ p, indentParent twoBranches 2 = some p →
      (∃ m ∈ twoBranches, m.id = p ∧ m.parentId = L "a") ∧
        outdentParent [⟨L "a", [], false⟩, ⟨L "b", [], false⟩, ⟨L "a1", p, false⟩,
          ⟨L "b1", L "b", false⟩] 2 = some (L "a")) ↔
      BranchBounded [⟨L "a", [], false⟩, ⟨L "b", [], false⟩] ⟨L "a1", L "a", false⟩ :=
  indentParent_sibling_iff (by decide) (by decide) (by decide)
    (show twoBranches = [⟨L "a", [], false⟩, ⟨L "b", [], false⟩] ++ ⟨L "a1", L "a", false⟩ ::
      [⟨L "b1", L "b", false⟩] from rfl)

/-- The second child is indented under the first, which is not a sibling, and an outdent leaves it
in the other branch. -/
theorem indentParent_other_branch :
    isWellFormed twoBranches = true ∧ (twoBranches.map Node.id).Nodup ∧
      [] ∉ twoBranches.map Node.id ∧
      indentParent twoBranches 3 = some (L "a1") ∧
      ¬(∃ m ∈ twoBranches, m.id = L "a1" ∧ m.parentId = L "b") ∧
      outdentParent [⟨L "a", [], false⟩, ⟨L "b", [], false⟩, ⟨L "a1", L "a", false⟩,
        ⟨L "b1", L "a1", false⟩] 3 = some (L "a") ∧ L "a" ≠ L "b" := by
  decide

end Axan.EntryTree
