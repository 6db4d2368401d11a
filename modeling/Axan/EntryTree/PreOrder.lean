import Axan.EntryTree.DragCorrect

/-!
# Startup lists in pre-order

* `InPreOrder` — a well-formed list whose subtrees are contiguous.
* `rowDepth_eq`, `exists_runs` — on such a list the depth of a row is the number of rows above it,
  and the family of a row is the run behind it.
* `inPreOrder_drag` — a drag keeps the pre-order: the depth the head lands at is one at which a run
  can be put in.
* `inPreOrder_move` — so does a move among siblings, and a move back undoes it.
-/

namespace Axan.EntryTree

open Axan.Base Axan.Base.Forest

/-- The rows are well-formed and every subtree is contiguous. -/
structure InPreOrder (l : Nodes) : Prop where
  wellFormed : isWellFormed l = true
  distinct : (l.map Node.id).Nodup
  nonempty : [] ∉ l.map Node.id
  contiguous : Contiguous (lines l)

/-- The list is well formed, and its lines are in pre-order. -/
theorem inPreOrder_iff {l : Nodes} : InPreOrder l ↔ Tree l ∧ PreOrder (lines l) := by
  constructor
  · intro h
    have ht : Tree l := (tree_iff l).mpr ⟨h.wellFormed, h.distinct, h.nonempty⟩
    exact ⟨ht, preOrder_iff_contiguous.mpr ⟨ht.parentsFirst, h.contiguous⟩⟩
  · rintro ⟨ht, hpre⟩
    obtain ⟨hwf, hnd, hne⟩ := (tree_iff l).mp ht
    exact ⟨hwf, hnd, hne, hpre.contiguous⟩

/-- Rows whose lines are those of an outline. -/
theorem inPreOrder_of_outline {l : Nodes} (ht : Tree l) {O : List (WString × List WString)}
    (hO : IsOutline [] O) (hl : lines l = flat O) : InPreOrder l := by
  refine inPreOrder_iff.mpr ⟨ht, preOrder_iff.mpr ⟨O, hO, ?_, hl⟩⟩
  rw [← map_key_flat, ← hl, map_key_lines]
  exact ht.distinct

/-! ### The outline of the rows -/

section outline

variable {l pre post : Nodes} {n : Node} {A D O : List (WString × List WString)} {up : List WString}

theorem lines_append (a b : Nodes) : lines (a ++ b) = lines a ++ lines b := List.map_append

theorem lines_cons (n : Node) (l : Nodes) : lines (n :: l) = toLine n :: lines l := rfl

/-- The nodes of the outline are the ids. -/
theorem map_fst_of_lines (hl : lines l = flat O) : O.map Prod.fst = l.map Node.id := by
  rw [← map_key_flat, ← hl, map_key_lines]

/-- A row of the list is a node of the outline. -/
theorem outline_split (hl : lines (pre ++ n :: post) = flat O) :
    ∃ A up D, O = A ++ (n.id, up) :: D ∧ lines pre = flat A ∧ toLine n = line (n.id, up) ∧
      lines post = flat D := by
  rw [lines_append, lines_cons] at hl
  obtain ⟨A, D, rfl, hA, hD⟩ := flat_eq_append hl.symm
  obtain ⟨up, D, rfl, hup, hpost⟩ := flat_eq_cons hD
  refine ⟨A, up, D, rfl, hA.symm, ?_, hpost.symm⟩
  rw [line, hup]
  rfl

/-- A split of the outline is one of the list. -/
theorem lines_eq_append {B C : List (WString × List WString)} (hl : lines l = flat (B ++ C)) :
    ∃ T Z, l = T ++ Z ∧ lines T = flat B ∧ lines Z = flat C := by
  rw [flat_append] at hl
  obtain ⟨T, Z, rfl, hT, hZ⟩ := List.map_eq_append_iff.mp hl
  exact ⟨T, Z, rfl, hT, hZ⟩

/-- **The depth of a row is the number of rows above it.** -/
theorem rowDepth_eq (ht : Tree (pre ++ n :: post)) (hO : IsOutline [] (A ++ (n.id, up) :: D))
    (hnd : ((A ++ (n.id, up) :: D).map Prod.fst).Nodup) (hpre : lines pre = flat A)
    (hn : toLine n = line (n.id, up)) : rowDepth pre n = up.length := by
  induction hk : pre.length using Nat.strong_induction_on generalizing pre n post A D up with
  | _ k ih =>
      have hparent : (toLine n).parent = up.head? := by rw [hn]; rfl
      by_cases hp : n.parentId = []
      · rw [toLine, if_pos hp] at hparent
        rw [rowDepth_of_root hp, List.head?_eq_none_iff.mp hparent.symm]
        rfl
      · obtain ⟨a, m, b, rfl, hid, -, hdepth⟩ := rowDepth_of_ne ht hp
        rw [toLine, if_neg hp, ← hid] at hparent
        obtain ⟨T, rfl⟩ := List.head?_eq_some_iff.mp hparent.symm
        obtain ⟨A₁, v, A₂, rfl, ha, hm, -⟩ := outline_split hpre
        -- the parent is the node the row hangs at
        have hv : v = T := by
          have hmem : (m.id, T) ∈ (A₁ ++ (m.id, v) :: A₂) ++ (n.id, m.id :: T) :: D :=
            hO.mem_of_suffix' (r := (n.id, m.id :: T)) (by simp) List.suffix_rfl
          exact eq_of_mem_of_nodup hnd (by simp) hmem
        have hlt : a.length < k := by
          rw [← hk, List.length_append, List.length_cons]
          omega
        have hassoc : (A₁ ++ (m.id, v) :: A₂) ++ (n.id, m.id :: T) :: D =
            A₁ ++ (m.id, v) :: (A₂ ++ (n.id, m.id :: T) :: D) := by simp
        have ht' : Tree (a ++ m :: (b ++ n :: post)) := by simpa using ht
        rw [hassoc] at hO hnd
        rw [hdepth, ih a.length hlt ht' hO hnd ha hm rfl, hv]
        rfl

/-- Every row is in the outline. -/
theorem exists_node {O : List (WString × List WString)} (hl : lines l = flat O) (hn : n ∈ l) :
    ∃ v, (n.id, v) ∈ O := by
  have hmem : n.id ∈ O.map Prod.fst := by
    rw [map_fst_of_lines hl]
    exact List.mem_map_of_mem hn
  obtain ⟨r, hr, hid⟩ := List.mem_map.mp hmem
  exact ⟨r.2, hid ▸ hr⟩

/-- The family of a row is the run behind it. -/
theorem exists_runs (h : InPreOrder (pre ++ n :: post)) {p : Node → Bool}
    (hf : Family (pre ++ n :: post) n p) :
    ∃ T Z A B C up, post = T ++ Z ∧ (∀ q ∈ T, p q = true) ∧ (∀ q ∈ pre ++ Z, p q = false) ∧
      lines pre = flat A ∧ toLine n = line (n.id, up) ∧ lines T = flat B ∧ lines Z = flat C ∧
      SubtreeAt (A ++ (n.id, up) :: (B ++ C)) n.id up A B C := by
  obtain ⟨ht, hpre⟩ := inPreOrder_iff.mp h
  obtain ⟨O, hO, hnd, hl⟩ := preOrder_iff.mp hpre
  obtain ⟨A, up, D, rfl, hA, hn, hD⟩ := outline_split hl
  obtain ⟨B, C, hsub⟩ := hO.subtreeAt_of_split
  obtain rfl : D = B ++ C := (List.cons.inj (List.append_cancel_left hsub.eq)).2
  obtain ⟨T, Z, rfl, hT, hZ⟩ := lines_eq_append hD
  refine ⟨T, Z, A, B, C, up, rfl, fun q hq => ?_, fun q hq => ?_, hA, hn, hT, hZ, hsub⟩
  · obtain ⟨v, hv⟩ := exists_node hT hq
    rw [hf.eq_true_iff ht (by simp [hq]), hl]
    exact hsub.below_of_mem hO hnd hv
  · have hout : ∃ v, (q.id, v) ∈ A ++ C := by
      rcases List.mem_append.mp hq with hq | hq
      · obtain ⟨v, hv⟩ := exists_node hA hq
        exact ⟨v, List.mem_append_left _ hv⟩
      · obtain ⟨v, hv⟩ := exists_node hZ hq
        exact ⟨v, List.mem_append_right _ hv⟩
    obtain ⟨v, hv⟩ := hout
    have hmem : q ∈ pre ++ n :: (T ++ Z) := by
      rcases List.mem_append.mp hq with hq | hq
      · simp [hq]
      · simp [hq]
    rw [← Bool.not_eq_true, hf.eq_true_iff ht hmem, hl]
    exact hsub.not_below hO hnd hv

/-- A list without rows of the block stays. -/
theorem filter_outside {p : Node → Bool} {k : Nodes} (h : ∀ q ∈ k, p q = false) :
    k.filter (fun q => !p q) = k :=
  List.filter_eq_self.mpr fun q hq => by rw [h q hq]; rfl

/-- A list of the block leaves nothing. -/
theorem filter_inside {p : Node → Bool} {k : Nodes} (h : ∀ q ∈ k, p q = true) :
    k.filter (fun q => !p q) = [] :=
  List.filter_eq_nil_iff.mpr fun q hq => by rw [h q hq]; exact Bool.false_ne_true

/-- The rows outside a run, and the rows of the run. -/
theorem filter_runs {T Z : Nodes} {p : Node → Bool} (hnd : (pre ++ n :: (T ++ Z)).Nodup)
    (hn : p n = true) (hT : ∀ q ∈ T, p q = true) (hZ : ∀ q ∈ pre ++ Z, p q = false) :
    ((pre ++ n :: (T ++ Z)).filter fun q => !p q) = pre ++ Z ∧
      ((pre ++ n :: (T ++ Z)).filter fun q => p q && q ≠ n) = T := by
  have hnot := (List.nodup_cons.mp (List.nodup_middle.mp hnd)).1
  have hpre : ∀ q ∈ pre, p q = false := fun q hq => hZ q (List.mem_append_left _ hq)
  have hZ' : ∀ q ∈ Z, p q = false := fun q hq => hZ q (List.mem_append_right _ hq)
  have hnil {k : Nodes} (hk : ∀ q ∈ k, p q = false) : k.filter (fun q => p q && q ≠ n) = [] := by
    rw [List.filter_eq_nil_iff]
    intro q hq
    rw [hk q hq]
    simp
  have hrun : T.filter (fun q => p q && q ≠ n) = T := by
    rw [List.filter_eq_self]
    intro q hq
    have hne : q ≠ n := by
      rintro rfl
      exact hnot (by simp [hq])
    rw [hT q hq, decide_eq_true hne]
    rfl
  constructor
  · rw [List.filter_append, List.filter_cons_of_neg (by simp [hn]), List.filter_append,
      filter_outside hpre, filter_inside hT, filter_outside hZ', List.nil_append]
  · rw [List.filter_append, List.filter_cons_of_neg (by simp), List.filter_append, hnil hpre, hrun,
      hnil hZ', List.nil_append, List.append_nil]

end outline

/-! ### Drags -/

/-- The head lands at least as deep as the row behind it, when that is at most one level below the
anchor, and no deeper than a separator. -/
theorem le_landingDepth {init back : Nodes} {r q : Node} (oldDepth : ℕ)
    (hle : rowDepth (init ++ [r]) q ≤ rowDepth init r + 1)
    (hsep : r.separator = true → rowDepth (init ++ [r]) q ≤ rowDepth init r) :
    rowDepth (init ++ [r]) q ≤
      landingDepth (init ++ r :: q :: back) (some init.length) (init.length + 1) oldDepth := by
  have hr : (depths (init ++ r :: q :: back)).getD init.length 0 = rowDepth init r := by
    rw [List.getD_eq_getElem?_getD, depths_getElem?]
    rfl
  have hq : (depths (init ++ r :: q :: back)).getD (init.length + 1) 0 =
      rowDepth (init ++ [r]) q := by
    have hsplit : init ++ r :: q :: back = (init ++ [r]) ++ q :: back := by simp
    have hlen : init.length + 1 = (init ++ [r]).length := by simp
    rw [List.getD_eq_getElem?_getD, hsplit, hlen, depths_getElem?]
    rfl
  have hget : (init ++ r :: q :: back)[init.length]? = some r := by simp
  have hlt : init.length + 1 < (init ++ r :: q :: back).length := by simp
  unfold landingDepth
  simp only [hr, hq, hget, if_pos hlt, Option.map_some, Option.getD_some]
  split_ifs with hc
  · exact hsep (Bool.and_eq_true _ _ ▸ hc).2
  · omega

section place

variable {front back : Nodes} {F K : List (WString × List WString)}

/-- The path to the new parent is open behind the anchor, and as long as the head lands deep. -/
theorem exists_path (ht : Tree (front ++ back)) (hO : IsOutline [] (F ++ K))
    (hF : lines front = flat F) (hK : lines back = flat K) {newDepth : ℕ} {parent : WString}
    (hpar : NewParent front back newDepth parent) :
    ∃ u, u.head? = (if parent = [] then none else some parent) ∧ u <:+ openPath [] F ∧
      u.length = newDepth := by
  have hlines : lines (front ++ back) = flat (F ++ K) := by
    rw [lines_append, hF, hK, flat_append]
  have hnd : ((F ++ K).map Prod.fst).Nodup := by
    rw [map_fst_of_lines hlines]
    exact ht.distinct
  rcases hpar with ⟨hzero, rfl⟩ | ⟨init, r, c, m, d, rfl, hsplit, -, hid, -, hdepth, hbelow⟩
  · exact ⟨[], rfl, List.nil_suffix, hzero.symm⟩
  · -- the last node of the outline is that of the anchor
    obtain ⟨F₀, v, E, rfl, -, -, hE⟩ := outline_split hF
    obtain rfl : E = [] := List.map_eq_nil_iff.mp hE.symm
    rw [openPath_concat]
    obtain ⟨M, w, N, hMN, hc, hm, -⟩ := outline_split (hsplit ▸ hlines)
    have hr : (r.id, v) ∈ (F₀ ++ [(r.id, v)]) ++ K := by simp
    rw [hlines, below_flat_iff hO hnd hr] at hbelow
    have hmem : m.id ∈ r.id :: v := List.mem_cons.mpr hbelow
    obtain ⟨w', hw'⟩ := exists_suffix_of_mem hmem
    -- the parent is met with its own path
    have hin : (m.id, w') ∈ (F₀ ++ [(r.id, v)]) ++ K := by
      rcases List.suffix_cons_iff.mp hw' with heq | hsuffix
      · obtain ⟨h₁, h₂⟩ := List.cons.inj heq
        rw [h₁, h₂]
        exact hr
      · exact hO.mem_of_suffix' hr hsuffix
    have hw : (m.id, w) ∈ (F₀ ++ [(r.id, v)]) ++ K := by
      rw [hMN]
      simp
    obtain rfl := eq_of_mem_of_nodup hnd hin hw
    refine ⟨m.id :: w', ?_, hw', ?_⟩
    · have hne : parent ≠ [] := by
        rw [← hid]
        exact ht.id_ne m (by rw [hsplit]; simp)
      rw [if_neg hne, ← hid]
      rfl
    · rw [hMN] at hO hnd
      rw [List.length_cons, ← hdepth, rowDepth_eq (hsplit ▸ ht) hO hnd hc hm]

/-- The row behind the head is no deeper than the head lands. -/
theorem length_le_landingDepth (ht : Tree (front ++ back)) (hO : IsOutline [] (F ++ K))
    (hF : lines front = flat F) (hK : lines back = flat K) (oldDepth : ℕ) :
    ∀ k ∈ K.head?, k.2.length ≤
      landingDepth (front ++ back) (anchorOf front) front.length oldDepth := by
  intro k hk
  obtain ⟨K', rfl⟩ := List.head?_eq_some_iff.mp hk
  obtain ⟨q, back, rfl, hq, hback⟩ := List.map_eq_cons_iff.mp hK
  have hqk : (q.id, k.2) = k := Prod.ext (congrArg Line.key hq) rfl
  have hnd : ((F ++ k :: K').map Prod.fst).Nodup := by
    have hlines : lines (front ++ q :: back) = flat (F ++ k :: K') := by
      rw [lines_append, hF, hK, flat_append]
    rw [map_fst_of_lines hlines]
    exact ht.distinct
  have hhead := (isOutline_append.mp hO).2.head k rfl
  rcases List.eq_nil_or_concat' front with rfl | ⟨init, r, rfl⟩
  · obtain rfl : F = [] := List.map_eq_nil_iff.mp hF.symm
    rw [List.suffix_nil.mp hhead]
    exact Nat.zero_le _
  · obtain ⟨F₀, v, E, rfl, hinit, hr, hE⟩ := outline_split hF
    obtain rfl : E = [] := List.map_eq_nil_iff.mp hE.symm
    rw [openPath_concat] at hhead
    have hdepth : rowDepth (init ++ [r]) q = k.2.length := by
      rw [← hqk] at hO hnd
      exact rowDepth_eq ht hO hnd hF (by rw [hqk]; exact hq)
    have hanchor : rowDepth init r = v.length := by
      have hassoc : (F₀ ++ [(r.id, v)]) ++ k :: K' = F₀ ++ (r.id, v) :: k :: K' := by simp
      rw [hassoc] at hO hnd
      have ht' : Tree (init ++ r :: q :: back) := by simpa using ht
      exact rowDepth_eq ht' hO hnd hinit hr
    have hanchorOf : anchorOf (init ++ [r]) = some init.length := by
      rw [anchorOf, if_neg (by simp)]
      simp
    have hassoc : (init ++ [r]) ++ q :: back = init ++ r :: q :: back := by simp
    rw [hanchorOf, hassoc, List.length_append, List.length_singleton, ← hdepth]
    apply le_landingDepth
    · rw [hdepth, hanchor]
      exact hhead.length_le
    · -- nothing hangs at a separator
      intro hsep
      rw [hdepth, hanchor]
      by_contra hlt
      have heq : k.2 = r.id :: v := by
        apply List.IsSuffix.eq_of_length_le hhead
        rw [List.length_cons]
        omega
      have hparent : (toLine q).parent = some r.id := by
        rw [hq, line, heq]
        rfl
      obtain ⟨hpid, hne⟩ := parent_toLine hparent
      obtain ⟨m, hb, hid, hs⟩ := ht.parent q (by simp) (hpid ▸ hne)
      obtain rfl : m = r := ht.eq_of_id hb.mem_left (by simp) (hid.trans hpid)
      rw [hsep] at hs
      cases hs

end place

/-- **A drag keeps the pre-order.** -/
theorem inPreOrder_drag {x y a b : Nodes} {h : Node} (hpre : InPreOrder (x ++ h :: y))
    (hab : a ++ b = x ++ y) (oldDepth : ℕ) :
    ∃ fix l', normalizeAfterDrag (a ++ h :: b) a.length oldDepth = .ok (some fix) ∧
      applyBlockMove fix.move (a ++ h.withParent fix.headParentId :: b) = .ok l' ∧
      InPreOrder l' := by
  have ht := (inPreOrder_iff.mp hpre).1
  obtain ⟨fix, p, hok, hf, hrest, hmove, hpar⟩ := normalizeAfterDrag_apply ht hab oldDepth
  obtain ⟨fix', l', hok', hmove', htree, -⟩ := ht.normalizeAfterDrag hab oldDepth
  obtain rfl : fix' = fix := Option.some.inj (Except.ok.inj (hok'.symm.trans hok))
  obtain rfl : l' = _ := Except.ok.inj (hmove'.symm.trans hmove)
  refine ⟨fix', _, hok, hmove, ?_⟩
  obtain ⟨T, Z, A, B, C, up, rfl, hT, hZ, hA, hn, hB, hC, hsub⟩ := exists_runs hpre hf
  obtain ⟨hout, hin⟩ := filter_runs ht.nodup hf.head hT hZ
  rw [hin] at htree ⊢
  rw [hout] at hrest hpar
  generalize (a.filter fun n => !p n) = front at *
  generalize (b.filter fun n => !p n) = back at *
  -- the outline without the run, cut where the head goes
  have hcut : lines (front ++ back) = flat (A ++ C) := by
    rw [hrest, lines_append, hA, hC, flat_append]
  obtain ⟨F, K, hFK, hF, hK⟩ : ∃ F K, A ++ C = F ++ K ∧ flat F = lines front ∧
      flat K = lines back := flat_eq_append (lines_append front back ▸ hcut.symm)
  have htr : Tree (front ++ back) := by
    rw [hrest, ← hout]
    exact hf.tree_rest ht
  have hO : IsOutline [] (F ++ K) := hFK ▸ hsub.isOutline_rest
  rw [← hrest] at hpar
  obtain ⟨u, hhead, hu, hlen⟩ := exists_path htr hO hF.symm hK.symm hpar
  have hbehind : IsOutline u K := by
    obtain ⟨-, hK'⟩ := isOutline_append.mp hO
    apply hK'.of_head
    intro k hk
    apply List.suffix_of_suffix_length_le (hK'.head k hk) hu
    rw [hlen]
    exact length_le_landingDepth htr hO hF.symm hK.symm oldDepth k hk
  have hpaste := (isOutline_append.mp hO).1.paste hu (hsub.isOutline_hung u)
    (fun r => SubtreeAt.suffix_of_mem_hung) hbehind
  apply inPreOrder_of_outline htree hpaste
  rw [flat_append, flat_append, hsub.flat_hung, hF, hK, ← hB, hhead, List.append_assoc,
    lines_append, lines_append, lines_cons]
  rfl

/-! ### Moves -/

/-- Rows in another order, each behind its parent. -/
theorem Tree.of_perm {l l' : Nodes} (ht : Tree l) (hperm : l'.Perm l)
    (hfirst : ParentsFirst (lines l')) : Tree l' := by
  refine ⟨fun n hn => ht.id_ne n (hperm.subset hn), ?_, fun n hn hp => ?_⟩
  · rw [← map_key_lines]
    exact hfirst.nodup
  · obtain ⟨m, hb, hid, hs⟩ := ht.parent n (hperm.subset hn) hp
    obtain ⟨X, Z, rfl⟩ := List.append_of_mem hn
    have hfront : n.parentId ∈ (lines X).map Line.key := by
      rw [lines_append, lines_cons] at hfirst
      exact hfirst.parent_front rfl (by rw [toLine, if_neg hp]; rfl)
    rw [map_key_lines] at hfront
    obtain ⟨m', hm', hid'⟩ := List.mem_map.mp hfront
    have hm'l : m' ∈ l := hperm.subset (List.mem_append_left _ hm')
    obtain rfl : m' = m := ht.eq_of_id hm'l hb.mem_left (hid'.trans hid.symm)
    exact ⟨m', before_append hm' List.mem_cons_self, hid, hs⟩

/-- Two siblings, each with its family behind it. -/
structure SiblingRuns (a : Nodes) (s : Node) (b : Nodes) (t : Node) (c d : Nodes) : Prop where
  inOrder : InPreOrder (a ++ s :: (b ++ t :: (c ++ d)))
  swapped : InPreOrder (a ++ t :: (c ++ s :: (b ++ d)))
  siblings : s.parentId = t.parentId
  first : ∀ q ∈ b, Below (lines (a ++ s :: (b ++ t :: (c ++ d)))) q.id s.id
  second : ∀ q ∈ c, Below (lines (a ++ s :: (b ++ t :: (c ++ d)))) q.id t.id
  rest : ∀ q ∈ d, ¬ Below (lines (a ++ s :: (b ++ t :: (c ++ d)))) q.id t.id

/-- Rows with the same parent line have the same parent id. -/
theorem parentId_eq_of_toLine {q t : Node} (h : (toLine q).parent = (toLine t).parent) :
    q.parentId = t.parentId := by
  rw [toLine, toLine] at h
  dsimp only at h
  split_ifs at h with h₁ h₂ h₂
  · rw [h₁, h₂]
  · exact Option.some.inj h

/-- The nearest row with the same parent comes right behind the family of a row. -/
theorem exists_siblingRuns {a b c : Nodes} {s t : Node} (h : InPreOrder (a ++ s :: (b ++ t :: c)))
    (hs : s.parentId = t.parentId) (hb : ∀ q ∈ b, q.parentId ≠ t.parentId) :
    ∃ T Z, c = T ++ Z ∧ SiblingRuns a s b t T Z := by
  obtain ⟨ht, hpre⟩ := inPreOrder_iff.mp h
  obtain ⟨O, hO, hnd, hl⟩ := preOrder_iff.mp hpre
  obtain ⟨A, u, D, rfl, hA, hsu, hD⟩ := outline_split hl
  obtain ⟨B, C, hsub⟩ := hO.subtreeAt_of_split
  obtain ⟨M, v, N, hMN, hM, htv, hN⟩ := outline_split hD
  have hsplit : D = B ++ C := (List.cons.inj (List.append_cancel_left hsub.eq)).2
  have hparents : (toLine s).parent = (toLine t).parent := by rw [toLine, toLine, hs]
  obtain rfl : u = v := by
    apply hO.eq_of_head? hnd (x := (s.id, u)) (y := (t.id, v)) (by simp) (by rw [hMN]; simp)
    rw [hsu, htv] at hparents
    exact hparents
  -- the family of the first ends where the second starts
  obtain ⟨rfl, rfl⟩ := hsub.eq_of_next_sibling hnd (hsplit.symm.trans hMN) fun r hr hhead => by
    have hmem : line r ∈ lines b := hM ▸ List.mem_map_of_mem hr
    obtain ⟨q, hq, hqr⟩ := List.mem_map.mp hmem
    apply hb q hq
    apply parentId_eq_of_toLine
    rw [hqr, htv]
    exact hhead
  subst hsplit
  obtain ⟨B', C', rfl, hbelow, hinner, hbehind⟩ := hsub.behind.2.exists_subtree List.suffix_rfl
  obtain ⟨T, Z, rfl, hT, hZ⟩ := lines_eq_append hN
  have hsub' : SubtreeAt (A ++ (s.id, u) :: (M ++ (t.id, u) :: (B' ++ C'))) t.id u
      (A ++ (s.id, u) :: M) B' C' := by
    refine ⟨by simp, ?_, ?_, hbelow, hinner, hbehind⟩
    · have hassoc : A ++ (s.id, u) :: (M ++ (t.id, u) :: (B' ++ C')) =
          (A ++ (s.id, u) :: M) ++ (t.id, u) :: (B' ++ C') := by simp
      rw [hassoc] at hO
      exact (isOutline_append.mp hO).1
    · exact (List.suffix_cons s.id u).trans hsub.suffix_openPath
  refine ⟨T, Z, rfl, h, ?_, hs, fun q hq => ?_, fun q hq => ?_, fun q hq => ?_⟩
  · have hswap := hsub.isOutline_swap hbelow hinner hbehind
    have hlines : lines (a ++ t :: (T ++ s :: (b ++ Z))) =
        flat (A ++ ((t.id, u) :: B' ++ ((s.id, u) :: M ++ C'))) := by
      simp only [lines_append, lines_cons, flat_append, flat_cons, List.cons_append, hA, hM, hT, hZ,
        hsu, htv]
    have hperm : (a ++ t :: (T ++ s :: (b ++ Z))).Perm (a ++ s :: (b ++ t :: (T ++ Z))) := by
      rw [List.perm_iff_count]
      intro n
      simp only [List.count_append, List.count_cons]
      omega
    refine inPreOrder_of_outline (ht.of_perm hperm ?_) hswap hlines
    apply PreOrder.parentsFirst
    refine preOrder_iff.mpr ⟨_, hswap, ?_, hlines⟩
    rw [map_fst_of_lines hlines]
    exact (hperm.map Node.id).nodup_iff.mpr ht.distinct
  · obtain ⟨v, hv⟩ := exists_node hM hq
    rw [hl]
    exact hsub.below_of_mem hO hnd hv
  · obtain ⟨v, hv⟩ := exists_node hT hq
    rw [hl]
    exact hsub'.below_of_mem hO hnd hv
  · obtain ⟨v, hv⟩ := exists_node hZ hq
    rw [hl]
    exact hsub'.not_below hO hnd (List.mem_append_right _ hv)

namespace SiblingRuns

variable {a b c d : Nodes} {s t : Node}

/-- The list is well formed. -/
theorem tree (r : SiblingRuns a s b t c d) : Tree (a ++ s :: (b ++ t :: (c ++ d))) :=
  (inPreOrder_iff.mp r.inOrder).1

/-- The family of the first sibling. -/
theorem inSubtree_first (r : SiblingRuns a s b t c d) :
    (∀ q ∈ b, inSubtree s (b ++ t :: (c ++ d)) q = true) ∧
      ∀ q ∈ a ++ t :: (c ++ d), inSubtree s (b ++ t :: (c ++ d)) q = false := by
  have ht := r.tree
  have hf := family_subtree ht
  refine ⟨fun q hq => (hf.eq_true_iff ht (by simp [hq])).mpr (r.first q hq), fun q hq => ?_⟩
  have htout : inSubtree s (b ++ t :: (c ++ d)) t = false :=
    not_inSubtree_sibling ht (by simp) (ne_of_split ht).symm r.siblings.symm
  rcases List.mem_append.mp hq with hq | hq
  · exact not_inSubtree_of_mem_pre ht hq
  · rcases List.mem_cons.mp hq with rfl | hq
    · exact htout
    · -- the second sibling would stand in a subtree it is not in
      by_contra htrue
      rw [Bool.not_eq_false] at htrue
      obtain ⟨c₁, c₂, hc⟩ := List.append_of_mem hq
      have hkeys : (lines (a ++ s :: (b ++ t :: (c ++ d)))).map Line.key =
          a.map Node.id ++ s.id :: ((b ++ t :: c₁).map Node.id ++ q.id :: c₂.map Node.id) := by
        rw [map_key_lines, hc]
        simp
      have hbelow := r.inOrder.contiguous _ _ _ _ _ hkeys
        ((hf.eq_true_iff ht (by simp [hq])).mp htrue) t.id (by simp)
      rw [(hf.eq_true_iff ht (by simp)).mpr hbelow] at htout
      cases htout

/-- The family of the second sibling. -/
theorem inSubtree_second (r : SiblingRuns a s b t c d) :
    (∀ q ∈ c, inSubtree t (c ++ d) q = true) ∧
      ∀ q ∈ (a ++ s :: b) ++ d, inSubtree t (c ++ d) q = false := by
  have hl : a ++ s :: (b ++ t :: (c ++ d)) = (a ++ s :: b) ++ t :: (c ++ d) := by simp
  have ht : Tree ((a ++ s :: b) ++ t :: (c ++ d)) := hl ▸ r.tree
  have hf := family_subtree ht
  refine ⟨fun q hq => ?_, fun q hq => ?_⟩
  · rw [hf.eq_true_iff ht (by simp [hq]), ← hl]
    exact r.second q hq
  · rcases List.mem_append.mp hq with hq | hq
    · exact not_inSubtree_of_mem_pre ht hq
    · rw [← Bool.not_eq_true, hf.eq_true_iff ht (by simp [hq]), ← hl]
      exact r.rest q hq

/-- No row between them is a sibling. -/
theorem ne_parentId (r : SiblingRuns a s b t c d) : ∀ q ∈ b, q.parentId ≠ s.parentId := by
  intro q hq hpar
  have hne : q ≠ s := by
    rintro rfl
    have hnd := r.tree.nodup
    rw [List.nodup_append, List.nodup_cons] at hnd
    exact hnd.2.1.1 (by simp [hq])
  have hout := not_inSubtree_sibling r.tree (by simp [hq]) hne hpar
  rw [r.inSubtree_first.1 q hq] at hout
  cases hout

/-- A move up of the second sibling exchanges them. -/
theorem move_up (r : SiblingRuns a s b t c d) :
    ∃ move, moveAmongSiblings (a ++ s :: (b ++ t :: (c ++ d))) (a ++ s :: b).length true =
        some move ∧
      applyBlockMove move (a ++ s :: (b ++ t :: (c ++ d))) =
        .ok (a ++ t :: (c ++ s :: (b ++ d))) := by
  have hl : a ++ s :: (b ++ t :: (c ++ d)) = (a ++ s :: b) ++ t :: (c ++ d) := by simp
  have hcut : (a ++ s :: b) ++ t :: (c ++ d) = a ++ (s :: b ++ t :: (c ++ d)) := by simp
  have ht : Tree ((a ++ s :: b) ++ t :: (c ++ d)) := hl ▸ r.tree
  obtain ⟨hin, hout⟩ := r.inSubtree_second
  have hb : ∀ q ∈ b, q.parentId ≠ t.parentId := r.siblings ▸ r.ne_parentId
  obtain ⟨move, hm, hblock, hat⟩ := moveAmongSiblings_up ht r.siblings hb
  refine ⟨move, hl ▸ hm, ?_⟩
  have happly := applyBlockMove_family ht hcut hblock hat
  have hfront : a.filter (fun n => !inSubtree t (c ++ d) n) = a :=
    filter_outside fun q hq => hout q (by simp [hq])
  have hback : (s :: b ++ t :: (c ++ d)).filter (fun n => !inSubtree t (c ++ d) n) =
      s :: b ++ d := by
    have hsb : (s :: b).filter (fun n => !inSubtree t (c ++ d) n) = s :: b :=
      filter_outside fun q hq => hout q (by simp only [List.mem_append]; exact .inl (.inr hq))
    have hd : d.filter (fun n => !inSubtree t (c ++ d) n) = d :=
      filter_outside fun q hq => hout q (by simp [hq])
    rw [List.filter_append, hsb, List.filter_cons_of_neg (by simp [(family_subtree ht).head]),
      List.filter_append, filter_inside hin, hd, List.nil_append]
  rw [hfront, hback, (filter_runs ht.nodup (family_subtree ht).head hin hout).2] at happly
  rw [hl, happly]
  simp

/-- So does a move down of the first. -/
theorem move_down (r : SiblingRuns a s b t c d) :
    ∃ move, moveAmongSiblings (a ++ s :: (b ++ t :: (c ++ d))) a.length false = some move ∧
      applyBlockMove move (a ++ s :: (b ++ t :: (c ++ d))) =
        .ok (a ++ t :: (c ++ s :: (b ++ d))) := by
  have ht := r.tree
  have hcut : a ++ s :: (b ++ t :: (c ++ d)) = (a ++ s :: (b ++ t :: c)) ++ d := by simp
  obtain ⟨hin, hout⟩ := r.inSubtree_first
  obtain ⟨hin', hout'⟩ := r.inSubtree_second
  have hlast : ∀ e ∈ (t :: c).getLast?, inSubtree t (c ++ d) e = true := by
    intro e he
    rcases List.mem_cons.mp (List.mem_of_mem_getLast? he) with rfl | hc
    · have hl : a ++ s :: (b ++ e :: (c ++ d)) = (a ++ s :: b) ++ e :: (c ++ d) := by simp
      exact (family_subtree (hl ▸ ht)).head
    · exact hin' e hc
  obtain ⟨move, hm, hblock, hat⟩ := moveAmongSiblings_down ht r.siblings.symm r.ne_parentId hlast
    fun e he => hout' e (List.mem_append_right _ he)
  refine ⟨move, hm, ?_⟩
  have happly := applyBlockMove_family ht hcut hblock hat
  have hhead := (family_subtree ht).head
  have hfront : (a ++ s :: (b ++ t :: c)).filter
      (fun n => !inSubtree s (b ++ t :: (c ++ d)) n) = a ++ t :: c := by
    have ha : a.filter (fun n => !inSubtree s (b ++ t :: (c ++ d)) n) = a :=
      filter_outside fun q hq => hout q (by simp [hq])
    have htc : (t :: c).filter (fun n => !inSubtree s (b ++ t :: (c ++ d)) n) = t :: c := by
      apply filter_outside
      intro q hq
      apply hout
      rw [List.mem_append, ← List.cons_append, List.mem_append]
      exact .inr (.inl hq)
    rw [List.filter_append, List.filter_cons_of_neg (by simp [hhead]), List.filter_append, ha,
      filter_inside hin, htc, List.nil_append]
  have hback : d.filter (fun n => !inSubtree s (b ++ t :: (c ++ d)) n) = d :=
    filter_outside fun q hq => hout q (by simp [hq])
  rw [hfront, hback, (filter_runs ht.nodup hhead hin hout).2] at happly
  rw [happly]
  simp

/-- The siblings after the exchange. -/
theorem symm (r : SiblingRuns a s b t c d) : SiblingRuns a t c s b d := by
  have hsub : lines (a ++ s :: (b ++ t :: (c ++ d))) ⊆ lines (a ++ t :: (c ++ s :: (b ++ d))) := by
    apply List.map_subset
    intro n hn
    simp only [List.mem_append, List.mem_cons] at hn ⊢
    tauto
  have hsub' : lines (a ++ t :: (c ++ s :: (b ++ d))) ⊆ lines (a ++ s :: (b ++ t :: (c ++ d))) := by
    apply List.map_subset
    intro n hn
    simp only [List.mem_append, List.mem_cons] at hn ⊢
    tauto
  refine ⟨r.swapped, r.inOrder, r.siblings.symm, fun q hq => (r.second q hq).mono hsub,
    fun q hq => (r.first q hq).mono hsub, fun q hq hbelow => ?_⟩
  have hout := r.inSubtree_first.2 q (by simp [hq])
  rw [((family_subtree r.tree).eq_true_iff r.tree (by simp [hq])).mpr (hbelow.mono hsub')] at hout
  cases hout

end SiblingRuns

/-- A row that can be moved is next to a sibling with its run. -/
theorem siblingRuns_of_move {pre post : Nodes} {n : Node} (h : InPreOrder (pre ++ n :: post))
    {up : Bool} {move : BlockMove}
    (hm : moveAmongSiblings (pre ++ n :: post) pre.length up = some move) :
    (up = true ∧ ∃ a s b c d, pre = a ++ s :: b ∧ post = c ++ d ∧ SiblingRuns a s b n c d) ∨
      up = false ∧ ∃ b t c d, post = b ++ t :: (c ++ d) ∧ SiblingRuns pre n b t c d := by
  obtain ⟨front, back, -, -, -, hside⟩ := moveAmongSiblings_cases (inPreOrder_iff.mp h).1 hm
  rcases hside with ⟨rfl, s, b, rfl, hs, hb⟩ | ⟨rfl, b, t, c, rfl, -, hs, hb, -⟩
  · have hl : (front ++ s :: b) ++ n :: post = front ++ s :: (b ++ n :: post) := by simp
    obtain ⟨c, d, rfl, r⟩ := exists_siblingRuns (hl ▸ h) hs hb
    exact Or.inl ⟨rfl, front, s, b, c, d, rfl, rfl, r⟩
  · obtain ⟨c', d, hcd, r⟩ := exists_siblingRuns h hs.symm fun q hq => hs ▸ hb q hq
    exact Or.inr ⟨rfl, b, t, c', d, by rw [hcd], r⟩

/-- **A move among siblings keeps the pre-order**, and a move back undoes it. -/
theorem inPreOrder_move {l : Nodes} (h : InPreOrder l) {i : ℕ} {up : Bool} {move : BlockMove}
    (hm : moveAmongSiblings l i up = some move) :
    ∃ l', applyBlockMove move l = .ok l' ∧ InPreOrder l' ∧
      ∃ n i' back, l[i]? = some n ∧ l'[i']? = some n ∧
        moveAmongSiblings l' i' (!up) = some back ∧ applyBlockMove back l' = .ok l := by
  obtain ⟨pre, n, post, rfl, rfl⟩ := split_of_move hm
  have hget : (pre ++ n :: post)[pre.length]? = some n := by simp
  rcases siblingRuns_of_move h hm with ⟨rfl, a, s, b, c, d, rfl, rfl, r⟩ |
    ⟨rfl, b, t, c, d, rfl, r⟩
  · have hl : (a ++ s :: b) ++ n :: (c ++ d) = a ++ s :: (b ++ n :: (c ++ d)) := by simp
    obtain ⟨move', hm', happly⟩ := r.move_up
    rw [hl] at hm
    obtain rfl := Option.some.inj (hm.symm.trans hm')
    obtain ⟨back, hback, hrestore⟩ := r.symm.move_down
    rw [hl] at hget ⊢
    exact ⟨_, happly, r.swapped, n, a.length, back, hget, by simp, hback, hrestore⟩
  · obtain ⟨move', hm', happly⟩ := r.move_down
    obtain rfl := Option.some.inj (hm.symm.trans hm')
    obtain ⟨back, hback, hrestore⟩ := r.symm.move_up
    have hl : pre ++ t :: (c ++ n :: (b ++ d)) = (pre ++ t :: c) ++ n :: (b ++ d) := by simp
    have hget' : (pre ++ t :: (c ++ n :: (b ++ d)))[(pre ++ t :: c).length]? = some n := by
      rw [hl, List.getElem?_append_right le_rfl, Nat.sub_self]
      rfl
    exact ⟨_, happly, r.swapped, n, _, back, hget, hget', hback, hrestore⟩

/-- **Drags and moves keep the pre-order**: whatever row is dropped wherever, and whatever row is
moved either way; a move directly followed by the opposite one restores the list. -/
theorem inPreOrder_kept {l : Nodes} (hpre : InPreOrder l) :
    (∀ x h y a b, l = x ++ h :: y → a ++ b = x ++ y → ∀ oldDepth,
      ∃ fix l', normalizeAfterDrag (a ++ h :: b) a.length oldDepth = .ok (some fix) ∧
        applyBlockMove fix.move (a ++ h.withParent fix.headParentId :: b) = .ok l' ∧
        InPreOrder l') ∧
    ∀ i up move, moveAmongSiblings l i up = some move →
      ∃ l', applyBlockMove move l = .ok l' ∧ InPreOrder l' ∧
        ∃ n i' back, l[i]? = some n ∧ l'[i']? = some n ∧
          moveAmongSiblings l' i' (!up) = some back ∧ applyBlockMove back l' = .ok l := by
  refine ⟨fun x h y a b hl hab oldDepth => ?_, fun i up move hm => inPreOrder_move hpre hm⟩
  exact inPreOrder_drag (hl ▸ hpre) hab oldDepth

/-- A session with a child, and a session behind them. -/
def twoFamilies : Nodes :=
  [⟨L "a", [], false⟩, ⟨L "b", L "a", false⟩, ⟨L "c", [], false⟩]

/-- Two families, one behind the other. -/
theorem inPreOrder_twoFamilies : InPreOrder twoFamilies := by
  have ht : Tree twoFamilies := (tree_iff _).mpr ⟨by decide, by decide, by decide⟩
  apply inPreOrder_of_outline ht (O := [(L "a", []), (L "b", [L "a"]), (L "c", [])])
  · exact ⟨List.nil_suffix, List.suffix_rfl, List.nil_suffix, trivial⟩
  · decide

theorem inPreOrder_kept_twoFamilies :
    (∃ fix l', normalizeAfterDrag
        [⟨L "b", L "a", false⟩, ⟨L "a", [], false⟩, ⟨L "c", [], false⟩] 1 0 = .ok (some fix) ∧
      applyBlockMove fix.move
        [⟨L "b", L "a", false⟩, ⟨L "a", fix.headParentId, false⟩, ⟨L "c", [], false⟩] = .ok l' ∧
      InPreOrder l') ∧
    ∃ l', applyBlockMove ⟨[0, 1], 1⟩ twoFamilies = .ok l' ∧ InPreOrder l' ∧
      ∃ n i' back, twoFamilies[0]? = some n ∧ l'[i']? = some n ∧
        moveAmongSiblings l' i' true = some back ∧ applyBlockMove back l' = .ok twoFamilies :=
  ⟨(inPreOrder_kept inPreOrder_twoFamilies).1 [] ⟨L "a", [], false⟩
      [⟨L "b", L "a", false⟩, ⟨L "c", [], false⟩] [⟨L "b", L "a", false⟩] [⟨L "c", [], false⟩]
      rfl rfl 0,
    (inPreOrder_kept inPreOrder_twoFamilies).2 0 false ⟨[0, 1], 1⟩ (by decide)⟩

end Axan.EntryTree
