import Axan.Base.Lines

/-!
# Cutting a tree out of a forest and grafting it elsewhere

* `treeAt`, `cut` — the tree at a node, and the forest without it.
* `graftBefore`, `graftAfter`, `graftUnder` — another tree as the sibling in front of a node, as the
  sibling behind it, or as its last child.
* `SubtreeAt.unique` — a subtree is in one place of an outline.
* `exists_outline_rewriteAt` — all of them rewrite a forest at one node; from it follow the outlines
  they write (`outline_cut`, `outline_graftBefore` and so on).
* `SubtreeAt.cut_other` — another subtree, when one is cut out.
* `outline_contract_ne` — the outline without a node whose children take its place.
-/

namespace Axan.Base.Forest

variable {κ : Type}

/-! ### Where a subtree is -/

/-- A list cuts into a part with a property and a rest that starts without it in one way. -/
theorem append_unique {α : Type} {P : α → Prop} {B C B' C' : List α} (h : B ++ C = B' ++ C')
    (hB : ∀ r ∈ B, P r) (hC : ∀ r ∈ C.head?, ¬P r) (hB' : ∀ r ∈ B', P r)
    (hC' : ∀ r ∈ C'.head?, ¬P r) : B = B' ∧ C = C' := by
  rcases List.append_eq_append_iff.mp h with ⟨D, rfl, rfl⟩ | ⟨D, rfl, rfl⟩
  · cases D with
    | nil => exact ⟨(List.append_nil B).symm, rfl⟩
    | cons r D => exact absurd (hB' r (by simp)) (hC r rfl)
  · cases D with
    | nil => exact ⟨List.append_nil B', rfl⟩
    | cons r D => exact absurd (hB r (by simp)) (hC' r rfl)

namespace SubtreeAt

variable {O A B C : List (κ × List κ)} {a : κ} {up : List κ}

/-- What follows a subtree hangs no deeper than its root. -/
theorem not_below_head (h : SubtreeAt O a up A B C) : ∀ r ∈ C.head?, ¬a :: up <:+ r.2 := by
  intro r hr hsuffix
  have hlen := (hsuffix.trans (h.behind.head r hr)).length_le
  rw [List.length_cons] at hlen
  omega

/-- **A subtree is in one place of an outline.** -/
theorem unique {up' : List κ} {A' B' C' : List (κ × List κ)} (h : SubtreeAt O a up A B C)
    (h' : SubtreeAt O a up' A' B' C') (hnd : (O.map Prod.fst).Nodup) :
    up = up' ∧ A = A' ∧ B = B' ∧ C = C' := by
  obtain rfl := eq_of_mem_of_nodup hnd h.mem h'.mem
  have hO := List.Nodup.of_map Prod.fst hnd
  rw [h.eq, List.nodup_append, List.nodup_cons] at hO
  have hA : (a, up) ∉ A := fun hmem => hO.2.2 _ hmem _ List.mem_cons_self rfl
  obtain ⟨rfl, -, hrest⟩ :=
    (List.append_cons_inj_of_notMem hA hO.2.1.1).mp (h.eq.symm.trans h'.eq)
  obtain ⟨rfl, rfl⟩ := append_unique hrest h.below h.not_below_head h'.below h'.not_below_head
  exact ⟨rfl, rfl, rfl, rfl⟩

end SubtreeAt

/-! ### Rewriting a forest at a node -/

variable [DecidableEq κ]

/-- Rewrite the first tree of a forest, and its later siblings, where it is the tree at `k`. -/
def rewriteAt (k : κ) (f : Forest κ → Forest κ → Forest κ) : Forest κ → Forest κ
  | nil => nil
  | node a c s => if a = k then f c s else node a (rewriteAt k f c) (rewriteAt k f s)

/-- The tree at a node. -/
def treeAt (k : κ) : Forest κ → Forest κ
  | nil => nil
  | node a c s => if a = k then node a c nil else treeAt k c ++ treeAt k s

/-- The forest without the tree at a node. -/
def cut (k : κ) : Forest κ → Forest κ := rewriteAt k fun _ s => s

/-- A tree as the sibling in front of a node. -/
def graftBefore (t : κ) (T : Forest κ) : Forest κ → Forest κ :=
  rewriteAt t fun c s => T ++ node t c s

/-- A tree as the sibling behind a node. -/
def graftAfter (t : κ) (T : Forest κ) : Forest κ → Forest κ :=
  rewriteAt t fun c s => node t c (T ++ s)

/-- A tree as the last child of a node. -/
def graftUnder (t : κ) (T : Forest κ) : Forest κ → Forest κ :=
  rewriteAt t fun c s => node t (c ++ T) s

/-- Rewriting a node that is not there changes nothing. -/
theorem rewriteAt_of_not_mem {k : κ} {f : Forest κ → Forest κ → Forest κ} {F : Forest κ}
    (h : k ∉ preorder F) : rewriteAt k f F = F := by
  induction F with
  | nil => rfl
  | node a c s ihc ihs =>
      rw [preorder, List.mem_cons, List.mem_append, not_or, not_or] at h
      rw [rewriteAt, if_neg (Ne.symm h.1), ihc h.2.1, ihs h.2.2]

/-- A node that is not there has no tree. -/
theorem treeAt_of_not_mem {k : κ} {F : Forest κ} (h : k ∉ preorder F) : treeAt k F = nil := by
  induction F with
  | nil => rfl
  | node a c s ihc ihs =>
      rw [preorder, List.mem_cons, List.mem_append, not_or, not_or] at h
      rw [treeAt, if_neg (Ne.symm h.1), ihc h.2.1, ihs h.2.2, nil_append]

/-- **A forest at one of its nodes**: what is in front of the tree, its children, its later
siblings, and what is behind them. Rewriting there leaves the rest. -/
theorem exists_outline_rewriteAt {k : κ} {F : Forest κ} (hF : (preorder F).Nodup)
    (hk : k ∈ preorder F) (path : List κ) : ∃ up X c s Z,
      path <:+ up ∧ IsOutline up Z ∧ (∀ r ∈ Z, path <:+ r.2) ∧
      outline path F = X ++ (outline up (node k c s) ++ Z) ∧ treeAt k F = node k c nil ∧
      ∀ f, outline path (rewriteAt k f F) = X ++ (outline up (f c s) ++ Z) := by
  induction F generalizing path with
  | nil => cases hk
  | node a c s ihc ihs =>
      rw [preorder, List.nodup_cons, List.nodup_append', List.mem_append, not_or] at hF
      obtain ⟨⟨hac, has⟩, hc, hs, hdisj⟩ := hF
      by_cases ha : a = k
      · subst ha
        exact ⟨path, [], c, s, [], List.suffix_rfl, trivial, by simp, by simp,
          by rw [treeAt, if_pos rfl], fun f => by rw [rewriteAt, if_pos rfl]; simp⟩
      · rcases List.mem_append.mp ((List.mem_cons.mp hk).resolve_left (Ne.symm ha)) with hkc | hks
        · obtain ⟨up, X, c', s', Z, hup, hZ, hsub, hout, htree, hrew⟩ := ihc hc hkc (a :: path)
          have hks : k ∉ preorder s := fun h => hdisj hkc h
          have hpath := (List.suffix_cons a path).trans hup
          refine ⟨up, (a, path) :: X, c', s', Z ++ outline path s, hpath, ?_, ?_, ?_, ?_, ?_⟩
          · refine isOutline_append.mpr ⟨hZ, isOutline_outline ?_ s⟩
            exact suffix_openPath hpath fun r hr => (List.suffix_cons a path).trans (hsub r hr)
          · intro r hr
            rcases List.mem_append.mp hr with hr | hr
            · exact (List.suffix_cons a path).trans (hsub r hr)
            · exact suffix_of_mem_outline hr
          · rw [outline, hout]
            simp
          · rw [treeAt, if_neg ha, htree, treeAt_of_not_mem hks, append_nil]
          · intro f
            rw [rewriteAt, if_neg ha, outline, hrew f, rewriteAt_of_not_mem hks]
            simp
        · obtain ⟨up, X, c', s', Z, hup, hZ, hsub, hout, htree, hrew⟩ := ihs hs hks path
          have hkc : k ∉ preorder c := fun h => hdisj h hks
          refine ⟨up, (a, path) :: (outline (a :: path) c ++ X), c', s', Z, hup, hZ, hsub, ?_, ?_, ?_⟩
          · rw [outline, hout]
            simp
          · rw [treeAt, if_neg ha, htree, treeAt_of_not_mem hkc, nil_append]
          · intro f
            rw [rewriteAt, if_neg ha, outline, hrew f, rewriteAt_of_not_mem hkc]
            simp

section outlines

variable {F : Forest κ} {k : κ} {up : List κ} {A B C : List (κ × List κ)}

/-- The same at a subtree of the outline. -/
theorem outline_rewriteAt (hF : (preorder F).Nodup) (h : SubtreeAt (outline [] F) k up A B C) :
    ∃ c s Z, B = outline (k :: up) c ∧ C = outline up s ++ Z ∧ treeAt k F = node k c nil ∧
      ∀ f, outline [] (rewriteAt k f F) = A ++ (outline up (f c s) ++ Z) := by
  have hnd : ((outline [] F).map Prod.fst).Nodup := by rwa [← preorder_eq_map]
  have hk : k ∈ preorder F := by
    rw [preorder_eq_map []]
    exact List.mem_map_of_mem h.mem
  obtain ⟨up', X, c, s, Z, -, hZ, -, hout, htree, hrew⟩ := exists_outline_rewriteAt hF hk []
  have hwhole : IsOutline [] (outline [] F) := isOutline_outline List.suffix_rfl F
  have h' : SubtreeAt (outline [] F) k up' X (outline (k :: up') c) (outline up' s ++ Z) := by
    rw [hout, isOutline_append] at hwhole
    refine ⟨?_, hwhole.1, hwhole.2.1, fun r hr => suffix_of_mem_outline hr,
      isOutline_outline List.suffix_rfl c, ?_⟩
    · rw [hout, outline]
      simp
    · refine isOutline_append.mpr ⟨isOutline_outline List.suffix_rfl s, hZ.mono ?_⟩
      exact suffix_openPath List.suffix_rfl fun r hr => suffix_of_mem_outline hr
  obtain ⟨rfl, rfl, rfl, rfl⟩ := h.unique h' hnd
  exact ⟨c, s, Z, rfl, rfl, htree, hrew⟩

/-- Cutting a node takes its interval out of the outline. -/
theorem outline_cut (hF : (preorder F).Nodup) (h : SubtreeAt (outline [] F) k up A B C) :
    outline [] (cut k F) = A ++ C := by
  obtain ⟨c, s, Z, -, rfl, -, hrew⟩ := outline_rewriteAt hF h
  exact hrew _

/-- A tree in front of a node has the node's ancestors. -/
theorem outline_graftBefore (hF : (preorder F).Nodup)
    (h : SubtreeAt (outline [] F) k up A B C) (T : Forest κ) :
    outline [] (graftBefore k T F) = A ++ (outline up T ++ (k, up) :: (B ++ C)) := by
  obtain ⟨c, s, Z, rfl, rfl, -, hrew⟩ := outline_rewriteAt hF h
  rw [graftBefore, hrew, outline_append, outline]
  simp

/-- A tree behind a node comes behind its subtree. -/
theorem outline_graftAfter (hF : (preorder F).Nodup)
    (h : SubtreeAt (outline [] F) k up A B C) (T : Forest κ) :
    outline [] (graftAfter k T F) = A ++ (k, up) :: (B ++ (outline up T ++ C)) := by
  obtain ⟨c, s, Z, rfl, rfl, -, hrew⟩ := outline_rewriteAt hF h
  rw [graftAfter, hrew, outline, outline_append]
  simp

/-- A tree under a node becomes its last child. -/
theorem outline_graftUnder (hF : (preorder F).Nodup)
    (h : SubtreeAt (outline [] F) k up A B C) (T : Forest κ) :
    outline [] (graftUnder k T F) = A ++ (k, up) :: (B ++ (outline (k :: up) T ++ C)) := by
  obtain ⟨c, s, Z, rfl, rfl, -, hrew⟩ := outline_rewriteAt hF h
  rw [graftUnder, hrew, outline, outline_append]
  simp

omit [DecidableEq κ] in
/-- Writing a forest at another path hangs its lines there. -/
theorem outline_rebase (S u u' : List κ) (F : Forest κ) :
    (outline (S ++ u) F).map (rebase u.length u') = outline (S ++ u') F := by
  induction F generalizing S with
  | nil => rfl
  | node a c s ihc ihs =>
      have hc := ihc (a :: S)
      rw [List.cons_append, List.cons_append] at hc
      rw [outline, List.map_cons, rebase_append, List.map_append, hc, ihs, outline]

/-- The tree at a node, hung elsewhere. -/
theorem outline_treeAt (hF : (preorder F).Nodup) (h : SubtreeAt (outline [] F) k up A B C)
    (u : List κ) : outline u (treeAt k F) = SubtreeAt.hung k up B u := by
  obtain ⟨c, s, Z, rfl, -, htree, -⟩ := outline_rewriteAt hF h
  have hrebase := outline_rebase [] (k :: up) (k :: u) c
  rw [List.nil_append, List.nil_append] at hrebase
  rw [htree, SubtreeAt.hung, hrebase, outline, outline, List.append_nil]

/-- The nodes of a tree. -/
theorem preorder_treeAt (hF : (preorder F).Nodup) (h : SubtreeAt (outline [] F) k up A B C) :
    preorder (treeAt k F) = k :: B.map Prod.fst := by
  rw [preorder_eq_map [], outline_treeAt hF h, SubtreeAt.map_fst_hung]

end outlines

/-! ### Outlines without a subtree -/

namespace SubtreeAt

variable {O A B C : List (κ × List κ)} {a : κ} {up : List κ}

omit [DecidableEq κ] in
/-- A subtree hung where it is. -/
theorem hung_self (h : SubtreeAt O a up A B C) : hung a up B up = (a, up) :: B := by
  have hB : ∀ r ∈ B, rebase (a :: up).length (a :: up) r = r := by
    intro r hr
    obtain ⟨S, hS⟩ := h.below r hr
    have hr' : r = (r.1, S ++ a :: up) := Prod.ext rfl hS.symm
    rw [hr', rebase_append]
  rw [hung, List.map_congr_left hB, List.map_id']

/-- Is the line outside the subtree of `a`? -/
def outside (a : κ) (B : List (κ × List κ)) (r : κ × List κ) : Bool := r.1 ∉ a :: B.map Prod.fst

/-- What is in front of a subtree or behind it is outside. -/
theorem outside_of_mem (h : SubtreeAt O a up A B C) (hnd : (O.map Prod.fst).Nodup)
    {r : κ × List κ} (hr : r ∈ A ++ C) : outside a B r = true := by
  have hkeys := h.nodup_keys hnd
  rw [List.nodup_append, List.nodup_cons, List.mem_append, not_or, List.nodup_append] at hkeys
  refine decide_eq_true fun hmem => ?_
  rcases List.mem_append.mp hr with hr | hr
  · refine hkeys.2.2 r.1 (List.mem_map_of_mem hr) r.1 ?_ rfl
    rcases List.mem_cons.mp hmem with heq | hB
    · exact heq ▸ List.mem_cons_self
    · exact List.mem_cons_of_mem _ (List.mem_append_left _ hB)
  · rcases List.mem_cons.mp hmem with heq | hB
    · exact hkeys.2.1.1.2 (heq ▸ List.mem_map_of_mem hr)
    · exact hkeys.2.1.2.2.2 r.1 hB r.1 (List.mem_map_of_mem hr) rfl

/-- What is outside of the subtree stays. -/
theorem filter_of_subset (h : SubtreeAt O a up A B C) (hnd : (O.map Prod.fst).Nodup)
    {X : List (κ × List κ)} (hX : X ⊆ A ++ C) : X.filter (outside a B) = X :=
  List.filter_eq_self.mpr fun _ hr => h.outside_of_mem hnd (hX hr)

/-- The hung tree is all inside. -/
theorem filter_hung (a : κ) (up : List κ) (B : List (κ × List κ)) (u : List κ) :
    (hung a up B u).filter (outside a B) = [] := by
  apply List.filter_eq_nil_iff.mpr
  intro r hr
  have hmem : r.1 ∈ (hung a up B u).map Prod.fst := List.mem_map_of_mem hr
  rw [map_fst_hung] at hmem
  simp [outside, hmem]

/-- The subtree itself is all inside. -/
theorem filter_subtree (a : κ) (up : List κ) (B : List (κ × List κ)) :
    ((a, up) :: B).filter (outside a B) = [] := by
  apply List.filter_eq_nil_iff.mpr
  intro r hr
  have hmem : r.1 ∈ ((a, up) :: B).map Prod.fst := List.mem_map_of_mem hr
  rw [List.map_cons] at hmem
  simp [outside, hmem]

/-- The outline without the subtree. -/
theorem filter_outside (h : SubtreeAt O a up A B C) (hnd : (O.map Prod.fst).Nodup) :
    O.filter (outside a B) = A ++ C := by
  have hO : O = A ++ (((a, up) :: B) ++ C) := h.eq
  rw [hO, List.filter_append, List.filter_append, filter_subtree, List.nil_append,
    h.filter_of_subset hnd (List.subset_append_left A C),
    h.filter_of_subset hnd (List.subset_append_right A C)]

/-- **Another subtree, when this one is cut out.** -/
theorem cut_other {t : κ} {ut : List κ} {At Bt Ct : List (κ × List κ)}
    (h : SubtreeAt O a up A B C) (ht : SubtreeAt O t ut At Bt Ct) (hO : IsOutline [] O)
    (hnd : (O.map Prod.fst).Nodup) (hta : t ∉ a :: B.map Prod.fst) :
    SubtreeAt (A ++ C) t ut (At.filter (outside a B)) (Bt.filter (outside a B))
      (Ct.filter (outside a B)) := by
  have hout : outside a B (t, ut) = true := decide_eq_true hta
  have heq : A ++ C = At.filter (outside a B) ++
      (t, ut) :: (Bt.filter (outside a B) ++ Ct.filter (outside a B)) := by
    rw [← h.filter_outside hnd, ht.eq, List.filter_append,
      List.filter_cons_of_pos hout, List.filter_append]
  have hrest := h.isOutline_rest
  rw [heq] at hrest
  obtain ⟨B', C', h'⟩ := hrest.subtreeAt_of_split
  have hsplit := (List.append_cancel_left h'.eq.symm)
  have hbehind : ∀ r ∈ Ct, t ∉ r.2 := by
    intro r hr hmem
    have hmemO : r ∈ O := by
      rw [ht.eq]
      simp [hr]
    have hrB := (ht.mem_ancestors_iff hO hnd hmemO).mp hmem
    have hkeys := ht.nodup_keys hnd
    rw [List.nodup_append, List.nodup_cons, List.nodup_append] at hkeys
    exact hkeys.2.1.2.2.2 r.1 (List.mem_map_of_mem hrB) r.1 (List.mem_map_of_mem hr) rfl
  obtain ⟨rfl, rfl⟩ := append_unique (List.cons.inj hsplit).2 h'.below h'.not_below_head
    (fun r hr => ht.below r (List.mem_filter.mp hr).1) (by
      intro r hr hsub
      exact hbehind r (List.mem_filter.mp (List.mem_of_mem_head? hr)).1
        (hsub.mem List.mem_cons_self))
  rwa [heq]

end SubtreeAt

/-! ### Contraction at a node -/

/-- A node is met once on the way up: in front of its own ancestors the path is free of it. -/
theorem SubtreeAt.filter_ancestors {F : Forest κ} {a : κ} {up : List κ}
    {A B C : List (κ × List κ)} (hF : (preorder F).Nodup)
    (h : SubtreeAt (outline [] F) a up A B C) {r : κ × List κ} (hr : r ∈ B) :
    (r.1, r.2.filter (· ≠ a)) = rebase (a :: up).length up r := by
  have hO : IsOutline [] (outline [] F) := isOutline_outline List.suffix_rfl F
  have hnd : ((outline [] F).map Prod.fst).Nodup := by rwa [← preorder_eq_map]
  have hrO : r ∈ outline [] F := by
    rw [h.eq]
    simp [hr]
  have hself : ∀ u : List κ, a ∉ u → u.filter (· ≠ a) = u := fun u hu =>
    List.filter_eq_self.mpr fun x hx => decide_eq_true fun hxa => hu (hxa ▸ hx)
  obtain ⟨S, hS⟩ := h.below r hr
  have hSa : a ∉ S := by
    intro hmem
    obtain ⟨T, T', rfl⟩ := List.append_of_mem hmem
    have hT : a :: (T' ++ a :: up) <:+ r.2 := ⟨T, by rw [← hS]; simp⟩
    have hlen := congrArg List.length (hO.eq_of_suffix hnd h.mem hrO hT)
    rw [List.length_append, List.length_cons] at hlen
    omega
  have hr' : r = (r.1, S ++ a :: up) := Prod.ext rfl hS.symm
  rw [hr', rebase_append, List.filter_append, hself S hSa, List.filter_cons_of_neg (by simp),
    hself up (hO.not_mem_self hnd h.mem)]

/-- **Contracting a forest at a node hangs the nodes below it one level higher.** -/
theorem outline_contract_ne {F : Forest κ} {a : κ} {up : List κ} {A B C : List (κ × List κ)}
    (hF : (preorder F).Nodup) (h : SubtreeAt (outline [] F) a up A B C) :
    outline [] (contract (· ≠ a) F) = A ++ (B.map (rebase (a :: up).length up) ++ C) := by
  have hO : IsOutline [] (outline [] F) := isOutline_outline List.suffix_rfl F
  have hnd : ((outline [] F).map Prod.fst).Nodup := by rwa [← preorder_eq_map]
  have hkeys := h.nodup_keys hnd
  rw [List.nodup_append, List.nodup_cons, List.mem_append, not_or] at hkeys
  have hne : ∀ X : List (κ × List κ), a ∉ X.map Prod.fst →
      X.filter (fun r => decide (r.1 ≠ a)) = X := fun X hX =>
    List.filter_eq_self.mpr fun r hr =>
      decide_eq_true fun hra => hX (hra ▸ List.mem_map_of_mem hr)
  have hA : a ∉ A.map Prod.fst := fun hmem =>
    hkeys.2.2 a hmem a List.mem_cons_self rfl
  have hfar : ∀ X : List (κ × List κ), X ⊆ A ++ C →
      X.map (fun r => (r.1, r.2.filter (· ≠ a))) = X := by
    intro X hX
    conv_rhs => rw [← List.map_id X]
    apply List.map_congr_left
    intro r hr
    have hrO : r ∈ outline [] F := by
      rw [h.eq]
      rcases List.mem_append.mp (hX hr) with hrA | hrC
      · simp [hrA]
      · simp [hrC]
    have hrB : r ∉ B := fun hB => of_decide_eq_true (h.outside_of_mem hnd (hX hr))
      (List.mem_cons_of_mem _ (List.mem_map_of_mem hB))
    have hfilter : r.2.filter (· ≠ a) = r.2 := List.filter_eq_self.mpr fun x hx =>
      decide_eq_true fun hxa => hrB ((h.mem_ancestors_iff hO hnd hrO).mp (hxa ▸ hx))
    rw [hfilter]
    rfl
  have hcontract := outline_contract (fun x => decide (x ≠ a)) [] F
  rw [List.filter_nil] at hcontract
  rw [hcontract, h.eq, List.filter_append, List.filter_cons_of_neg (by simp), List.filter_append,
    hne A hA, hne B hkeys.2.1.1.1, hne C hkeys.2.1.1.2, List.map_append, List.map_append,
    hfar A (List.subset_append_left A C), hfar C (List.subset_append_right A C),
    List.map_congr_left fun r hr => h.filter_ancestors hF hr]

end Axan.Base.Forest
