import Axan.Base.Outline
import Axan.Base.Scope

/-!
# Moving a subtree

A node leaves its container with all that hangs under it, and is put into another one.

* `removeTree`, `insertTree` — the two halves; `removeTree_eq`, `without_insertTree` and
  `treeOf_insertTree` say that one undoes the other.
* `Relocates` — the forests differ by where the tree of one node is: the nodes are the same, and
  every scope has its other children in the same order. `relocates_of_without` gets it from the
  halves, `childrenIn_insertTree` says where the node is.
* `Leafy` — no marked node is above another node; `leafy_iff` says it scope by scope.
-/

set_option linter.unusedSectionVars false

namespace Axan.Base.Forest

variable {α κ : Type} [DecidableEq κ] (key : α → κ)

/-! ### The two halves -/

/-- The forest without the tree of a node. -/
def without (k : κ) : Forest α → Forest α
  | nil => nil
  | node a c s => if key a = k then s else node a (without k c) (without k s)

/-- A node with what hangs under it. -/
def treeOf (k : κ) : Forest α → Option (α × Forest α)
  | nil => none
  | node a c s => if key a = k then some (a, c) else (treeOf k c).or (treeOf k s)

/-- Take out the tree at an index. -/
def eraseTreeAt (i : ℕ) (F : Forest α) : Forest α := ofTrees ((trees F).eraseIdx i)

/-- Put in a tree at an index. -/
def insertTreeAt (i : ℕ) (t : α × Forest α) (F : Forest α) : Forest α :=
  ofTrees ((trees F).insertIdx i t)

/-- Take a node out of its container, with what hangs under it. -/
def removeTree (k : κ) (F : Forest α) : Forest α :=
  match locate key k F with
  | none => F
  | some (q, i) => modifyIn key q (eraseTreeAt i) F

/-- Put a tree into the container of a scope. -/
def insertTree (q : Option κ) (i : ℕ) (t : α × Forest α) (F : Forest α) : Forest α :=
  modifyIn key q (insertTreeAt i t) F

variable {key}

theorem eraseTreeAt_succ (i : ℕ) (a : α) (c s : Forest α) :
    eraseTreeAt (i + 1) (node a c s) = node a c (eraseTreeAt i s) := rfl

theorem eraseTreeAt_zero (a : α) (c s : Forest α) : eraseTreeAt 0 (node a c s) = s := by
  rw [eraseTreeAt, trees, List.eraseIdx_cons_zero, ofTrees_trees]

theorem insertTreeAt_succ (i : ℕ) (t : α × Forest α) (a : α) (c s : Forest α) :
    insertTreeAt (i + 1) t (node a c s) = node a c (insertTreeAt i t s) := by
  rw [insertTreeAt, trees, List.insertIdx_succ_cons, ofTrees, insertTreeAt]

theorem insertTreeAt_zero (t : α × Forest α) (F : Forest α) :
    insertTreeAt 0 t F = node t.1 t.2 F := by
  rw [insertTreeAt, List.insertIdx_zero, ofTrees, ofTrees_trees]

/-- The root of the tree is inserted among the roots. -/
theorem roots_insertTreeAt (i : ℕ) (t : α × Forest α) (F : Forest α) :
    roots (insertTreeAt i t F) = (roots F).insertIdx i t.1 := by
  rw [roots_eq_map, roots_eq_map, insertTreeAt, trees_ofTrees, List.map_insertIdx]

/-- Taking out a node that is not there changes nothing. -/
theorem without_of_not_mem {k : κ} {F : Forest α} (h : k ∉ keys key F) : without key k F = F := by
  induction F with
  | nil => rfl
  | node a c s ihc ihs =>
      rw [keys_node, List.mem_cons, List.mem_append, not_or, not_or] at h
      rw [without, if_neg (Ne.symm h.1), ihc h.2.1, ihs h.2.2]

/-- A node that is not there has no tree. -/
theorem treeOf_of_not_mem {k : κ} {F : Forest α} (h : k ∉ keys key F) : treeOf key k F = none := by
  induction F with
  | nil => rfl
  | node a c s ihc ihs =>
      rw [keys_node, List.mem_cons, List.mem_append, not_or, not_or] at h
      rw [treeOf, if_neg (Ne.symm h.1), ihc h.2.1, ihs h.2.2]
      rfl

/-- The tree of a node is part of the forest. -/
theorem treeOf_spec {k : κ} {t : α × Forest α} {F : Forest α} (h : treeOf key k F = some t) :
    key t.1 = k ∧ t.1 ∈ preorder F ∧ ∀ a ∈ preorder t.2, a ∈ preorder F := by
  induction F with
  | nil => cases h
  | node a c s ihc ihs =>
      simp only [preorder, List.mem_cons, List.mem_append]
      rw [treeOf] at h
      by_cases ha : key a = k
      · rw [if_pos ha, Option.some.injEq] at h
        subst h
        exact ⟨ha, Or.inl rfl, fun b hb => Or.inr (Or.inl hb)⟩
      · rw [if_neg ha, Option.or_eq_some_iff] at h
        rcases h with h | ⟨-, h⟩
        · obtain ⟨hk, ht, hsub⟩ := ihc h
          exact ⟨hk, Or.inr (Or.inl ht), fun b hb => Or.inr (Or.inl (hsub b hb))⟩
        · obtain ⟨hk, ht, hsub⟩ := ihs h
          exact ⟨hk, Or.inr (Or.inr ht), fun b hb => Or.inr (Or.inr (hsub b hb))⟩

/-- Every node has a tree. -/
theorem exists_treeOf {k : κ} {F : Forest α} (h : k ∈ keys key F) :
    ∃ t, treeOf key k F = some t := by
  induction F with
  | nil => cases h
  | node a c s ihc ihs =>
      rw [treeOf]
      by_cases ha : key a = k
      · exact ⟨(a, c), if_pos ha⟩
      · rw [if_neg ha]
        rw [keys_node, List.mem_cons, List.mem_append] at h
        rcases h with h | h | h
        · exact absurd h.symm ha
        · obtain ⟨t, ht⟩ := ihc h
          exact ⟨t, by rw [ht]; rfl⟩
        · cases hc : treeOf key k c with
          | some t => exact ⟨t, rfl⟩
          | none =>
              obtain ⟨t, ht⟩ := ihs h
              exact ⟨t, by rw [ht]; rfl⟩

/-- The node of a row is one of the forest. -/
theorem mem_keys_of_mem_outline {up : List α} {F : Forest α} {r : α × List α}
    (hr : r ∈ outline up F) : key r.1 ∈ keys key F := by
  rw [keys, preorder_eq_map up, List.map_map]
  exact List.mem_map_of_mem hr

/-- A node that is not there is above no other. -/
theorem not_above_of_not_mem {k : κ} {up : List α} {F : Forest α} (hup : k ∉ up.map key)
    (hF : k ∉ keys key F) {r : α × List α} (hr : r ∈ outline up F) : k ∉ r.2.map key := by
  intro hk
  obtain ⟨a, ha, rfl⟩ := List.mem_map.mp hk
  rcases before_of_mem_outline hr ha with h | h
  · exact hup (List.mem_map_of_mem h)
  · exact hF (mem_keys_of_mem (h.subset List.mem_cons_self))

/-- What hangs under a node are the nodes it is an ancestor of. -/
theorem mem_treeOf_iff {k : κ} {t : α × Forest α} {F : Forest α} (hF : (keys key F).Nodup)
    (h : treeOf key k F = some t) {up : List α} (hup : k ∉ up.map key) {r : α × List α}
    (hr : r ∈ outline up F) : key r.1 ∈ keys key t.2 ↔ k ∈ r.2.map key := by
  induction F generalizing up with
  | nil => cases h
  | node a c s ihc ihs =>
      obtain ⟨⟨hac, has⟩, hc, hs, hdisj⟩ := nodup_node hF
      rw [outline, List.mem_cons, List.mem_append] at hr
      rw [treeOf] at h
      by_cases ha : key a = k
      · rw [if_pos ha, Option.some.injEq] at h
        subst h ha
        rcases hr with rfl | hr | hr
        · exact iff_of_false (foreign_some.mp hac) hup
        · apply iff_of_true (mem_keys_of_mem_outline hr)
          exact List.mem_map_of_mem ((suffix_of_mem_outline hr).subset List.mem_cons_self)
        · apply iff_of_false
          · exact fun hmem => hdisj hmem (mem_keys_of_mem_outline hr)
          · exact not_above_of_not_mem hup (foreign_some.mp has) hr
      · have hup' : k ∉ (a :: up).map key := by
          rw [List.map_cons, List.mem_cons, not_or]
          exact ⟨Ne.symm ha, hup⟩
        rw [if_neg ha, Option.or_eq_some_iff] at h
        rcases h with h | ⟨-, h⟩
        · -- the tree is below `a`
          obtain ⟨hk, ht, hsub⟩ := treeOf_spec h
          have hkc : k ∈ keys key c := hk ▸ mem_keys_of_mem ht
          have hsubc : ∀ j ∈ keys key t.2, j ∈ keys key c := by
            intro j hj
            obtain ⟨b, hb, rfl⟩ := List.mem_map.mp hj
            exact mem_keys_of_mem (hsub b hb)
          rcases hr with rfl | hr | hr
          · exact iff_of_false (fun hmem => foreign_some.mp hac (hsubc _ hmem)) hup
          · exact ihc hc h hup' hr
          · apply iff_of_false
            · exact fun hmem => hdisj (hsubc _ hmem) (mem_keys_of_mem_outline hr)
            · exact not_above_of_not_mem hup (fun hks => hdisj hkc hks) hr
        · obtain ⟨hk, ht, hsub⟩ := treeOf_spec h
          have hks : k ∈ keys key s := hk ▸ mem_keys_of_mem ht
          have hsubs : ∀ j ∈ keys key t.2, j ∈ keys key s := by
            intro j hj
            obtain ⟨b, hb, rfl⟩ := List.mem_map.mp hj
            exact mem_keys_of_mem (hsub b hb)
          rcases hr with rfl | hr | hr
          · exact iff_of_false (fun hmem => foreign_some.mp has (hsubs _ hmem)) hup
          · apply iff_of_false
            · exact fun hmem => hdisj (mem_keys_of_mem_outline hr) (hsubs _ hmem)
            · exact not_above_of_not_mem hup' (fun hkc => hdisj hkc hks) hr
          · exact ihs hs h hup hr

/-! ### Taking a tree out -/

/-- Erasing the tree at the index of a root takes that root out. -/
theorem eraseTreeAt_eq_without {k : κ} {i : ℕ} {F : Forest α} (hF : (keys key F).Nodup)
    (h : ((roots F).findIdx? fun b => key b = k) = some i) :
    eraseTreeAt i F = without key k F := by
  induction F generalizing i with
  | nil => cases h
  | node a c s _ ihs =>
      obtain ⟨-, -, hs, hdisj⟩ := nodup_node hF
      rw [roots, List.findIdx?_cons] at h
      by_cases ha : key a = k
      · simp only [ha, decide_true, if_true, Option.some.injEq] at h
        subst h
        rw [eraseTreeAt_zero, without, if_pos ha]
      · simp only [ha, decide_false, Bool.false_eq_true, if_false, Option.map_eq_some_iff] at h
        obtain ⟨j, hj, rfl⟩ := h
        have hkc : k ∉ keys key c := fun h => hdisj h (mem_keys_of_findIdx? hj)
        rw [eraseTreeAt_succ, ihs hs hj, without, if_neg ha, without_of_not_mem hkc]

/-- An edit of the container a node is in is an edit of the forest, if it agrees with one there and
in the forests without the node. -/
theorem modifyIn_locate {k : κ} {f : ℕ → Forest α → Forest α} {g : Forest α → Forest α}
    (hroots : ∀ i c, (keys key c).Nodup → ((roots c).findIdx? fun b => key b = k) = some i →
      f i c = g c)
    (hnot : ∀ c, k ∉ keys key c → g c = c)
    (hnode : ∀ a c s, key a ≠ k → g (node a c s) = node a (g c) (g s))
    {q : Option κ} {i : ℕ} {F : Forest α} (hF : (keys key F).Nodup)
    (h : locate key k F = some (q, i)) :
    Present key q F ∧ k ∈ keys key F ∧ modifyIn key q (f i) F = g F := by
  have hbelow : ∀ (G : Forest α) (p : Option κ) (j : ℕ), (keys key G).Nodup →
      ((roots G).findIdx? fun b => key b = k) = none → locateBelow key k G = some (p, j) →
      ∃ o, p = some o ∧ o ∈ keys key G ∧ k ∈ keys key G ∧ modifyAt key o (f j) G = g G := by
    intro G p j hG hr hl
    induction G with
    | nil => cases hl
    | node a c s ihc ihs =>
        obtain ⟨⟨hac, has⟩, hc, hs, hdisj⟩ := nodup_node hG
        have ha : key a ≠ k := by
          intro ha
          simp [roots, List.findIdx?_cons, ha] at hr
        have hrs : ((roots s).findIdx? fun b => key b = k) = none := by
          simpa [roots, List.findIdx?_cons, ha] using hr
        simp only [keys_node, List.mem_cons, List.mem_append]
        rw [locateBelow] at hl
        rw [hnode a c s ha]
        cases hi : (roots c).findIdx? fun b => key b = k with
        | some i =>
            rw [hi, Option.some.injEq, Prod.mk.injEq] at hl
            obtain ⟨rfl, rfl⟩ := hl
            have hk := mem_keys_of_findIdx? hi
            refine ⟨key a, rfl, Or.inl rfl, Or.inr (Or.inl hk), ?_⟩
            rw [modifyAt, if_pos rfl, hroots i c hc hi, hnot s fun h => hdisj hk h]
        | none =>
            rw [hi] at hl
            rcases Option.or_eq_some_iff.mp hl with hl | ⟨-, hl⟩
            · obtain ⟨o, hp, ho, hk, heq⟩ := ihc hc hi hl
              have hao : key a ≠ o := fun h => foreign_some.mp hac (h ▸ ho)
              refine ⟨o, hp, Or.inr (Or.inl ho), Or.inr (Or.inl hk), ?_⟩
              rw [modifyAt, if_neg hao, heq, modifyAt_of_not_mem (F := s) fun h => hdisj ho h,
                hnot s fun h => hdisj hk h]
            · obtain ⟨o, hp, ho, hk, heq⟩ := ihs hs hrs hl
              have hao : key a ≠ o := fun h => foreign_some.mp has (h ▸ ho)
              refine ⟨o, hp, Or.inr (Or.inr ho), Or.inr (Or.inr hk), ?_⟩
              rw [modifyAt, if_neg hao, heq, modifyAt_of_not_mem (F := c) fun h => hdisj h ho,
                hnot c fun h => hdisj h hk]
  rw [locate] at h
  cases hi : (roots F).findIdx? fun b => key b = k with
  | some j =>
      rw [hi, Option.some.injEq, Prod.mk.injEq] at h
      obtain ⟨rfl, rfl⟩ := h
      exact ⟨present_none F, mem_keys_of_findIdx? hi, hroots j F hF hi⟩
  | none =>
      rw [hi] at h
      obtain ⟨o, rfl, ho, hk, heq⟩ := hbelow F q i hF hi h
      refine ⟨?_, hk, heq⟩
      rintro _ ⟨⟩
      exact ho

/-- What is located is there, and so is its container. -/
theorem mem_keys_of_locate {k : κ} {q : Option κ} {i : ℕ} {F : Forest α} (hF : (keys key F).Nodup)
    (h : locate key k F = some (q, i)) : Present key q F ∧ k ∈ keys key F := by
  obtain ⟨hq, hk, -⟩ := modifyIn_locate (f := fun i => eraseTreeAt i) (g := without key k)
    (fun i c hc hi => eraseTreeAt_eq_without hc hi) (fun c hc => without_of_not_mem hc)
    (fun a c s ha => by rw [without, if_neg ha]) hF h
  exact ⟨hq, hk⟩

/-- What is not located is not there. -/
theorem not_mem_keys_of_locate {k : κ} {F : Forest α} (h : locate key k F = none) :
    k ∉ keys key F := by
  rw [locate] at h
  cases hi : (roots F).findIdx? fun b => key b = k with
  | some i =>
      rw [hi] at h
      cases h
  | none =>
      rw [hi] at h
      exact not_mem_keys_of_locateBelow h hi

/-- A node that is not there has no children. -/
theorem childrenOf_of_not_mem {k : κ} {F : Forest α} (h : k ∉ keys key F) :
    childrenOf key k F = none := by
  cases hc : childrenOf key k F with
  | none => rfl
  | some c => exact absurd (mem_keys_of_childrenOf hc) h

/-- Below the roots, the container is a node, with the node among its children. -/
theorem container_of_locateBelow {k : κ} {q : Option κ} {i : ℕ} {F : Forest α}
    (hF : (keys key F).Nodup) (h : locateBelow key k F = some (q, i)) :
    ∃ o c, q = some o ∧ childrenOf key o F = some c ∧
      ((roots c).findIdx? fun b => key b = k) = some i := by
  induction F with
  | nil => cases h
  | node a c s ihc ihs =>
      obtain ⟨⟨hac, has⟩, hc, hs, hdisj⟩ := nodup_node hF
      rw [locateBelow] at h
      cases hi : (roots c).findIdx? fun b => key b = k with
      | some j =>
          rw [hi, Option.some.injEq, Prod.mk.injEq] at h
          obtain ⟨rfl, rfl⟩ := h
          exact ⟨key a, c, rfl, by rw [childrenOf, if_pos rfl], hi⟩
      | none =>
          rw [hi] at h
          rcases Option.or_eq_some_iff.mp h with h | ⟨-, h⟩
          · obtain ⟨o, d, hq, hd, hfind⟩ := ihc hc h
            have hao : key a ≠ o := fun h => foreign_some.mp hac (h ▸ mem_keys_of_childrenOf hd)
            exact ⟨o, d, hq, by rw [childrenOf, if_neg hao, hd]; rfl, hfind⟩
          · obtain ⟨o, d, hq, hd, hfind⟩ := ihs hs h
            have ho := mem_keys_of_childrenOf hd
            have hao : key a ≠ o := fun h => foreign_some.mp has (h ▸ ho)
            refine ⟨o, d, hq, ?_, hfind⟩
            rw [childrenOf, if_neg hao, childrenOf_of_not_mem fun h => hdisj h ho, hd]
            rfl

/-- The search finds the scope of the node. -/
theorem mem_childrenIn_of_locate {k : κ} {q : Option κ} {i : ℕ} {F : Forest α}
    (hF : (keys key F).Nodup) (h : locate key k F = some (q, i)) :
    k ∈ (childrenIn key q none F).map key := by
  have hmem : ∀ c : Forest α, ((roots c).findIdx? fun b => key b = k) = some i →
      k ∈ (roots c).map key := by
    intro c hc
    obtain ⟨hi, hk, -⟩ := List.findIdx?_eq_some_iff_getElem.mp hc
    exact List.mem_map.mpr ⟨_, List.getElem_mem hi, of_decide_eq_true hk⟩
  rw [locate] at h
  cases hi : (roots F).findIdx? fun b => key b = k with
  | some j =>
      rw [hi, Option.some.injEq, Prod.mk.injEq] at h
      obtain ⟨rfl, rfl⟩ := h
      rw [childrenIn_self (foreign_none F)]
      exact hmem F hi
  | none =>
      rw [hi] at h
      obtain ⟨o, c, rfl, hc, hfind⟩ := container_of_locateBelow hF h
      rw [childrenOf_roots hF (by simp) hc]
      exact hmem c hfind

/-- A node is in one scope. -/
theorem scope_unique {k : κ} {q q' : Option κ} {F : Forest α} (hF : (keys key F).Nodup)
    (h : k ∈ (childrenIn key q none F).map key) (h' : k ∈ (childrenIn key q' none F).map key) :
    q = q' := by
  have hrow : ∀ {p : Option κ}, k ∈ (childrenIn key p none F).map key →
      ∃ r ∈ outline [] F, key r.1 = k ∧ r.2.head?.map key = p := by
    intro p hp
    rw [childrenIn_eq_filter, List.map_map] at hp
    obtain ⟨r, hr, hk⟩ := List.mem_map.mp hp
    rw [List.mem_filter, decide_eq_true_eq] at hr
    exact ⟨r, hr.1, hk, hr.2⟩
  obtain ⟨r, hr, hk, hq⟩ := hrow h
  obtain ⟨r', hr', hk', hq'⟩ := hrow h'
  have hnd : ((outline [] F).map fun r => key r.1).Nodup := by
    rwa [keys, preorder_eq_map [], List.map_map] at hF
  have heq : r = r' := List.inj_on_of_nodup_map hnd hr hr' (hk.trans hk'.symm)
  rw [← hq, ← hq', heq]

/-- **Taking a node out of its container takes its tree out of the forest.** -/
theorem removeTree_eq (k : κ) {F : Forest α} (hF : (keys key F).Nodup) :
    removeTree key k F = without key k F := by
  rw [removeTree]
  cases h : locate key k F with
  | none => exact (without_of_not_mem (not_mem_keys_of_locate h)).symm
  | some x =>
      obtain ⟨q, i⟩ := x
      obtain ⟨-, -, heq⟩ := modifyIn_locate (f := fun i => eraseTreeAt i) (g := without key k)
        (fun i c hc hi => eraseTreeAt_eq_without hc hi) (fun c hc => without_of_not_mem hc)
        (fun a c s ha => by rw [without, if_neg ha]) hF h
      exact heq

/-- A run behind some nodes moves in front of them. -/
theorem perm_front (a b : α) (C T W : List α) :
    (a :: (C ++ b :: (T ++ W))).Perm (b :: (T ++ a :: (C ++ W))) := by
  have hfront : (a :: (C ++ b :: (T ++ W))).Perm (a :: b :: (C ++ (T ++ W))) :=
    List.perm_middle.cons a
  have hrest : (a :: (C ++ (T ++ W))).Perm (T ++ a :: (C ++ W)) :=
    ((List.perm_append_comm_assoc C T W).cons a).trans List.perm_middle.symm
  exact (hfront.trans (List.Perm.swap b a _)).trans (hrest.cons b)

/-- The nodes are those of the tree and the others. -/
theorem preorder_without {k : κ} {t : α × Forest α} {F : Forest α} (hF : (keys key F).Nodup)
    (h : treeOf key k F = some t) :
    (preorder F).Perm (preorder (node t.1 t.2 (without key k F))) := by
  induction F with
  | nil => cases h
  | node a c s ihc ihs =>
      obtain ⟨⟨hac, has⟩, hc, hs, hdisj⟩ := nodup_node hF
      rw [treeOf] at h
      rw [without]
      by_cases ha : key a = k
      · rw [if_pos ha, Option.some.injEq] at h
        subst h
        rw [if_pos ha]
      · rw [if_neg ha, Option.or_eq_some_iff] at h
        rw [if_neg ha]
        simp only [preorder]
        rcases h with h | ⟨-, h⟩
        · obtain ⟨hk, ht, -⟩ := treeOf_spec h
          have hkc : k ∈ keys key c := hk ▸ mem_keys_of_mem ht
          rw [without_of_not_mem fun hks => hdisj hkc hks]
          have hperm := ((ihc hc h).append_right (preorder s)).cons a
          simp only [preorder, List.cons_append, List.append_assoc] at hperm
          exact hperm.trans (perm_front a t.1 [] _ _)
        · obtain ⟨hk, ht, -⟩ := treeOf_spec h
          have hks : k ∈ keys key s := hk ▸ mem_keys_of_mem ht
          rw [without_of_not_mem fun hkc => hdisj hkc hks]
          have hperm := ((ihs hs h).append_left (preorder c)).cons a
          exact hperm.trans (perm_front a t.1 _ _ _)

/-- Taking out a node that is not there changes nothing. -/
theorem filter_key_ne {k : κ} {l : List α} (h : k ∉ l.map key) :
    (l.filter fun a => decide (key a ≠ k)) = l := by
  apply List.filter_eq_self.mpr
  intro a ha
  have hne : key a ≠ k := fun hk => h (hk ▸ List.mem_map_of_mem ha)
  simpa using hne

/-- A node that is not there is no child. -/
theorem not_mem_map_childrenIn {k : κ} {q up : Option κ} {F : Forest α} (h : k ∉ keys key F) :
    k ∉ (childrenIn key q up F).map key := by
  intro hk
  obtain ⟨a, ha, rfl⟩ := List.mem_map.mp hk
  exact h (mem_keys_of_mem (mem_preorder_of_mem_childrenIn ha))

/-- The scopes that no node of the tree owns lose the node, and nothing else. -/
theorem childrenIn_without {k : κ} {t : α × Forest α} {F : Forest α} (hF : (keys key F).Nodup)
    (h : treeOf key k F = some t) {q up : Option κ} (hq : Foreign key q (node t.1 t.2 nil)) :
    childrenIn key q up (without key k F) =
      (childrenIn key q up F).filter fun a => decide (key a ≠ k) := by
  induction F generalizing up with
  | nil => cases h
  | node a c s ihc ihs =>
      obtain ⟨⟨hac, has⟩, hc, hs, hdisj⟩ := nodup_node hF
      obtain ⟨htq, hcq, -⟩ := foreign_node.mp hq
      rw [treeOf] at h
      rw [without, childrenIn, List.filter_append, List.filter_append]
      by_cases ha : key a = k
      · rw [if_pos ha, Option.some.injEq] at h
        subst h ha
        have hroot : (if up = q then [a] else []).filter (fun b => decide (key b ≠ key a)) = [] := by
          split <;> simp
        rw [if_pos rfl, hroot, childrenIn_of_foreign htq hcq,
          filter_key_ne (not_mem_map_childrenIn (foreign_some.mp has))]
        rfl
      · have hroot : (if up = q then [a] else []).filter (fun b => decide (key b ≠ k)) =
            if up = q then [a] else [] := by
          split <;> simp [ha]
        rw [if_neg ha, Option.or_eq_some_iff] at h
        rw [if_neg ha, childrenIn, hroot]
        rcases h with h | ⟨-, h⟩
        · obtain ⟨hk, ht, -⟩ := treeOf_spec h
          have hks : k ∉ keys key s := fun hks => hdisj (hk ▸ mem_keys_of_mem ht) hks
          rw [ihc hc h, without_of_not_mem hks, filter_key_ne (not_mem_map_childrenIn hks)]
        · obtain ⟨hk, ht, -⟩ := treeOf_spec h
          have hkc : k ∉ keys key c := fun hkc => hdisj hkc (hk ▸ mem_keys_of_mem ht)
          rw [ihs hs h, without_of_not_mem hkc, filter_key_ne (not_mem_map_childrenIn hkc)]

/-- The scopes of the tree are scopes of the forest. -/
theorem childrenIn_treeOf {k j : κ} {t : α × Forest α} {F : Forest α} (hF : (keys key F).Nodup)
    (h : treeOf key k F = some t) (hj : j ∈ keys key (node t.1 t.2 nil)) {up : Option κ}
    (hup : up ≠ some j) :
    childrenIn key (some j) up F = childrenIn key (some j) (some k) t.2 := by
  have hsub : ∀ (G : Forest α), treeOf key k G = some t → j ∈ keys key G := by
    intro G hG
    obtain ⟨-, ht, hsub⟩ := treeOf_spec hG
    rw [keys_node, List.mem_cons, List.mem_append] at hj
    rcases hj with rfl | hj | hj
    · exact mem_keys_of_mem ht
    · obtain ⟨b, hb, rfl⟩ := List.mem_map.mp hj
      exact mem_keys_of_mem (hsub b hb)
    · cases hj
  induction F generalizing up with
  | nil => cases h
  | node a c s ihc ihs =>
      obtain ⟨⟨hac, has⟩, hc, hs, hdisj⟩ := nodup_node hF
      rw [childrenIn, if_neg hup, List.nil_append]
      rw [treeOf] at h
      by_cases ha : key a = k
      · rw [if_pos ha, Option.some.injEq] at h
        subst h ha
        have hjs : j ∉ keys key s := by
          rw [keys_node, List.mem_cons, List.mem_append] at hj
          rcases hj with rfl | hj | hj
          · exact foreign_some.mp has
          · exact fun h => hdisj hj h
          · cases hj
        rw [childrenIn_of_foreign hup (foreign_some.mpr hjs), List.append_nil]
      · rw [if_neg ha, Option.or_eq_some_iff] at h
        rcases h with h | ⟨-, h⟩
        · have hjc := hsub c h
          have haj : some (key a) ≠ some j := fun h => foreign_some.mp hac (Option.some.inj h ▸ hjc)
          rw [ihc hc h haj, childrenIn_of_foreign hup (foreign_some.mpr fun hjs => hdisj hjc hjs),
            List.append_nil]
        · have hjs := hsub s h
          have haj : some (key a) ≠ some j := fun h => foreign_some.mp has (Option.some.inj h ▸ hjs)
          rw [ihs hs h hup, childrenIn_of_foreign haj (foreign_some.mpr fun hjc => hdisj hjc hjs),
            List.nil_append]

/-- The children of a node of the tree are in the tree. -/
theorem mem_keys_of_mem_childrenIn {k j o : κ} {t : α × Forest α} {F : Forest α}
    (hF : (keys key F).Nodup) (h : treeOf key k F = some t)
    (ho : o ∈ keys key (node t.1 t.2 nil)) (hj : j ∈ (childrenIn key (some o) none F).map key) :
    j ∈ keys key t.2 := by
  rw [childrenIn_treeOf hF h ho (by simp)] at hj
  obtain ⟨a, ha, rfl⟩ := List.mem_map.mp hj
  exact mem_keys_of_mem (mem_preorder_of_mem_childrenIn ha)

/-- The tree that is taken out and the rest have no node in common. -/
theorem nodup_treeOf_without {k : κ} {t : α × Forest α} {F : Forest α} (hF : (keys key F).Nodup)
    (h : treeOf key k F = some t) : (keys key (node t.1 t.2 (without key k F))).Nodup :=
  ((preorder_without hF h).map key).nodup_iff.mp hF

/-- The rest has distinct nodes. -/
theorem nodup_without {k : κ} {t : α × Forest α} {F : Forest α} (hF : (keys key F).Nodup)
    (h : treeOf key k F = some t) : (keys key (without key k F)).Nodup :=
  (nodup_node (nodup_treeOf_without hF h)).2.2.1

/-- The rest has all nodes but those of the tree. -/
theorem mem_keys_without_iff {k j : κ} {t : α × Forest α} {F : Forest α} (hF : (keys key F).Nodup)
    (h : treeOf key k F = some t) :
    j ∈ keys key (without key k F) ↔ j ∈ keys key F ∧ j ∉ keys key (node t.1 t.2 nil) := by
  have hperm := (preorder_without hF h).map key
  obtain ⟨⟨-, hroot⟩, -, -, hdisj⟩ := nodup_node (nodup_treeOf_without hF h)
  have hmem : j ∈ keys key F ↔ j ∈ keys key (node t.1 t.2 (without key k F)) := hperm.mem_iff
  rw [hmem, keys_node, keys_node, List.mem_cons, List.mem_append, List.mem_cons, List.mem_append]
  constructor
  · intro hj
    refine ⟨Or.inr (Or.inr hj), ?_⟩
    rintro (rfl | ht | hnil)
    · exact foreign_some.mp hroot hj
    · exact hdisj ht hj
    · cases hnil
  · rintro ⟨hj | hj | hj, hnot⟩
    · exact absurd (Or.inl hj) hnot
    · exact absurd (Or.inr (Or.inl hj)) hnot
    · exact hj

/-- The parent of a node is not in its tree. -/
theorem parent_not_mem_treeOf {k o : κ} {t : α × Forest α} {F : Forest α} (hF : (keys key F).Nodup)
    (h : treeOf key k F = some t) (hk : k ∈ (childrenIn key (some o) none F).map key) :
    o ∉ keys key (node t.1 t.2 nil) := by
  intro ho
  obtain ⟨rfl, -, -⟩ := treeOf_spec h
  obtain ⟨⟨hroot, -⟩, -⟩ := nodup_node (nodup_treeOf_without hF h)
  exact foreign_some.mp hroot (mem_keys_of_mem_childrenIn hF h ho hk)

/-- The scope of a node outside the tree is still there when the tree is taken out. -/
theorem present_without {k j : κ} {q : Option κ} {t : α × Forest α} {F : Forest α}
    (hF : (keys key F).Nodup) (h : treeOf key k F = some t) (hq : Present key q F)
    (hj : j ∈ (childrenIn key q none F).map key) (hout : j ∉ keys key (node t.1 t.2 nil)) :
    Present key q (without key k F) := by
  rintro o rfl
  refine (mem_keys_without_iff hF h).mpr ⟨hq o rfl, fun ho => hout ?_⟩
  rw [keys_node, List.mem_cons, List.mem_append]
  exact Or.inr (Or.inl (mem_keys_of_mem_childrenIn hF h ho hj))

/-- The other nodes keep their ancestors. -/
theorem mem_outline_without {k : κ} {up : List α} {F : Forest α} {r : α × List α}
    (hr : r ∈ outline up (without key k F)) : r ∈ outline up F := by
  induction F generalizing up with
  | nil => cases hr
  | node a c s ihc ihs =>
      rw [outline, List.mem_cons, List.mem_append]
      rw [without] at hr
      split at hr
      · exact Or.inr (Or.inr hr)
      · rw [outline, List.mem_cons, List.mem_append] at hr
        exact hr.imp_right (Or.imp ihc ihs)

/-- The rest has no new nodes. -/
theorem subperm_without {k : κ} {t : α × Forest α} {F : Forest α} (hF : (keys key F).Nodup)
    (h : treeOf key k F = some t) : (preorder (without key k F)).Subperm (preorder F) := by
  apply List.Subperm.trans _ (preorder_without hF h).symm.subperm
  rw [preorder, ← List.cons_append]
  exact (List.sublist_append_right _ _).subperm

/-! ### Putting a tree in -/

section Insert

variable {t : α × Forest α}

/-- Inserting a tree adds its nodes. -/
theorem preorder_insertTreeAt {i : ℕ} {F : Forest α} (h : i ≤ (roots F).length) :
    (preorder (insertTreeAt i t F)).Perm (preorder (node t.1 t.2 F)) := by
  induction F generalizing i with
  | nil =>
      obtain rfl : i = 0 := by simpa [roots] using h
      rw [insertTreeAt_zero]
  | node a c s _ ihs =>
      cases i with
      | zero => rw [insertTreeAt_zero]
      | succ i =>
          rw [insertTreeAt_succ]
          have hs := ((ihs (i := i) (by simpa [roots] using h)).append_left (preorder c)).cons a
          exact hs.trans (perm_front a t.1 _ _ _)

/-- Taking it out again leaves the forest. -/
theorem without_insertTreeAt {i : ℕ} {F : Forest α} (h : i ≤ (roots F).length)
    (ht : key t.1 ∉ keys key F) : without key (key t.1) (insertTreeAt i t F) = F := by
  induction F generalizing i with
  | nil =>
      obtain rfl : i = 0 := by simpa [roots] using h
      rw [insertTreeAt_zero, without, if_pos rfl]
  | node a c s _ ihs =>
      cases i with
      | zero => rw [insertTreeAt_zero, without, if_pos rfl]
      | succ i =>
          rw [keys_node, List.mem_cons, List.mem_append, not_or, not_or] at ht
          rw [insertTreeAt_succ, without, if_neg (Ne.symm ht.1),
            ihs (i := i) (by simpa [roots] using h) ht.2.2, without_of_not_mem ht.2.1]

/-- The tree is the one that was inserted. -/
theorem treeOf_insertTreeAt {i : ℕ} {F : Forest α} (h : i ≤ (roots F).length)
    (ht : key t.1 ∉ keys key F) : treeOf key (key t.1) (insertTreeAt i t F) = some t := by
  induction F generalizing i with
  | nil =>
      obtain rfl : i = 0 := by simpa [roots] using h
      rw [insertTreeAt_zero, treeOf, if_pos rfl]
  | node a c s _ ihs =>
      cases i with
      | zero => rw [insertTreeAt_zero, treeOf, if_pos rfl]
      | succ i =>
          rw [keys_node, List.mem_cons, List.mem_append, not_or, not_or] at ht
          rw [insertTreeAt_succ, treeOf, if_neg (Ne.symm ht.1), treeOf_of_not_mem ht.2.1,
            ihs (i := i) (by simpa [roots] using h) ht.2.2]
          rfl

/-- The nodes below a node are nodes of the forest. -/
theorem keys_subset_of_childrenOf {p : κ} {F c : Forest α} (h : childrenOf key p F = some c) :
    keys key c ⊆ keys key F := by
  induction F with
  | nil => cases h
  | node a d s ihd ihs =>
      intro k hk
      rw [keys_node, List.mem_cons, List.mem_append]
      rw [childrenOf] at h
      by_cases ha : key a = p
      · rw [if_pos ha, Option.some.injEq] at h
        exact Or.inr (Or.inl (h ▸ hk))
      · rw [if_neg ha, Option.or_eq_some_iff] at h
        rcases h with h | ⟨-, h⟩
        · exact Or.inr (Or.inl (ihd h hk))
        · exact Or.inr (Or.inr (ihs h hk))

/-- What an edit below one node comes to, when it puts a tree into the container. -/
theorem modifyAt_spec {p : κ} {f : Forest α → Forest α} {F c : Forest α} (hF : (keys key F).Nodup)
    (hc : childrenOf key p F = some c) (ht : key t.1 ∉ keys key F)
    (hpre : (preorder (f c)).Perm (preorder (node t.1 t.2 c)))
    (hwithout : without key (key t.1) (f c) = c) (htree : treeOf key (key t.1) (f c) = some t) :
    (preorder (modifyAt key p f F)).Perm (preorder (node t.1 t.2 F)) ∧
      without key (key t.1) (modifyAt key p f F) = F ∧
      treeOf key (key t.1) (modifyAt key p f F) = some t := by
  induction F with
  | nil => cases hc
  | node a d s ihd ihs =>
      obtain ⟨-, hd, hs, hdisj⟩ := nodup_node hF
      rw [keys_node, List.mem_cons, List.mem_append, not_or, not_or] at ht
      obtain ⟨hta, htd, hts⟩ := ht
      rw [childrenOf] at hc
      rw [modifyAt]
      by_cases ha : key a = p
      · rw [if_pos ha, Option.some.injEq] at hc
        subst hc
        rw [if_pos ha, without, if_neg (Ne.symm hta), hwithout, without_of_not_mem hts, treeOf,
          if_neg (Ne.symm hta), htree]
        refine ⟨?_, rfl, rfl⟩
        have h := (hpre.append_right (preorder s)).cons a
        simp only [preorder, List.cons_append, List.append_assoc] at h
        exact h.trans (perm_front a t.1 [] _ _)
      · rw [if_neg ha, Option.or_eq_some_iff] at hc
        rw [if_neg ha, without, if_neg (Ne.symm hta), treeOf, if_neg (Ne.symm hta)]
        rcases hc with hc | ⟨-, hc⟩
        · have hps : p ∉ keys key s := fun h => hdisj (mem_keys_of_childrenOf hc) h
          obtain ⟨hperm, hwo, htr⟩ := ihd hd hc htd
          rw [modifyAt_of_not_mem hps, hwo, htr, without_of_not_mem hts]
          refine ⟨?_, rfl, rfl⟩
          have h := (hperm.append_right (preorder s)).cons a
          simp only [preorder, List.cons_append, List.append_assoc] at h
          exact h.trans (perm_front a t.1 [] _ _)
        · have hpd : p ∉ keys key d := fun h => hdisj h (mem_keys_of_childrenOf hc)
          obtain ⟨hperm, hwo, htr⟩ := ihs hs hc hts
          rw [modifyAt_of_not_mem hpd, hwo, htr, without_of_not_mem htd, treeOf_of_not_mem htd]
          refine ⟨?_, rfl, rfl⟩
          have h := (hperm.append_left (preorder d)).cons a
          exact h.trans (perm_front a t.1 _ _ _)

variable {q : Option κ} {i : ℕ} {F : Forest α} (hF : (keys key F).Nodup) (hq : Present key q F)
  (hi : i ≤ (childrenIn key q none F).length) (ht : key t.1 ∉ keys key F)

include hF hq hi ht

/-- **Putting a tree in** adds its nodes, and taking it out again gives the forest. -/
theorem insertTree_spec :
    (preorder (insertTree key q i t F)).Perm (preorder (node t.1 t.2 F)) ∧
      without key (key t.1) (insertTree key q i t F) = F ∧
      treeOf key (key t.1) (insertTree key q i t F) = some t := by
  cases q with
  | none =>
      rw [childrenIn_self (foreign_none F)] at hi
      exact ⟨preorder_insertTreeAt hi, without_insertTreeAt hi ht, treeOf_insertTreeAt hi ht⟩
  | some p =>
      obtain ⟨c, hc⟩ := exists_childrenOf (hq p rfl)
      rw [childrenOf_roots hF (by simp) hc] at hi
      have htc : key t.1 ∉ keys key c := fun h => ht (keys_subset_of_childrenOf hc h)
      exact modifyAt_spec hF hc ht (preorder_insertTreeAt hi) (without_insertTreeAt hi htc)
        (treeOf_insertTreeAt hi htc)

/-- Where the tree is. -/
theorem childrenIn_insertTree (hdisj : (keys key t.2).Disjoint (keys key F)) :
    childrenIn key q none (insertTree key q i t F) = (childrenIn key q none F).insertIdx i t.1 := by
  cases q with
  | none =>
      rw [childrenIn_self (foreign_none F), childrenIn_self (foreign_none _)]
      exact roots_insertTreeAt i t F
  | some p =>
      have hp := hq p rfl
      obtain ⟨c, hc⟩ := exists_childrenOf hp
      rw [childrenOf_roots hF (by simp) hc] at hi ⊢
      show childrenIn key (some p) none (modifyAt key p (insertTreeAt i t) F) = _
      rw [childrenIn_modifyAt_self hF (by simp) hc, childrenIn_self, roots_insertTreeAt]
      intro k hk hkp
      obtain rfl := Option.some.inj hkp
      have hmem := ((preorder_insertTreeAt hi).map key).mem_iff.mp hk
      rw [preorder, List.map_cons, List.map_append, List.mem_cons, List.mem_append] at hmem
      rcases hmem with hmem | hmem | hmem
      · exact ht (hmem ▸ hp)
      · exact hdisj hmem hp
      · exact foreign_childrenOf hF hc k hmem rfl

end Insert

/-! ### Moving a node -/

/-- The forests have the same nodes, and but for one node every scope has the same children in the
same order. -/
structure Relocates (key : α → κ) (k : κ) (F G : Forest α) : Prop where
  nodes : (preorder G).Perm (preorder F)
  others : ∀ q, (childrenIn key q none G).filter (fun a => decide (key a ≠ k)) =
    (childrenIn key q none F).filter fun a => decide (key a ≠ k)

theorem Relocates.refl (k : κ) (F : Forest α) : Relocates key k F F :=
  ⟨List.Perm.refl _, fun _ => rfl⟩

/-- Moving one node twice is moving it once. -/
theorem Relocates.trans {k : κ} {F G H : Forest α} (h : Relocates key k F G)
    (h' : Relocates key k G H) : Relocates key k F H :=
  ⟨h'.nodes.trans h.nodes, fun q => (h'.others q).trans (h.others q)⟩

theorem Relocates.nodup {k : κ} {F G : Forest α} (h : Relocates key k F G)
    (hF : (keys key F).Nodup) : (keys key G).Nodup :=
  (h.nodes.map key).nodup_iff.mpr hF

/-- Forests with the same tree of a node, and the same rest. -/
theorem relocates_of_without {k : κ} {t : α × Forest α} {F G : Forest α} (hF : (keys key F).Nodup)
    (hG : (keys key G).Nodup) (hf : treeOf key k F = some t) (hg : treeOf key k G = some t)
    (h : without key k F = without key k G) : Relocates key k F G := by
  refine ⟨?_, fun q => ?_⟩
  · have hperm := preorder_without hG hg
    rw [← h] at hperm
    exact hperm.trans (preorder_without hF hf).symm
  · by_cases hq : Foreign key q (node t.1 t.2 nil)
    · rw [← childrenIn_without hF hf hq, ← childrenIn_without hG hg hq, h]
    · simp only [Foreign, not_forall, not_not] at hq
      obtain ⟨j, hj, rfl⟩ := hq
      rw [childrenIn_treeOf hF hf hj (by simp), childrenIn_treeOf hG hg hj (by simp)]

/-- **A node taken out and put in elsewhere** has moved with its tree. -/
theorem relocates_insertTree {k : κ} {t : α × Forest α} {F : Forest α} (hF : (keys key F).Nodup)
    (h : treeOf key k F = some t) {q : Option κ} (hq : Present key q (without key k F)) {i : ℕ}
    (hi : i ≤ (childrenIn key q none (without key k F)).length) :
    Relocates key k F (insertTree key q i t (without key k F)) ∧
      childrenIn key q none (insertTree key q i t (without key k F)) =
        (childrenIn key q none (without key k F)).insertIdx i t.1 := by
  obtain ⟨rfl, -, -⟩ := treeOf_spec h
  have hnd := nodup_treeOf_without hF h
  obtain ⟨⟨-, ht⟩, -, hwo, hdisj⟩ := nodup_node hnd
  obtain ⟨hpre, hwithout, htree⟩ := insertTree_spec hwo hq hi (foreign_some.mp ht)
  refine ⟨relocates_of_without hF ?_ h htree hwithout.symm,
    childrenIn_insertTree hwo hq hi (foreign_some.mp ht) hdisj⟩
  exact (hpre.map key).nodup_iff.mpr hnd

/-! ### Marked nodes as leaves -/

/-- No marked node is above another node. -/
def Leafy (b : α → Bool) (F : Forest α) : Prop := ∀ r ∈ outline [] F, ∀ a ∈ r.2, b a = false

variable {b : α → Bool}

/-- An ancestor has a child, unless it is above the forest. -/
theorem exists_child {up : List α} {F : Forest α} {r : α × List α} {a : α}
    (hr : r ∈ outline up F) (ha : a ∈ r.2) :
    a ∈ up ∨ a ∈ preorder F ∧ ∃ r' ∈ outline up F, r'.2.head? = some a := by
  induction F generalizing up with
  | nil => cases hr
  | node x c s ihc ihs =>
      simp only [outline, List.mem_cons, List.mem_append, preorder] at hr ⊢
      rcases hr with rfl | hr | hr
      · exact Or.inl ha
      · rcases ihc hr with h | ⟨hmem, r', hr', hhead⟩
        · rcases List.mem_cons.mp h with rfl | h
          · refine Or.inr ⟨Or.inl rfl, ?_⟩
            cases c with
            | nil => cases hr
            | node y d e =>
                exact ⟨(y, a :: up), Or.inr (Or.inl List.mem_cons_self), rfl⟩
          · exact Or.inl h
        · exact Or.inr ⟨Or.inr (Or.inl hmem), r', Or.inr (Or.inl hr'), hhead⟩
      · rcases ihs hr with h | ⟨hmem, r', hr', hhead⟩
        · exact Or.inl h
        · exact Or.inr ⟨Or.inr (Or.inr hmem), r', Or.inr (Or.inr hr'), hhead⟩

/-- Scope by scope: the marked nodes have no children. -/
theorem leafy_iff {F : Forest α} (hF : (keys key F).Nodup) :
    Leafy b F ↔ ∀ a ∈ preorder F, b a = true → childrenIn key (some (key a)) none F = [] := by
  constructor
  · intro h a ha hb
    rw [childrenIn_eq_filter, List.map_eq_nil_iff, List.filter_eq_nil_iff]
    intro r hr hhead
    obtain ⟨a', ha', hkey⟩ := Option.map_eq_some_iff.mp (of_decide_eq_true hhead)
    have hmem : a' ∈ r.2 := List.mem_of_mem_head? ha'
    rcases exists_child hr hmem with hnil | ⟨hpre, -⟩
    · cases hnil
    · have heq : a' = a := List.inj_on_of_nodup_map hF hpre ha hkey
      rw [heq] at hmem
      rw [h r hr a hmem] at hb
      cases hb
  · intro h r hr a ha
    rcases exists_child hr ha with hnil | ⟨hpre, r', hr', hhead⟩
    · cases hnil
    · cases hb : b a with
      | false => rfl
      | true =>
          have hchild : r'.1 ∈ childrenIn key (some (key a)) none F := by
            rw [childrenIn_eq_filter]
            apply List.mem_map_of_mem
            exact List.mem_filter.mpr ⟨hr', by simp [hhead]⟩
          rw [h a hpre hb] at hchild
          cases hchild

/-- Being a leaf depends on the outline only. -/
theorem Leafy.of_perm {F G : Forest α} (h : Leafy b F)
    (hp : (outline [] G).Perm (outline [] F)) : Leafy b G :=
  fun r hr => h r (hp.mem_iff.mp hr)

/-- A contraction keeps leaves leaves. -/
theorem Leafy.contract {F : Forest α} (h : Leafy b F) (p : α → Bool) : Leafy b (contract p F) := by
  intro r hr a ha
  have hout := outline_contract p [] F
  rw [List.filter_nil] at hout
  rw [hout] at hr
  obtain ⟨r', hr', rfl⟩ := List.mem_map.mp hr
  exact h r' (List.mem_filter.mp hr').1 a (List.mem_filter.mp ha).1

/-- Dropping leaves takes them out of their scopes. -/
theorem Leafy.childrenIn_contract {F : Forest α} (h : Leafy b F) {p : α → Bool}
    (hp : ∀ a, p a = false → b a = true) (q : Option κ) :
    childrenIn key q none (Forest.contract p F) = (childrenIn key q none F).filter p := by
  have hout := outline_contract p [] F
  rw [List.filter_nil] at hout
  rw [childrenIn_eq_filter, childrenIn_eq_filter, hout, List.filter_map, List.map_map,
    List.filter_map, List.filter_filter, List.filter_filter]
  show List.map Prod.fst _ = List.map Prod.fst _
  congr 1
  apply List.filter_congr
  intro r hr
  have hup : r.2.filter p = r.2 := by
    apply List.filter_eq_self.mpr
    intro a ha
    cases hpa : p a with
    | true => rfl
    | false =>
        have hba := h r hr a ha
        rw [hp a hpa] at hba
        cases hba
  show ((_ && _) : Bool) = (_ && _)
  simp only [Function.comp_apply, hup, Bool.and_comm]

/-- A leaf that is inserted adds one row. -/
theorem mem_outline_insertLeaf {i : ℕ} {n : α} {up : List α} {F : Forest α} {r : α × List α}
    (hr : r ∈ outline up (insertLeaf i n F)) : r ∈ outline up F ∨ r = (n, up) := by
  induction F generalizing i with
  | nil =>
      cases i with
      | zero =>
          rw [insertLeaf_zero, outline, outline, outline, List.append_nil, List.mem_singleton] at hr
          exact Or.inr hr
      | succ i => cases hr
  | node a c s _ ihs =>
      cases i with
      | zero =>
          rw [insertLeaf_zero, outline, outline, List.nil_append, List.mem_cons] at hr
          exact hr.symm
      | succ i =>
          rw [insertLeaf_succ_node, outline, List.mem_cons, List.mem_append] at hr
          rw [outline, List.mem_cons, List.mem_append]
          rcases hr with hr | hr | hr
          · exact Or.inl (Or.inl hr)
          · exact Or.inl (Or.inr (Or.inl hr))
          · exact (ihs hr).imp_left fun h => Or.inr (Or.inr h)

/-- The ancestors of a leaf put under a node are the node and its ancestors. -/
theorem mem_outline_modifyAt {k : κ} {i : ℕ} {n : α} {up : List α} {F : Forest α}
    {r : α × List α} (hr : r ∈ outline up (modifyAt key k (insertLeaf i n) F)) :
    r ∈ outline up F ∨ ∃ r' ∈ outline up F, key r'.1 = k ∧ r = (n, r'.1 :: r'.2) := by
  induction F generalizing up with
  | nil => cases hr
  | node a c s ihc ihs =>
      simp only [outline, List.mem_cons, List.mem_append]
      rw [modifyAt] at hr
      by_cases ha : key a = k
      · rw [if_pos ha, outline, List.mem_cons, List.mem_append] at hr
        rcases hr with hr | hr | hr
        · exact Or.inl (Or.inl hr)
        · rcases mem_outline_insertLeaf hr with hr | hr
          · exact Or.inl (Or.inr (Or.inl hr))
          · exact Or.inr ⟨(a, up), Or.inl rfl, ha, hr⟩
        · exact Or.inl (Or.inr (Or.inr hr))
      · rw [if_neg ha, outline, List.mem_cons, List.mem_append] at hr
        rcases hr with hr | hr | hr
        · exact Or.inl (Or.inl hr)
        · rcases ihc hr with hr | ⟨r', hr', hk, heq⟩
          · exact Or.inl (Or.inr (Or.inl hr))
          · exact Or.inr ⟨r', Or.inr (Or.inl hr'), hk, heq⟩
        · rcases ihs hr with hr | ⟨r', hr', hk, heq⟩
          · exact Or.inl (Or.inr (Or.inr hr))
          · exact Or.inr ⟨r', Or.inr (Or.inr hr'), hk, heq⟩

/-- A leaf put under a node that is not marked. -/
theorem Leafy.insertIn {F : Forest α} (h : Leafy b F) {q : Option κ} {i : ℕ} {n : α}
    (hq : ∀ a ∈ preorder F, q = some (key a) → b a = false) : Leafy b (insertIn key q i n F) := by
  intro r hr a ha
  cases q with
  | none =>
      rcases mem_outline_insertLeaf hr with hr | rfl
      · exact h r hr a ha
      · cases ha
  | some k =>
      rcases mem_outline_modifyAt hr with hr | ⟨r', hr', hk, rfl⟩
      · exact h r hr a ha
      · rcases List.mem_cons.mp ha with rfl | ha
        · apply hq
          · rw [preorder_eq_map []]
            exact List.mem_map_of_mem hr'
          · rw [hk]
        · exact h r' hr' a ha

/-- A node that moved, and not under a marked one. -/
theorem Leafy.of_relocates {k : κ} {F G : Forest α} (h : Leafy b F) (hF : (keys key F).Nodup)
    (hr : Relocates key k F G)
    (hk : ∀ a ∈ preorder G, b a = true →
      k ∉ (childrenIn key (some (key a)) none G).map key) : Leafy b G := by
  rw [leafy_iff (hr.nodup hF)]
  intro a ha hb
  have hnone := (leafy_iff hF).mp h a (hr.nodes.mem_iff.mp ha) hb
  have hothers := hr.others (some (key a))
  rwa [hnone, List.filter_nil, filter_key_ne (hk a ha hb)] at hothers

end Axan.Base.Forest
