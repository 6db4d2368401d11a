import Axan.SessionTree.View

/-!
# The invariant of the live tree

* `Page.Valid` — the nodes of the tree are distinct and were created, no two stand for the same
  tab, and a separator stands for none.
* `sinkBottomSeparatorsIn_eq` — the sink pass settles the tree.
* `Page.Grown` — what the passes that add nodes keep of a tree: its nodes stay where they are,
  under the same ancestors. `Grown.insert` is the step, and one lemma per pass follows from it.
-/

namespace Axan.SessionTree

open Axan.Base Axan.Base.Forest Axan.LaunchEntryWire

/-! ### Containers -/

/-- The size of a collection is the number of its rows. -/
theorem sizeIn_eq {q : Option ℕ} {T : LiveTree} (hT : (keys SessionNode.ident T).Nodup) :
    Present SessionNode.ident q T →
      sizeIn q T = (childrenIn SessionNode.ident q none T).length := by
  intro hq
  rw [sizeIn]
  cases hc : container SessionNode.ident q T with
  | some c => rw [container_roots hT hc, Option.elim_some]
  | none =>
      cases q with
      | none => cases hc
      | some k =>
          obtain ⟨c, hc'⟩ := exists_childrenOf (hq k rfl)
          rw [container, hc'] at hc
          cases hc

/-- The index of a row is its place among them. -/
theorem indexIn_eq {q : Option ℕ} {k : ℕ} {T : LiveTree} (hT : (keys SessionNode.ident T).Nodup)
    (hq : Present SessionNode.ident q T) :
    indexIn q k T =
      (childrenIn SessionNode.ident q none T).findIdx? fun n => decide (n.ident = k) := by
  rw [indexIn]
  cases hc : container SessionNode.ident q T with
  | some c => rw [container_roots hT hc, Option.elim_some]
  | none =>
      cases q with
      | none => cases hc
      | some k =>
          obtain ⟨c, hc'⟩ := exists_childrenOf (hq k rfl)
          rw [container, hc'] at hc
          cases hc

/-- A node is found by its identity. -/
theorem eq_of_ident_eq {T : LiveTree} (hT : (keys SessionNode.ident T).Nodup) {a b : SessionNode}
    (ha : a ∈ preorder T) (hb : b ∈ preorder T) (h : a.ident = b.ident) : a = b :=
  List.inj_on_of_nodup_map hT ha hb h

/-! ### The sink pass -/

/-- A list whose marked elements are its end has them behind the others. -/
theorem behind_eq_self {α : Type} {b : α → Bool} {l m : List α} (hl : ∀ a ∈ l, b a = false)
    (hm : ∀ a ∈ m, b a = true) : behind b (l ++ m) = l ++ m := by
  have h₁ : l.filter b = [] := List.filter_eq_nil_iff.mpr fun a ha => by simp [hl a ha]
  have h₂ : (m.filter fun a => !b a) = [] :=
    List.filter_eq_nil_iff.mpr fun a ha => by simp [hm a ha]
  have h₃ : (l.filter fun a => !b a) = l := List.filter_eq_self.mpr fun a ha => by simp [hl a ha]
  have h₄ : m.filter b = m := List.filter_eq_self.mpr hm
  simp [behind, h₁, h₂, h₃, h₄]

/-- No root is twice in its collection. -/
theorem nodup_roots {T : LiveTree} (hT : (keys SessionNode.ident T).Nodup) :
    ((trees T).map fun t => t.1.ident).Nodup := by
  have hsub : (roots T).Sublist (preorder T) := by
    induction T with
    | nil => exact List.Sublist.refl _
    | node a c s _ ihs =>
        obtain ⟨-, -, hs, -⟩ := nodup_node hT
        exact ((ihs hs).trans (List.sublist_append_right _ _)).cons_cons a
  have h := hT.sublist (hsub.map SessionNode.ident)
  rwa [roots_eq_map, List.map_map] at h

/-- The trailing run the pass looks for: the end of the container is its marked part. -/
theorem behind_trees_of_drop {ts : List (SessionNode × LiveTree)}
    (hnd : (ts.map fun t => t.1.ident).Nodup)
    (h : ((ts.map Prod.fst).drop ((ts.map Prod.fst).length -
          ((ts.map Prod.fst).filter SessionNode.isBottomSeparator).length)).map SessionNode.ident =
        ((ts.map Prod.fst).filter SessionNode.isBottomSeparator).map SessionNode.ident) :
    behind (fun t => t.1.isBottomSeparator) ts = ts := by
  set k := (ts.map Prod.fst).length -
    ((ts.map Prod.fst).filter SessionNode.isBottomSeparator).length with hk
  rw [List.filter_map, List.map_map, ← List.map_drop, List.map_map] at h
  have hsub : ∀ t ∈ ts.drop k, t.1.isBottomSeparator = true := by
    intro t ht
    have hmem : t.1.ident ∈ (ts.drop k).map (SessionNode.ident ∘ Prod.fst) :=
      List.mem_map_of_mem (f := SessionNode.ident ∘ Prod.fst) ht
    rw [h] at hmem
    obtain ⟨u, hu, hut⟩ := List.mem_map.mp hmem
    rw [List.mem_filter] at hu
    have : u = t := List.inj_on_of_nodup_map hnd hu.1 (List.mem_of_mem_drop ht) hut
    exact this ▸ hu.2
  have hlen : (ts.drop k).length = (ts.filter fun t => t.1.isBottomSeparator).length := by
    simpa [Function.comp_def] using congrArg List.length h
  have hfront : ∀ t ∈ ts.take k, t.1.isBottomSeparator = false := by
    have hsplit : ((ts.take k).filter fun t => t.1.isBottomSeparator) = [] := by
      have htotal : (ts.filter fun t => t.1.isBottomSeparator).length =
          ((ts.take k).filter fun t => t.1.isBottomSeparator).length +
            ((ts.drop k).filter fun t => t.1.isBottomSeparator).length := by
        rw [← List.length_append, ← List.filter_append, List.take_append_drop]
      rw [List.filter_eq_self.mpr hsub, hlen] at htotal
      exact List.eq_nil_of_length_eq_zero (by omega)
    intro t ht
    have := List.filter_eq_nil_iff.mp hsplit t ht
    simpa using this
  rw [← List.take_append_drop k ts]
  exact behind_eq_self hfront hsub

/-- The pass on the roots puts the bottom separators last. -/
theorem sinkContainer_eq {T : LiveTree} (hT : (keys SessionNode.ident T).Nodup) :
    sinkContainer T = settleRoots SessionNode.isBottomSeparator T := by
  have hnd := nodup_roots hT
  rw [sinkContainer, settleRoots, roots_eq_map]
  by_cases h₁ : (((trees T).map Prod.fst).filter SessionNode.isBottomSeparator).isEmpty = true ∨
      ((trees T).map Prod.fst).length ≤
        (((trees T).map Prod.fst).filter SessionNode.isBottomSeparator).length
  · rw [if_pos (by simpa using h₁)]
    have hb : behind (fun t => t.1.isBottomSeparator) (trees T) = trees T := by
      rcases h₁ with h | h
      · have hnone : ∀ t ∈ trees T, t.1.isBottomSeparator = false := by
          simpa [List.filter_eq_nil_iff] using h
        simpa using behind_eq_self (m := []) hnone (by simp)
      · have hall : ∀ t ∈ trees T, t.1.isBottomSeparator = true := by
          have heq := List.filter_eq_self.mp
            (List.filter_sublist.eq_of_length_le h)
          intro t ht
          exact heq t.1 (List.mem_map_of_mem ht)
        simpa using behind_eq_self (l := []) (by simp) hall
    rw [hb, ofTrees_trees]
  · rw [if_neg (by simpa using h₁)]
    by_cases h₂ : (((trees T).map Prod.fst).drop (((trees T).map Prod.fst).length -
          (((trees T).map Prod.fst).filter SessionNode.isBottomSeparator).length)).map
            SessionNode.ident =
        (((trees T).map Prod.fst).filter SessionNode.isBottomSeparator).map SessionNode.ident
    · rw [if_pos h₂, behind_trees_of_drop hnd h₂, ofTrees_trees]
    · rw [if_neg h₂, behind]
      show ofTrees (List.filter _ _ ++ _) = _
      congr 2
      apply List.filter_congr
      intro t ht
      have : t.1.ident ∈ (((trees T).map Prod.fst).filter SessionNode.isBottomSeparator).map
          SessionNode.ident ↔ t.1.isBottomSeparator = true := by
        constructor
        · intro hmem
          obtain ⟨a, ha, hat⟩ := List.mem_map.mp hmem
          rw [List.mem_filter] at ha
          obtain ⟨u, hu, rfl⟩ := List.mem_map.mp ha.1
          have : u = t := List.inj_on_of_nodup_map hnd hu ht hat
          exact this ▸ ha.2
        · intro hb
          exact List.mem_map_of_mem (List.mem_filter.mpr ⟨List.mem_map_of_mem ht, hb⟩)
      simp [this]

/-- So does the pass below them. -/
theorem sinkBelow_eq {T : LiveTree} (hT : (keys SessionNode.ident T).Nodup) :
    sinkBelow T = settleBelow SessionNode.isBottomSeparator T := by
  induction T with
  | nil => rfl
  | node a c s ihc ihs =>
      obtain ⟨-, hc, hs, -⟩ := nodup_node hT
      have hbelow : (keys SessionNode.ident
          (settleBelow SessionNode.isBottomSeparator c)).Nodup :=
        ((preorder_settleBelow_perm _ c).map SessionNode.ident).nodup_iff.mpr hc
      rw [sinkBelow, settleBelow, ihc hc, ihs hs, sinkContainer_eq hbelow]

/-- **The sink pass settles the tree.** -/
theorem sinkBottomSeparatorsIn_eq {T : LiveTree} (hT : (keys SessionNode.ident T).Nodup) :
    sinkBottomSeparatorsIn T = settle SessionNode.isBottomSeparator T := by
  have hbelow : (keys SessionNode.ident (settleBelow SessionNode.isBottomSeparator T)).Nodup :=
    ((preorder_settleBelow_perm _ T).map SessionNode.ident).nodup_iff.mpr hT
  rw [sinkBottomSeparatorsIn, sinkBelow_eq hT, sinkContainer_eq hbelow, settle]

/-! ### The invariant -/

/-- The tabs the nodes stand for, in pre-order. -/
def nodeTabs (T : LiveTree) : List ℕ := (preorder T).filterMap SessionNode.tabRef

/-- A tab has a node iff a node refers to it. -/
theorem mem_nodeTabs {T : LiveTree} {t : ℕ} :
    t ∈ nodeTabs T ↔ ∃ n ∈ preorder T, n.tabRef = some t := List.mem_filterMap

/-- The test looks for such a node. -/
theorem hasNodeForTab_iff {p : Page} {t : ℕ} : p.hasNodeForTab t = true ↔ t ∈ nodeTabs p.tree := by
  simp [Page.hasNodeForTab, mem_nodeTabs]

namespace Page

/-- The invariant of the live tree. -/
structure Valid (p : Page) : Prop where
  nodup : (keys SessionNode.ident p.tree).Nodup
  created : ∀ k ∈ keys SessionNode.ident p.tree, k < p.nodesCreated
  tabs : (nodeTabs p.tree).Nodup
  separators : ∀ n ∈ preorder p.tree, n.isSeparator = true → n.tabRef = none

theorem Valid.of_perm {p p' : Page} (h : p.Valid) (hp : (preorder p'.tree).Perm (preorder p.tree))
    (hc : p'.nodesCreated = p.nodesCreated) : p'.Valid where
  nodup := (hp.map SessionNode.ident).nodup_iff.mpr h.nodup
  created := fun k hk => hc ▸ h.created k ((hp.map SessionNode.ident).mem_iff.mp hk)
  tabs := (hp.filterMap SessionNode.tabRef).nodup_iff.mpr h.tabs
  separators := fun n hn => h.separators n (hp.mem_iff.mp hn)

theorem Valid.of_sublist {p p' : Page} (h : p.Valid)
    (hs : (preorder p'.tree).Sublist (preorder p.tree))
    (hc : p'.nodesCreated = p.nodesCreated) : p'.Valid where
  nodup := h.nodup.sublist (hs.map SessionNode.ident)
  created := fun k hk => hc ▸ h.created k ((hs.map SessionNode.ident).subset hk)
  tabs := h.tabs.sublist (hs.filterMap SessionNode.tabRef)
  separators := fun n hn => h.separators n (hs.subset hn)

/-- A new node in a container of the tree: what every pass that adds a node does. -/
structure Inserts (p p' : Page) (n : SessionNode) : Prop where
  place : ∃ q i, Present SessionNode.ident q p.tree ∧ i ≤ sizeIn q p.tree ∧
    p'.tree = insertIn SessionNode.ident q i n p.tree
  ident : n.ident = p.nodesCreated
  created : p'.nodesCreated = p.nodesCreated + 1
  fresh : ∀ t, n.tabRef = some t → t ∉ nodeTabs p.tree
  separator : n.isSeparator = true → n.tabRef = none

theorem Inserts.perm {p p' : Page} {n : SessionNode} (h : Inserts p p' n) (hp : p.Valid) :
    (preorder p'.tree).Perm (n :: preorder p.tree) := by
  obtain ⟨q, i, hq, hi, ht⟩ := h.place
  rw [ht]
  exact preorder_insertIn hp.nodup hq (sizeIn_eq hp.nodup hq ▸ hi)

theorem Inserts.not_mem {p p' : Page} {n : SessionNode} (h : Inserts p p' n) (hp : p.Valid) :
    n.ident ∉ keys SessionNode.ident p.tree := by
  intro hk
  have := hp.created _ hk
  rw [h.ident] at this
  exact absurd this (Nat.lt_irrefl _)

theorem Inserts.valid {p p' : Page} {n : SessionNode} (h : Inserts p p' n) (hp : p.Valid) :
    p'.Valid := by
  have hperm := h.perm hp
  refine ⟨?_, ?_, ?_, ?_⟩
  · rw [keys, (hperm.map SessionNode.ident).nodup_iff, List.map_cons, List.nodup_cons]
    exact ⟨h.not_mem hp, hp.nodup⟩
  · intro k hk
    rw [h.created]
    have hk' := (hperm.map SessionNode.ident).mem_iff.mp hk
    rcases List.mem_cons.mp hk' with rfl | hk'
    · rw [h.ident]
      exact Nat.lt_succ_self _
    · exact (hp.created k hk').trans (Nat.lt_succ_self _)
  · rw [nodeTabs, (hperm.filterMap SessionNode.tabRef).nodup_iff, List.filterMap_cons]
    cases ht : n.tabRef with
    | none => exact hp.tabs
    | some t => exact List.nodup_cons.mpr ⟨h.fresh t ht, hp.tabs⟩
  · intro m hm
    rcases List.mem_cons.mp (hperm.mem_iff.mp hm) with rfl | hm
    · exact h.separator
    · exact hp.separators m hm

/-! ### What a tree keeps while nodes are added -/

/-- The nodes below `N` stand as in the forest `B`. -/
structure Grown (B : LiveTree) (N : ℕ) (p : Page) : Prop where
  valid : p.Valid
  le : N ≤ p.nodesCreated
  rows : (outline [] p.tree).filter (fun r => r.1.ident < N) = outline [] B
  scopes : ∀ q, (childrenIn SessionNode.ident q none p.tree).filter (fun n => n.ident < N) =
    childrenIn SessionNode.ident q none B

/-- A tree has grown by nothing. -/
theorem Grown.refl {p : Page} (h : p.Valid) : Grown p.tree p.nodesCreated p := by
  refine ⟨h, le_refl _, ?_, ?_⟩
  · apply List.filter_eq_self.mpr
    intro r hr
    have hmem : r.1 ∈ preorder p.tree := by
      rw [preorder_eq_map []]
      exact List.mem_map_of_mem hr
    simpa using h.created _ (mem_keys_of_mem hmem)
  · intro q
    apply List.filter_eq_self.mpr
    intro n hn
    simpa using h.created _ (mem_keys_of_mem (mem_preorder_of_mem_childrenIn hn))

/-- What is filtered out is not seen. -/
theorem filter_insertIdx {α : Type} {f : α → Bool} {a : α} (ha : f a = false) {i : ℕ} {l : List α}
    (hi : i ≤ l.length) : (l.insertIdx i a).filter f = l.filter f := by
  rw [insertIdx_eq_append hi, List.filter_append, List.filter_cons_of_neg (by simp [ha]),
    ← List.filter_append, List.take_append_drop]

/-- A new node leaves the old ones where they stand. -/
theorem Grown.insert {B : LiveTree} {N : ℕ} {p p' : Page} {n : SessionNode} (h : Grown B N p)
    (hi : Inserts p p' n) : Grown B N p' := by
  have hN : (decide (n.ident < N)) = false := by
    have := h.le
    rw [hi.ident]
    simpa using this
  have hnot := hi.not_mem h.valid
  obtain ⟨q, i, hq, hle, ht⟩ := hi.place
  rw [sizeIn_eq h.valid.nodup hq] at hle
  refine ⟨hi.valid h.valid, h.le.trans (hi.created ▸ Nat.le_succ _), ?_, ?_⟩
  · rw [ht, ← h.rows]
    exact outline_insertIn_filter (p := fun m => decide (m.ident < N)) hN q i [] p.tree
  · intro r
    rw [ht, ← h.scopes r, childrenIn_insertIn h.valid.nodup hnot hq hle]
    by_cases hr : r = q
    · rw [if_pos hr, filter_insertIdx (f := fun m => decide (m.ident < N)) hN hle, hr]
    · rw [if_neg hr]

/-! ### The passes that add nodes -/

/-- A spawn index leads to a node of the tree, or to the roots. -/
theorem nodeBySpawnIndex_present (p : Page) (i : Option ℕ) :
    Present SessionNode.ident (p.nodeBySpawnIndex i) p.tree := by
  intro k hk
  cases i with
  | none => cases hk
  | some i =>
      rw [nodeBySpawnIndex, Option.filter_eq_some_iff] at hk
      simpa using hk.2

/-- What a round of `_AddMissingSessionNodes` does. -/
theorem addMissingSessionNode_cases (p : Page) (tab : ℕ) :
    (tab ∈ nodeTabs p.tree ∧ p.addMissingSessionNode tab = p) ∨
      (tab ∉ nodeTabs p.tree ∧ ∃ n, Inserts p (p.addMissingSessionNode tab) n ∧
        n.tabRef = some tab ∧ n.isSeparator = false ∧
        (p.addMissingSessionNode tab).tabs = p.tabs) := by
  rw [addMissingSessionNode]
  by_cases hnode : p.hasNodeForTab tab = true
  · rw [if_pos hnode]
    exact Or.inl ⟨hasNodeForTab_iff.mp hnode, rfl⟩
  · have hnot : tab ∉ nodeTabs p.tree := fun h => hnode (hasNodeForTab_iff.mpr h)
    rw [if_neg hnode]
    right
    refine ⟨hnot, ?_⟩
    by_cases hcur : p.startupNodeCursor < p.pendingStartupLabelTemplates.length
    · rw [if_pos hcur]
      refine ⟨_, ⟨⟨_, _, nodeBySpawnIndex_present p _, le_refl _, rfl⟩, rfl, rfl, ?_, ?_⟩, rfl, rfl,
        rfl⟩
      · rintro t ⟨⟩
        exact hnot
      · intro h
        cases h
    · rw [if_neg hcur]
      refine ⟨_, ⟨⟨_, _, present_none _, le_refl _, rfl⟩, rfl, rfl, ?_, ?_⟩, rfl, rfl, rfl⟩
      · rintro t ⟨⟩
        exact hnot
      · intro h
        cases h

/-- A separator that finds no place goes to the end. -/
theorem separatorPosition_le (p : Page) (parentNode : Option ℕ) (sep : StartupSeparator)
    (h : (p.separatorPosition parentNode sep).2 = false) :
    (p.separatorPosition parentNode sep).1 = sizeIn parentNode p.tree := by
  revert h
  rw [separatorPosition]
  cases sep.afterSpawnIndex with
  | none => exact fun h => by cases h
  | some a =>
      cases p.nodeBySpawnIndex (some a) with
      | none => exact fun _ => rfl
      | some k =>
          dsimp only
          cases indexIn parentNode k p.tree with
          | none => exact fun _ => rfl
          | some i => exact fun h => by cases h

/-- What a round of `_RealizeStartupSeparators` does. -/
theorem realizeSeparator_inserts (st : Page × List ((Option ℕ × Option ℕ) × ℕ))
    (sep : StartupSeparator) :
    ∃ n, Inserts st.1 (realizeSeparator st sep).1 n ∧ n.tabRef = none ∧ n.isSeparator = true ∧
      (realizeSeparator st sep).1.tabs = st.1.tabs := by
  refine ⟨_, ⟨⟨_, _, nodeBySpawnIndex_present _ _, ?_, rfl⟩, rfl, rfl, ?_, ?_⟩, rfl, rfl, rfl⟩
  · by_cases h : (st.1.separatorPosition (st.1.nodeBySpawnIndex sep.parentSpawnIndex) sep).2 = true
    · rw [if_pos h]
      exact min_le_right _ _
    · rw [if_neg h]
      exact (separatorPosition_le _ _ _ (by simpa using h)).le
  · rintro t ⟨⟩
  · exact fun _ => rfl

end Page

end Axan.SessionTree
