import Axan.SessionTree.Live

/-!
# Reconciling the tree with the tabs

`_OnSessionsCollectionChanged` after any change of the tab list: prune the nodes whose tab is
gone, add a node for every tab that has none, place the startup separators when they are due, and
sink the bottom separators.

* `pruneRemovedSessionNodes_eq` — the prune is one contraction, whatever the order of removal.
* `Page.Reconciled` — the nodes and the tabs correspond one to one, and the nodes that stay keep
  their ancestors and, bottom separators apart, their order. `reconciled` proves it of the handler.
-/

namespace Axan.SessionTree

open Axan.Base Axan.Base.Forest Axan.LaunchEntryWire

namespace Page

/-! ### The prune -/

/-- A node the prune keeps: a separator, or a session whose tab is still there. -/
def survives (p : Page) (n : SessionNode) : Bool := !p.isDead n

/-- Each removal contracts the tree. -/
theorem foldl_removeNodeSelfHealing (ks : List ℕ) (p : Page) :
    ks.foldl removeNodeSelfHealing p =
      { p with tree := ks.foldl (fun T k => promote SessionNode.ident k T) p.tree } := by
  induction ks generalizing p with
  | nil => rfl
  | cons k ks ih => rw [List.foldl_cons, ih, List.foldl_cons, removeNodeSelfHealing]

/-- Removing the dead nodes in any order contracts the tree to the others. -/
theorem foldl_removeNodeSelfHealing_dead {p : Page} (h : p.Valid) {dead : List SessionNode}
    (hd : dead.Perm ((preorder p.tree).filter p.isDead)) :
    (dead.map SessionNode.ident).foldl removeNodeSelfHealing p =
      { p with tree := contract p.survives p.tree } := by
  rw [foldl_removeNodeSelfHealing, foldl_promote _ h.nodup]
  congr 1
  apply contract_congr
  intro n hn
  have hmem : n.ident ∈ dead.map SessionNode.ident ↔ p.isDead n = true := by
    constructor
    · intro hk
      obtain ⟨m, hm, hmn⟩ := List.mem_map.mp hk
      have hm' := List.mem_filter.mp (hd.mem_iff.mp hm)
      exact eq_of_ident_eq h.nodup hm'.1 hn hmn ▸ hm'.2
    · intro hdead
      exact List.mem_map_of_mem (hd.mem_iff.mpr (List.mem_filter.mpr ⟨hn, hdead⟩))
  simp only [survives, hmem]
  cases p.isDead n <;> rfl

/-- The pass contracts to the nodes of open tabs. -/
theorem pruneRemovedSessionNodes_eq {p : Page} (h : p.Valid) :
    p.pruneRemovedSessionNodes = { p with tree := contract p.survives p.tree } :=
  foldl_removeNodeSelfHealing_dead h (List.Perm.refl _)

theorem valid_contract {p : Page} (h : p.Valid) (f : SessionNode → Bool) :
    Valid { p with tree := contract f p.tree } := by
  have hsub : (preorder (contract f p.tree)).Sublist (preorder p.tree) := by
    rw [preorder_contract]
    exact List.filter_sublist
  exact h.of_sublist hsub rfl

/-! ### The passes after it -/

/-- Every session node stands for a tab. -/
def Live (p : Page) : Prop :=
  ∀ n ∈ preorder p.tree, n.isSeparator = false → ∃ t ∈ p.tabs, n.tabRef = some t

/-- Then each session has an open tab. -/
theorem live_contract (p : Page) : Live { p with tree := contract p.survives p.tree } := by
  intro n hn hsep
  rw [preorder_contract, List.mem_filter] at hn
  have hs := hn.2
  simp only [survives, isDead, hsep, Bool.not_false, Bool.true_and, Bool.not_not] at hs
  cases ht : n.tabRef with
  | none => simp [ht] at hs
  | some t =>
      rw [ht, Option.any_some, decide_eq_true_eq] at hs
      exact ⟨t, hs, rfl⟩

/-- What holds while the tabs of a list get their nodes. -/
structure Adding (B : LiveTree) (N : ℕ) (tabs : List ℕ) (p : Page) : Prop where
  grown : Grown B N p
  live : Live p
  tabs_eq : p.tabs = tabs

/-- A node for a tab keeps what holds. -/
theorem Adding.insert {B : LiveTree} {N : ℕ} {tabs : List ℕ} {p p' : Page} {n : SessionNode}
    (h : Adding B N tabs p) (hi : Inserts p p' n) (ht : p'.tabs = p.tabs)
    (hn : n.isSeparator = false → ∃ t ∈ tabs, n.tabRef = some t) : Adding B N tabs p' := by
  refine ⟨h.grown.insert hi, ?_, ht.trans h.tabs_eq⟩
  intro m hm hsep
  rw [ht, h.tabs_eq]
  rcases List.mem_cons.mp ((hi.perm h.grown.valid).mem_iff.mp hm) with rfl | hm
  · exact hn hsep
  · have := h.live m hm hsep
    rwa [h.tabs_eq] at this

/-- Other fields do not count. -/
theorem Adding.of_eq {B : LiveTree} {N : ℕ} {tabs : List ℕ} {p p' : Page} (h : Adding B N tabs p)
    (ht : p'.tree = p.tree) (hc : p'.nodesCreated = p.nodesCreated) (htabs : p'.tabs = p.tabs) :
    Adding B N tabs p' where
  grown :=
    { valid := h.grown.valid.of_perm (ht ▸ List.Perm.refl _) hc
      le := hc ▸ h.grown.le
      rows := ht ▸ h.grown.rows
      scopes := ht ▸ h.grown.scopes }
  live := by
    intro n hn hsep
    rw [htabs]
    exact h.live n (ht ▸ hn) hsep
  tabs_eq := htabs.trans h.tabs_eq

/-- No tab loses its node. -/
theorem Inserts.nodeTabs_subset {p p' : Page} {n : SessionNode} (h : Inserts p p' n)
    (hp : p.Valid) : nodeTabs p.tree ⊆ nodeTabs p'.tree := by
  intro t ht
  obtain ⟨m, hm, hmt⟩ := mem_nodeTabs.mp ht
  exact mem_nodeTabs.mpr ⟨m, (h.perm hp).mem_iff.mpr (List.mem_cons_of_mem _ hm), hmt⟩

/-- Every tab of the list gets a node. -/
theorem foldl_addMissingSessionNode {B : LiveTree} {N : ℕ} {tabs todo : List ℕ} {p : Page}
    (h : Adding B N tabs p) (hsub : todo ⊆ tabs) :
    Adding B N tabs (todo.foldl addMissingSessionNode p) ∧
      nodeTabs p.tree ⊆ nodeTabs (todo.foldl addMissingSessionNode p).tree ∧
      todo ⊆ nodeTabs (todo.foldl addMissingSessionNode p).tree := by
  induction todo generalizing p with
  | nil => exact ⟨h, List.Subset.refl _, List.nil_subset _⟩
  | cons t todo ih =>
      rw [List.foldl_cons]
      have htabs : t ∈ tabs := hsub List.mem_cons_self
      have htodo : todo ⊆ tabs := fun u hu => hsub (List.mem_cons_of_mem _ hu)
      rcases addMissingSessionNode_cases p t with ⟨hmem, heq⟩ | ⟨-, n, hi, hnt, -, ht⟩
      · rw [heq]
        obtain ⟨h₁, h₂, h₃⟩ := ih h htodo
        exact ⟨h₁, h₂, List.cons_subset.mpr ⟨h₂ hmem, h₃⟩⟩
      · have hadd := h.insert hi ht fun _ => ⟨t, htabs, hnt⟩
        obtain ⟨h₁, h₂, h₃⟩ := ih hadd htodo
        have hnode : t ∈ nodeTabs (p.addMissingSessionNode t).tree :=
          mem_nodeTabs.mpr ⟨n, (hi.perm h.grown.valid).mem_iff.mpr List.mem_cons_self, hnt⟩
        exact ⟨h₁, List.Subset.trans (hi.nodeTabs_subset h.grown.valid) h₂,
          List.cons_subset.mpr ⟨h₂ hnode, h₃⟩⟩

theorem foldl_realizeSeparator {B : LiveTree} {N : ℕ} {tabs : List ℕ}
    (seps : List StartupSeparator) (st : Page × List ((Option ℕ × Option ℕ) × ℕ))
    (h : Adding B N tabs st.1) :
    Adding B N tabs (seps.foldl realizeSeparator st).1 ∧
      nodeTabs st.1.tree ⊆ nodeTabs (seps.foldl realizeSeparator st).1.tree := by
  induction seps generalizing st with
  | nil => exact ⟨h, List.Subset.refl _⟩
  | cons sep seps ih =>
      obtain ⟨n, hi, -, hsep, ht⟩ := realizeSeparator_inserts st sep
      have hadd := h.insert hi ht fun hn => by rw [hsep] at hn; cases hn
      obtain ⟨h₁, h₂⟩ := ih _ hadd
      exact ⟨h₁, List.Subset.trans (hi.nodeTabs_subset h.grown.valid) h₂⟩

/-- The sink after the separators were placed: whether or not they were due, the result is a
settled tree in which only nodes were added. -/
theorem sink_realizeStartupSeparators {B : LiveTree} {N : ℕ} {tabs : List ℕ} {p : Page}
    (h : Adding B N tabs p) :
    ∃ p', Adding B N tabs p' ∧ nodeTabs p.tree ⊆ nodeTabs p'.tree ∧
      (sinkBottomSeparators (realizeStartupSeparators p)).tree =
        settle SessionNode.isBottomSeparator p'.tree ∧
      (sinkBottomSeparators (realizeStartupSeparators p)).tabs = tabs ∧
      (sinkBottomSeparators (realizeStartupSeparators p)).nodesCreated = p'.nodesCreated := by
  rw [realizeStartupSeparators]
  by_cases h₁ : p.startupSeparatorsRealized = true
  · rw [if_pos h₁]
    exact ⟨p, h, List.Subset.refl _, sinkBottomSeparatorsIn_eq h.grown.valid.nodup, h.tabs_eq, rfl⟩
  · rw [if_neg h₁]
    by_cases h₂ : p.startupNodeCursor < p.pendingStartupLabelTemplates.length
    · rw [if_pos h₂]
      exact ⟨p, h, List.Subset.refl _, sinkBottomSeparatorsIn_eq h.grown.valid.nodup, h.tabs_eq,
        rfl⟩
    · rw [if_neg h₂]
      by_cases h₃ : p.pendingStartupSeparators.isEmpty = true
      · rw [if_pos h₃]
        exact ⟨p, h, List.Subset.refl _, sinkBottomSeparatorsIn_eq h.grown.valid.nodup, h.tabs_eq,
          rfl⟩
      · rw [if_neg h₃]
        have hstart : Adding B N tabs { p with startupSeparatorsRealized := true } :=
          h.of_eq rfl rfl rfl
        obtain ⟨h₄, h₅⟩ := foldl_realizeSeparator p.pendingStartupSeparators
          ({ p with startupSeparatorsRealized := true }, []) hstart
        refine ⟨_, h₄, h₅, ?_, h₄.tabs_eq, rfl⟩
        have hnd := h₄.grown.valid.nodup
        simp only [sinkBottomSeparators]
        rw [sinkBottomSeparatorsIn_eq hnd, sinkBottomSeparatorsIn_eq, settle_settle]
        exact (keys_settle _ _).nodup_iff.mpr hnd

/-! ### The handler -/

/-- The surviving nodes of the old tree in pre-order, each under its surviving ancestors. -/
def survivors (p : Page) : List (SessionNode × List SessionNode) :=
  ((outline [] p.tree).filter fun r => p.survives r.1).map fun r => (r.1, r.2.filter p.survives)

/-- The tree of `p'` is that of `p` brought in step with the tabs. -/
structure Reconciled (p p' : Page) : Prop where
  /-- No node stands at two places. -/
  once : (preorder p'.tree).Nodup
  /-- Every tab has exactly one node. -/
  tab_node : ∀ t ∈ p.tabs, ∃! n, n ∈ preorder p'.tree ∧ n.isSeparator = false ∧ n.tabRef = some t
  /-- Every session node has a tab. -/
  node_tab : ∀ n ∈ preorder p'.tree, n.isSeparator = false → ∃ t ∈ p.tabs, n.tabRef = some t
  /-- The old nodes that survive, and no others, are there, each under its surviving ancestors
  and nothing else; so its parent is the nearest of them. -/
  ancestors : ((outline [] p'.tree).filter fun r => r.1 ∈ preorder p.tree).Perm p.survivors
  /-- They stand in the old order, apart from the bottom separators and what is under them. -/
  order : ((outline [] p'.tree).filter fun r => r.1 ∈ preorder p.tree).filter
      (clear SessionNode.isBottomSeparator) =
    p.survivors.filter (clear SessionNode.isBottomSeparator)
  /-- In each scope the bottom separators stand behind the other old nodes, in the old order. -/
  scopes : ∀ q, (childrenIn SessionNode.ident q none p'.tree).filter (· ∈ preorder p.tree) =
    behind SessionNode.isBottomSeparator
      (childrenIn SessionNode.ident q none (contract p.survives p.tree))

/-- What is left after the contraction are the survivors. -/
theorem outline_contract_survives (p : Page) :
    outline [] (contract p.survives p.tree) = p.survivors := by
  rw [survivors, ← outline_contract, List.filter_nil]

/-- The handler adds nodes to the contracted tree until every tab has one, and settles it. -/
theorem onSessionsCollectionChanged_eq {p : Page} (hp : p.Valid)
    (hs : p.suppressSessionTreeReconcile = false) :
    ∃ q, Adding (contract p.survives p.tree) p.nodesCreated p.tabs q ∧
      p.tabs ⊆ nodeTabs q.tree ∧
      p.onSessionsCollectionChanged.tree = settle SessionNode.isBottomSeparator q.tree ∧
      p.onSessionsCollectionChanged.tabs = p.tabs ∧
      p.onSessionsCollectionChanged.nodesCreated = q.nodesCreated := by
  have hstart : Adding (contract p.survives p.tree) p.nodesCreated p.tabs
      { p with tree := contract p.survives p.tree } :=
    ⟨Grown.refl (valid_contract hp _), live_contract p, rfl⟩
  obtain ⟨hadd, -, hall⟩ := foldl_addMissingSessionNode hstart (List.Subset.refl _)
  obtain ⟨q, hq, hsub, ht, htabs, hc⟩ := sink_realizeStartupSeparators hadd
  have heq : p.onSessionsCollectionChanged = sinkBottomSeparators (realizeStartupSeparators
      (p.tabs.foldl addMissingSessionNode { p with tree := contract p.survives p.tree })) := by
    rw [onSessionsCollectionChanged, if_neg (by simp [hs]), pruneRemovedSessionNodes_eq hp,
      addMissingSessionNodes]
  rw [heq]
  exact ⟨q, hq, List.Subset.trans hall hsub, ht, htabs, hc⟩

/-- The nodes below the bound are the old ones. -/
theorem Grown.lt_iff {p p' : Page} (hp : p.Valid) {f : SessionNode → Bool}
    (h : Grown (contract f p.tree) p.nodesCreated p') {n : SessionNode}
    (hn : n ∈ preorder p'.tree) : n.ident < p.nodesCreated ↔ n ∈ preorder p.tree := by
  constructor
  · intro hlt
    rw [preorder_eq_map []] at hn
    obtain ⟨r, hr, rfl⟩ := List.mem_map.mp hn
    have hmem : r ∈ (outline [] p'.tree).filter fun r => r.1.ident < p.nodesCreated :=
      List.mem_filter.mpr ⟨hr, by simpa using hlt⟩
    rw [h.rows] at hmem
    have hc : r.1 ∈ preorder (contract f p.tree) := by
      rw [preorder_eq_map []]
      exact List.mem_map_of_mem hmem
    rw [preorder_contract] at hc
    exact (List.mem_filter.mp hc).1
  · intro hold
    exact hp.created _ (mem_keys_of_mem hold)

/-- A tab has one node. -/
theorem eq_of_tabRef_eq {l : List SessionNode} (hl : (l.filterMap SessionNode.tabRef).Nodup)
    {a b : SessionNode} {t : ℕ} (ha : a ∈ l) (hb : b ∈ l) (hat : a.tabRef = some t)
    (hbt : b.tabRef = some t) : a = b := by
  induction l with
  | nil => cases ha
  | cons c l ih =>
      have hne : ∀ d ∈ l, c.tabRef = some t → d.tabRef ≠ some t := by
        intro d hd hct hdt
        rw [List.filterMap_cons_some hct, List.nodup_cons] at hl
        exact hl.1 (List.mem_filterMap.mpr ⟨d, hd, hdt⟩)
      rcases List.mem_cons.mp ha with rfl | ha'
      · rcases List.mem_cons.mp hb with rfl | hb'
        · rfl
        · exact absurd hbt (hne b hb' hat)
      · rcases List.mem_cons.mp hb with rfl | hb'
        · exact absurd hat (hne a ha' hbt)
        · exact ih (hl.sublist ((List.sublist_cons_self c l).filterMap _)) ha' hb'

/-- The passes together reconcile the tree. -/
theorem reconciled_of_settle {p p' q : Page} (hp : p.Valid)
    (h : Adding (contract p.survives p.tree) p.nodesCreated p.tabs q)
    (hall : p.tabs ⊆ nodeTabs q.tree)
    (ht : p'.tree = settle SessionNode.isBottomSeparator q.tree) : Reconciled p p' := by
  have hq := h.grown.valid
  have hperm : (preorder p'.tree).Perm (preorder q.tree) := ht ▸ preorder_settle_perm _ _
  have hrows : (outline [] p'.tree).Perm (outline [] q.tree) := ht ▸ outline_settle_perm _ _ _
  have hnodup : (preorder q.tree).Nodup := hq.nodup.of_map _
  -- the old rows of the tree before the sink are the survivors
  have hold : ((outline [] q.tree).filter fun r => r.1 ∈ preorder p.tree) = p.survivors := by
    rw [← outline_contract_survives, ← h.grown.rows]
    apply List.filter_congr
    intro r hr
    have hmem : r.1 ∈ preorder q.tree := by
      rw [preorder_eq_map []]
      exact List.mem_map_of_mem hr
    exact decide_eq_decide.mpr (h.grown.lt_iff hp hmem).symm
  refine ⟨hperm.nodup_iff.mpr hnodup, ?_, ?_, ?_, ?_, ?_⟩
  · intro t htab
    obtain ⟨n, hn, hnt⟩ := mem_nodeTabs.mp (hall htab)
    have hsep : n.isSeparator = false := by
      cases hs : n.isSeparator with
      | false => rfl
      | true =>
          rw [hq.separators n hn hs] at hnt
          cases hnt
    refine ⟨n, ⟨hperm.mem_iff.mpr hn, hsep, hnt⟩, ?_⟩
    rintro m ⟨hm, -, hmt⟩
    exact eq_of_tabRef_eq hq.tabs (hperm.mem_iff.mp hm) hn hmt hnt
  · intro n hn hsep
    have := h.live n (hperm.mem_iff.mp hn) hsep
    rwa [h.tabs_eq] at this
  · rw [← hold]
    exact hrows.filter _
  · rw [← hold, List.filter_comm, ht, outline_settle_filter, List.filter_comm]
  · intro s
    rw [← h.grown.scopes s, ht, childrenIn_settle _ hq.nodup (foreign_none _), filter_behind]
    congr 1
    apply List.filter_congr
    intro n hn
    exact decide_eq_decide.mpr (h.grown.lt_iff hp (mem_preorder_of_mem_childrenIn hn)).symm

/-- **The handler reconciles the tree**, for every valid tree and every list of tabs. -/
theorem reconciled (p : Page) (hp : p.Valid) (hs : p.suppressSessionTreeReconcile = false) :
    Reconciled p p.onSessionsCollectionChanged ∧
      ∀ dead : List SessionNode, dead.Perm ((preorder p.tree).filter p.isDead) →
        (dead.map SessionNode.ident).foldl removeNodeSelfHealing p =
          p.pruneRemovedSessionNodes := by
  constructor
  · obtain ⟨q, hq, hall, ht, -, -⟩ := onSessionsCollectionChanged_eq hp hs
    exact reconciled_of_settle hp hq hall ht
  · intro dead hd
    rw [foldl_removeNodeSelfHealing_dead hp hd, pruneRemovedSessionNodes_eq hp]

/-- A parent with a child and a bottom separator, next to another session; the tab of the parent
has been closed. -/
def closedParent : Page where
  settings := []
  tabs := [1, 2]
  tree :=
    node { ident := 0, tabRef := some 0 }
      (node { ident := 1, tabRef := some 1 } nil
        (node { ident := 3, isSeparator := true, placement := placementBottomW } nil nil))
      (node { ident := 2, tabRef := some 2 } nil nil)
  tabsCreated := 3
  nodesCreated := 4

/-- The page of the witness is valid. -/
theorem closedParent_valid : closedParent.Valid where
  nodup := by decide
  created := by decide
  tabs := by decide
  separators := by decide

theorem reconciled_closedParent :
    closedParent.Valid ∧ closedParent.suppressSessionTreeReconcile = false ∧
      Reconciled closedParent closedParent.onSessionsCollectionChanged ∧
      (preorder closedParent.onSessionsCollectionChanged.tree).map SessionNode.ident = [1, 2, 3] :=
  ⟨closedParent_valid, rfl, (reconciled closedParent closedParent_valid rfl).1, by decide⟩

/-- The bottom separator stood before the other session, and stands behind it once the parent is
gone: the two are siblings then, and the sink pass moves it. -/
theorem separator_overtaken :
    closedParent.Valid ∧
      ∃ sep other, closedParent.survives sep = true ∧ closedParent.survives other = true ∧
        Before (preorder closedParent.tree) sep other ∧
        Before (preorder closedParent.onSessionsCollectionChanged.tree) other sep ∧
        ¬ Before (preorder closedParent.onSessionsCollectionChanged.tree) sep other := by
  refine ⟨closedParent_valid,
    { ident := 3, isSeparator := true, placement := placementBottomW },
    { ident := 2, tabRef := some 2 }, ?_⟩
  unfold Before
  decide

/-- A change of the tab list, and the handler. -/
def changeTabs (p : Page) (tabs : List ℕ) : Page :=
  onSessionsCollectionChanged { p with tabs := tabs }

end Page

end Axan.SessionTree
