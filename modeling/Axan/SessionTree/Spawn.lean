import Axan.SessionTree.Reconcile

/-!
# The startup loop

`ProcessStartupActions` runs one action per session of the startup tree. An action opens a tab or
none; each tab that appears takes the next slot of the startup metadata.

* `Page.Spawned` — the state of the page while the loop runs: the tabs opened so far have the
  first slots, each node under the node of its slot's parent. `spawned_openTab` is the step.
* `processStartupActions_cases` — the page after the loop, with the startup separators added.
* `creators` — the actions that opened a tab, in order.
* `carriesOwn_iff` — every node carries the data of the session whose action opened its tab
  exactly when the slots of the tabs hold the same data as the sessions of their actions.
-/

namespace Axan.SessionTree

open Axan.Base Axan.Base.Forest Axan.LaunchEntryWire

/-! ### The nodes of the slots -/

/-- A parent comes before its children. -/
def ParentsFirst (S : List StartupSession) : Prop :=
  ∀ (k : ℕ) s, S[k]? = some s → ∀ i, s.parentIndex = some i → i < k

/-- The node of a slot. -/
def slotNode (settings : List LaunchEntry) (k : ℕ) (s : StartupSession) : SessionNode :=
  createSessionNode settings k k s.labelTemplate s.iconOverride s.iconColor s.colorTarget s.id

/-- The nodes of the first slots, each with the scope it is in. -/
def slotNodes (settings : List LaunchEntry) (S : List StartupSession) (c : ℕ) :
    List (Option ℕ × SessionNode) :=
  (S.take c).mapIdx fun k s => (s.parentIndex, slotNode settings k s)

variable {settings : List LaunchEntry} {S : List StartupSession}

/-- One more session has its node. -/
theorem slotNodes_succ {c : ℕ} {s : StartupSession} (h : S[c]? = some s) :
    slotNodes settings S (c + 1) =
      slotNodes settings S c ++ [(s.parentIndex, slotNode settings c s)] := by
  have hc : c < S.length := (List.getElem?_eq_some_iff.mp h).1
  have hlen : (S.take c).length = c := by simp; omega
  rw [slotNodes, List.take_add_one, h, Option.toList_some, List.mapIdx_concat, hlen, slotNodes]

/-- The nodes are those of the sessions so far. -/
theorem mem_slotNodes {c : ℕ} {r : Option ℕ × SessionNode} :
    r ∈ slotNodes settings S c ↔
      ∃ k s, k < c ∧ S[k]? = some s ∧ r = (s.parentIndex, slotNode settings k s) := by
  constructor
  · intro h
    obtain ⟨k, hk, rfl⟩ := List.mem_mapIdx.mp h
    have hlt : k < c := by
      have := hk
      simp only [List.length_take] at this
      omega
    refine ⟨k, (S.take c)[k], hlt, ?_, rfl⟩
    rw [← List.getElem?_take_of_lt hlt]
    exact List.getElem?_eq_getElem hk
  · rintro ⟨k, s, hk, hs, rfl⟩
    have hget : (S.take c)[k]? = some s := by rw [List.getElem?_take_of_lt hk, hs]
    obtain ⟨hlt, rfl⟩ := List.getElem?_eq_some_iff.mp hget
    exact List.mem_mapIdx.mpr ⟨k, hlt, rfl⟩

/-- They are numbered in order. -/
theorem idents_slotNodes {c : ℕ} (h : c ≤ S.length) :
    (slotNodes settings S c).map (fun r => r.2.ident) = List.range c := by
  induction c with
  | zero => simp [slotNodes]
  | succ c ih =>
      have hs : S[c]? = some S[c] := List.getElem?_eq_getElem (by omega)
      rw [slotNodes_succ hs, List.map_append, ih (by omega), List.range_succ]
      rfl

/-! ### The loop -/

namespace Page

/-- The page of the startup tree when `c` slots are taken. -/
def slotPage (settings : List LaunchEntry) (S : List StartupSession)
    (seps : List StartupSeparator) (c : ℕ) (tabs : List ℕ) (tree : LiveTree) : Page :=
  { startupPage settings S seps with
    tabs := tabs
    tree := tree
    tabsCreated := c
    nodesCreated := c
    startupNodeCursor := c
    startupNodesBySpawnIndex := (List.range c).map some ++ List.replicate (S.length - c) none }

/-- The page while the loop runs and `c` tabs are open. -/
structure Spawned (settings : List LaunchEntry) (S : List StartupSession)
    (seps : List StartupSeparator) (c : ℕ) (p : Page) : Prop where
  state : p = slotPage settings S seps c p.tabs p.tree
  lists : Lists SessionNode.ident p.tree (slotNodes settings S c)
  tabs : ∀ t, t ∈ p.tabs ↔ t < c
  le : c ≤ S.length

variable {seps : List StartupSeparator}

/-- At the start there is none. -/
theorem spawned_startupPage : Spawned settings S seps 0 (startupPage settings S seps) where
  state := by simp [slotPage, startupPage, setStartupSeparators, setStartupNodeMetadata]
  lists := lists_nil
  tabs := by simp [startupPage, setStartupSeparators, setStartupNodeMetadata]
  le := Nat.zero_le _

/-- The tree has the first identities. -/
theorem Spawned.keys_perm {c : ℕ} {p : Page} (h : Spawned settings S seps c p) :
    (keys SessionNode.ident p.tree).Perm (List.range c) := by
  have := h.lists.keys_perm
  rwa [idents_slotNodes h.le] at this

/-- And no other. -/
theorem Spawned.mem_keys {c : ℕ} {p : Page} (h : Spawned settings S seps c p) {k : ℕ} :
    k ∈ keys SessionNode.ident p.tree ↔ k < c := by
  rw [h.keys_perm.mem_iff, List.mem_range]

/-- Its nodes are those of the sessions. -/
theorem Spawned.mem_preorder {c : ℕ} {p : Page} (h : Spawned settings S seps c p)
    {n : SessionNode} :
    n ∈ preorder p.tree ↔ ∃ k s, k < c ∧ S[k]? = some s ∧ n = slotNode settings k s := by
  rw [h.lists.nodes.mem_iff, List.mem_map]
  constructor
  · rintro ⟨r, hr, rfl⟩
    obtain ⟨k, s, hk, hs, rfl⟩ := mem_slotNodes.mp hr
    exact ⟨k, s, hk, hs, rfl⟩
  · rintro ⟨k, s, hk, hs, rfl⟩
    exact ⟨_, mem_slotNodes.mpr ⟨k, s, hk, hs, rfl⟩, rfl⟩

/-- Each stands for its tab. -/
theorem Spawned.mem_nodeTabs {c : ℕ} {p : Page} (h : Spawned settings S seps c p) {t : ℕ} :
    t ∈ nodeTabs p.tree ↔ t < c := by
  rw [SessionTree.mem_nodeTabs]
  constructor
  · rintro ⟨n, hn, hnt⟩
    obtain ⟨k, s, hk, -, rfl⟩ := h.mem_preorder.mp hn
    cases hnt
    exact hk
  · intro ht
    have hlt : t < S.length := lt_of_lt_of_le ht h.le
    have hs : S[t]? = some S[t] := List.getElem?_eq_getElem hlt
    exact ⟨_, h.mem_preorder.mpr ⟨t, _, ht, hs, rfl⟩, rfl⟩

theorem Spawned.valid {c : ℕ} {p : Page} (h : Spawned settings S seps c p) : p.Valid where
  nodup := h.keys_perm.nodup_iff.mpr List.nodup_range
  created := by
    intro k hk
    rw [h.state]
    exact h.mem_keys.mp hk
  tabs := by
    rw [nodeTabs, (h.lists.nodes.filterMap SessionNode.tabRef).nodup_iff]
    have hmap : ((slotNodes settings S c).map Prod.snd).filterMap SessionNode.tabRef =
        (slotNodes settings S c).map fun r => r.2.ident := by
      rw [List.filterMap_map, ← List.filterMap_eq_map]
      apply List.filterMap_congr
      intro r hr
      obtain ⟨k, s, -, -, rfl⟩ := mem_slotNodes.mp hr
      rfl
    rw [hmap, idents_slotNodes h.le]
    exact List.nodup_range
  separators := by
    intro n hn hsep
    obtain ⟨k, s, -, -, rfl⟩ := h.mem_preorder.mp hn
    cases hsep

/-- With a node for each tab nothing is added. -/
theorem foldl_addMissingSessionNode_of_mem {l : List ℕ} {p : Page} (h : l ⊆ nodeTabs p.tree) :
    l.foldl addMissingSessionNode p = p := by
  induction l with
  | nil => rfl
  | cons t l ih =>
      have ht : p.hasNodeForTab t = true := hasNodeForTab_iff.mpr (h List.mem_cons_self)
      rw [List.foldl_cons, addMissingSessionNode, if_pos ht]
      exact ih fun u hu => h (List.mem_cons_of_mem _ hu)

/-- Only one tab of the list needs a node. -/
theorem foldl_addMissingSessionNode_split {l₁ l₂ : List ℕ} {c : ℕ} {p : Page}
    (h₁ : l₁ ⊆ nodeTabs p.tree) (h₂ : l₂ ⊆ nodeTabs (p.addMissingSessionNode c).tree) :
    (l₁ ++ c :: l₂).foldl addMissingSessionNode p = p.addMissingSessionNode c := by
  rw [List.foldl_append, List.foldl_cons, foldl_addMissingSessionNode_of_mem h₁,
    foldl_addMissingSessionNode_of_mem h₂]

/-- A slot of the node list. -/
theorem getElem?_slots {c k : ℕ} (n : ℕ) (hk : k < c) :
    ((List.range c).map some ++ List.replicate n (none : Option ℕ))[k]? = some (some k) := by
  rw [List.getElem?_append_left (by simpa using hk), List.getElem?_map, List.getElem?_range hk]
  rfl

/-- A spawn index leads to its own node. -/
theorem Spawned.nodeBySpawnIndex {c : ℕ} {p : Page} (h : Spawned settings S seps c p) {k : ℕ}
    (hk : k < c) : p.nodeBySpawnIndex (some k) = some k := by
  have hmem : k ∈ keys SessionNode.ident p.tree := h.mem_keys.mpr hk
  have hslot : p.startupNodesBySpawnIndex[k]? = some (some k) := by
    rw [h.state]
    exact getElem?_slots _ hk
  simp [Page.nodeBySpawnIndex, hslot, hmem]

/-- So does that of a parent. -/
theorem Spawned.nodeBySpawnIndex_parent {c : ℕ} {p : Page} (h : Spawned settings S seps c p)
    (hS : ParentsFirst S) {s : StartupSession} (hs : S[c]? = some s) :
    p.nodeBySpawnIndex s.parentIndex = s.parentIndex := by
  cases hp : s.parentIndex with
  | none => rfl
  | some i => exact h.nodeBySpawnIndex (hS c s hs i hp)

/-- One more slot is filled. -/
theorem set_slots {c m : ℕ} (h : c < m) :
    ((List.range c).map some ++ List.replicate (m - c) (none : Option ℕ)).set c (some c) =
      (List.range (c + 1)).map some ++ List.replicate (m - (c + 1)) none := by
  obtain ⟨d, rfl⟩ : ∃ d, m = c + 1 + d := ⟨m - (c + 1), by omega⟩
  have h₁ : c + 1 + d - c = d + 1 := by omega
  have h₂ : c + 1 + d - (c + 1) = d := by omega
  rw [List.set_append_right _ _ (by simp), h₁, h₂, List.replicate_succ, List.range_succ]
  simp

/-- The round that gives a new tab the next slot. -/
theorem addMissingSessionNode_slotPage {c : ℕ} {tabs : List ℕ} {T : LiveTree} {s : StartupSession}
    (hs : S[c]? = some s) (hnew : c ∉ nodeTabs T)
    (hparent : (slotPage settings S seps c tabs T).nodeBySpawnIndex s.parentIndex =
      s.parentIndex) :
    ({ slotPage settings S seps c tabs T with tabsCreated := c + 1 } : Page).addMissingSessionNode
        c =
      slotPage settings S seps (c + 1) tabs
        (insertIn SessionNode.ident s.parentIndex (sizeIn s.parentIndex T)
          (slotNode settings c s) T) := by
  have hc : c < S.length := (List.getElem?_eq_some_iff.mp hs).1
  have hnode : ¬ ({ slotPage settings S seps c tabs T with tabsCreated := c + 1 } :
      Page).hasNodeForTab c = true := fun h => hnew (hasNodeForTab_iff.mp h)
  have hcur : ({ slotPage settings S seps c tabs T with tabsCreated := c + 1 } :
      Page).startupNodeCursor < ({ slotPage settings S seps c tabs T with
        tabsCreated := c + 1 } : Page).pendingStartupLabelTemplates.length := by
    simpa [slotPage, startupPage, setStartupSeparators, setStartupNodeMetadata] using hc
  rw [addMissingSessionNode, if_neg hnode, if_pos hcur]
  have hparent' : ({ slotPage settings S seps c tabs T with tabsCreated := c + 1 } :
      Page).nodeBySpawnIndex s.parentIndex = s.parentIndex := hparent
  simp only [slotPage, startupPage, setStartupSeparators, setStartupNodeMetadata,
    List.getElem?_map, hs, Option.map_some, Option.getD_some, Option.join_some] at hparent' ⊢
  rw [hparent', set_slots hc]
  rfl

/-- The next tab gets the node of the next session. -/
theorem spawned_addMissingSessionNode (hS : ParentsFirst S) {c : ℕ} {p : Page}
    (h : Spawned settings S seps c p) (hc : c < S.length) {tabs : List ℕ}
    (ht : ∀ t, t ∈ tabs ↔ t < c + 1) :
    Spawned settings S seps (c + 1)
      (({ p with tabs := tabs, tabsCreated := c + 1 } : Page).addMissingSessionNode c) := by
  have hs : S[c]? = some S[c] := List.getElem?_eq_getElem hc
  have hparent := h.nodeBySpawnIndex_parent hS hs
  have hpresent : Present SessionNode.ident S[c].parentIndex p.tree := by
    rw [← hparent]
    exact nodeBySpawnIndex_present p _
  have hnew : c ∉ nodeTabs p.tree := fun hmem =>
    absurd (h.mem_nodeTabs.mp hmem) (Nat.lt_irrefl c)
  have hfresh : (slotNode settings c S[c]).ident ∉ keys SessionNode.ident p.tree := fun hmem =>
    absurd (h.mem_keys.mp hmem) (Nat.lt_irrefl c)
  have heq : ({ p with tabs := tabs, tabsCreated := c + 1 } : Page).addMissingSessionNode c =
      slotPage settings S seps (c + 1) tabs (insertIn SessionNode.ident S[c].parentIndex
        (sizeIn S[c].parentIndex p.tree) (slotNode settings c S[c]) p.tree) := by
    have hpage : ({ p with tabs := tabs, tabsCreated := c + 1 } : Page) =
        { slotPage settings S seps c tabs p.tree with tabsCreated := c + 1 } := by
      rw [h.state]
      rfl
    have hslot : (slotPage settings S seps c tabs p.tree).nodeBySpawnIndex S[c].parentIndex =
        S[c].parentIndex := by
      rw [h.state] at hparent
      exact hparent
    rw [hpage, addMissingSessionNode_slotPage hs hnew hslot]
  rw [heq]
  refine ⟨rfl, ?_, ht, hc⟩
  have hlists := h.lists.append h.valid.nodup hfresh hpresent
  rw [← sizeIn_eq h.valid.nodup hpresent] at hlists
  rw [slotNodes_succ hs]
  exact hlists

/-- Settling a tree without bottom separators leaves it alone. -/
theorem settle_eq_self {T : LiveTree} (h : ∀ n ∈ preorder T, n.isBottomSeparator = false) :
    settle SessionNode.isBottomSeparator T = T := by
  have hroots : ∀ G : LiveTree, (∀ n ∈ preorder G, n.isBottomSeparator = false) →
      settleRoots SessionNode.isBottomSeparator G = G := by
    intro G hG
    have hmem : ∀ t ∈ trees G, t.1.isBottomSeparator = false := by
      intro t ht
      apply hG
      apply mem_preorder_of_mem_roots
      rw [roots_eq_map]
      exact List.mem_map_of_mem ht
    have hb := behind_eq_self (m := []) hmem (by simp)
    rw [List.append_nil] at hb
    rw [settleRoots, hb, ofTrees_trees]
  have hbelow : ∀ G : LiveTree, (∀ n ∈ preorder G, n.isBottomSeparator = false) →
      settleBelow SessionNode.isBottomSeparator G = G := by
    intro G
    induction G with
    | nil => exact fun _ => rfl
    | node a c s ihc ihs =>
        intro hG
        have hc : ∀ n ∈ preorder c, n.isBottomSeparator = false := fun n hn =>
          hG n (List.mem_cons_of_mem _ (List.mem_append_left _ hn))
        have hs : ∀ n ∈ preorder s, n.isBottomSeparator = false := fun n hn =>
          hG n (List.mem_cons_of_mem _ (List.mem_append_right _ hn))
        rw [settleBelow, ihc hc, ihs hs, hroots c hc]
  rw [settle, hbelow T h, hroots T h]

/-- There is no separator to put last. -/
theorem Spawned.settle_eq {c : ℕ} {p : Page} (h : Spawned settings S seps c p) :
    settle SessionNode.isBottomSeparator p.tree = p.tree := by
  apply settle_eq_self
  intro n hn
  obtain ⟨k, s, -, -, rfl⟩ := h.mem_preorder.mp hn
  rfl

/-- Nothing is pruned while the tabs of the loop are open. -/
theorem Spawned.prune_eq {c : ℕ} {p : Page} (h : Spawned settings S seps c p) {tabs : List ℕ}
    (ht : ∀ t < c, t ∈ tabs) :
    ({ p with tabs := tabs, tabsCreated := c + 1 } : Page).pruneRemovedSessionNodes =
      { p with tabs := tabs, tabsCreated := c + 1 } := by
  have hv : ({ p with tabs := tabs, tabsCreated := c + 1 } : Page).Valid :=
    h.valid.of_perm (List.Perm.refl _) rfl
  rw [pruneRemovedSessionNodes_eq hv]
  congr 1
  apply contract_eq_self
  intro n hn
  obtain ⟨k, s, hk, -, rfl⟩ := h.mem_preorder.mp hn
  simp [survives, isDead, slotNode, createSessionNode, ht k hk]

/-- An action that opens a tab takes the next slot. -/
theorem spawned_openTab (hS : ParentsFirst S) {c : ℕ} {p : Page}
    (h : Spawned settings S seps c p) (hc : c < S.length) (position : ℕ) :
    ∃ q, Spawned settings S seps (c + 1) q ∧
      p.openTab position = sinkBottomSeparators (realizeStartupSeparators q) := by
  set tabs := p.tabs.insertIdx (min position p.tabs.length) c with htabs
  have hsplit : tabs = p.tabs.take (min position p.tabs.length) ++
      c :: p.tabs.drop (min position p.tabs.length) := by
    rw [htabs, insertIdx_eq_append (min_le_right _ _)]
  have hmem : ∀ t, t ∈ tabs ↔ t < c + 1 := by
    intro t
    rw [hsplit, List.mem_append, List.mem_cons, ← or_assoc, or_comm (b := t = c), or_assoc,
      ← List.mem_append, List.take_append_drop, h.tabs]
    omega
  have hnext := spawned_addMissingSessionNode hS h hc hmem
  refine ⟨_, hnext, ?_⟩
  have hcreated : p.tabsCreated = c := by
    rw [h.state]
    rfl
  have hsup : p.suppressSessionTreeReconcile = false := by
    rw [h.state]
    rfl
  have hold : ∀ l ⊆ p.tabs,
      l ⊆ nodeTabs ({ p with tabs := tabs, tabsCreated := c + 1 } : Page).tree :=
    fun l hl t ht => h.mem_nodeTabs.mpr ((h.tabs t).mp (hl ht))
  have hlast : ∀ l ⊆ p.tabs, l ⊆ nodeTabs
      (({ p with tabs := tabs, tabsCreated := c + 1 } : Page).addMissingSessionNode c).tree :=
    fun l hl t ht => hnext.mem_nodeTabs.mpr
      (((h.tabs t).mp (hl ht)).trans (Nat.lt_succ_self c))
  rw [openTab, onSessionsCollectionChanged, if_neg (by simp [hsup])]
  simp only [hcreated]
  rw [h.prune_eq fun t ht => (hmem t).mpr (ht.trans (Nat.lt_succ_self c)), addMissingSessionNodes]
  congr 2
  have hfold := foldl_addMissingSessionNode_split (hold _ (List.take_subset
    (min position p.tabs.length) _)) (hlast _ (List.drop_subset (min position p.tabs.length) _))
  rw [← hsplit] at hfold
  exact hfold

/-- Before the last session no separator is realized. -/
theorem Spawned.realize_eq {c : ℕ} {p : Page} (h : Spawned settings S seps c p)
    (hc : c < S.length) : sinkBottomSeparators (realizeStartupSeparators p) = p := by
  have h₁ : ¬ p.startupSeparatorsRealized = true := by
    rw [h.state]
    simp [slotPage, startupPage, setStartupSeparators]
  have h₂ : p.startupNodeCursor < p.pendingStartupLabelTemplates.length := by
    rw [h.state]
    simpa [slotPage, startupPage, setStartupSeparators, setStartupNodeMetadata] using hc
  rw [realizeStartupSeparators, if_neg h₁, if_pos h₂, sinkBottomSeparators,
    sinkBottomSeparatorsIn_eq h.valid.nodup, h.settle_eq]

/-- The page in the loop: slots are left, or the last one was taken and the separators placed. -/
def InLoop (settings : List LaunchEntry) (S : List StartupSession)
    (seps : List StartupSeparator) (c : ℕ) (p : Page) : Prop :=
  Spawned settings S seps c p ∨
    c = S.length ∧ ∃ q, Spawned settings S seps c q ∧
      p = sinkBottomSeparators (realizeStartupSeparators q)

/-- So the loop goes on, a session for each tab that opens. -/
theorem inLoop_foldl (hS : ParentsFirst S) (outcomes : List (Option ℕ)) {c : ℕ} {p : Page}
    (h : InLoop settings S seps c p) (hc : c + outcomes.countP Option.isSome ≤ S.length) :
    InLoop settings S seps (c + outcomes.countP Option.isSome) (outcomes.foldl doAction p) := by
  induction outcomes generalizing c p with
  | nil => exact h
  | cons o outcomes ih =>
      rw [List.countP_cons] at hc ⊢
      rw [List.foldl_cons]
      cases o with
      | none =>
          rw [doAction]
          simpa using ih h (by simpa using hc)
      | some position =>
          simp only [Option.isSome_some, if_true] at hc ⊢
          have hlt : c < S.length := by omega
          rcases h with h | ⟨rfl, -⟩
          · obtain ⟨q, hq, hopen⟩ := spawned_openTab hS h hlt position
            have hnext : InLoop settings S seps (c + 1) (p.doAction (some position)) := by
              rw [doAction, hopen]
              by_cases hlast : c + 1 < S.length
              · rw [hq.realize_eq hlast]
                exact Or.inl hq
              · exact Or.inr ⟨by omega, q, hq, rfl⟩
            have hrun := ih hnext (by omega)
            rwa [show c + (outcomes.countP Option.isSome + 1) =
              c + 1 + outcomes.countP Option.isSome by omega]
          · exact absurd hlt (Nat.lt_irrefl _)

/-- The separators are added to what stands. -/
theorem Spawned.adding {c : ℕ} {p : Page} (h : Spawned settings S seps c p) :
    Adding p.tree c p.tabs p := by
  have hcreated : p.nodesCreated = c := by
    rw [h.state]
    rfl
  refine ⟨hcreated ▸ Grown.refl h.valid, ?_, rfl⟩
  intro n hn _
  obtain ⟨k, s, hk, -, rfl⟩ := h.mem_preorder.mp hn
  exact ⟨k, (h.tabs k).mpr hk, rfl⟩

/-- The pass over the startup separators, from the page the loop leaves. -/
def realizeAll (S : List StartupSession) (seps : List StartupSeparator) (p : Page) : Page :=
  (seps.foldl realizeSeparator
    ({ p with startupNodeCursor := S.length, startupSeparatorsRealized := true }, [])).1

/-- No node is twice in the tree. -/
theorem nodup_realizeAll {c : ℕ} {p : Page} (h : Spawned settings S seps c p) :
    (keys SessionNode.ident (realizeAll S seps p).tree).Nodup :=
  (foldl_realizeSeparator seps
    ({ p with startupNodeCursor := S.length, startupSeparatorsRealized := true }, [])
      (h.adding.of_eq rfl rfl rfl)).1.grown.valid.nodup

/-- The separators of a page whose slots are used up. -/
theorem Spawned.realizeStartupSeparators_tree {c : ℕ} {p : Page}
    (h : Spawned settings S seps c p) :
    (realizeStartupSeparators { p with startupNodeCursor := S.length }).tree =
      settle SessionNode.isBottomSeparator (realizeAll S seps p).tree := by
  have hseps : p.pendingStartupSeparators = seps := by
    rw [h.state]
    rfl
  have h₁ : p.startupSeparatorsRealized = false := by
    rw [h.state]
    rfl
  have h₂ : p.pendingStartupLabelTemplates.length = S.length := by
    rw [h.state]
    simp [slotPage, startupPage, setStartupSeparators, setStartupNodeMetadata]
  rw [realizeStartupSeparators, if_neg (by simp [h₁]), if_neg (by simp [h₂])]
  subst hseps
  by_cases hempty : p.pendingStartupSeparators.isEmpty = true
  · rw [if_pos hempty, List.isEmpty_iff.mp hempty]
    exact h.settle_eq.symm
  · rw [if_neg hempty]
    have hsink := sinkBottomSeparatorsIn_eq (nodup_realizeAll h)
    exact hsink

/-- The cursor is the number of nodes. -/
theorem Spawned.cursor_eq {c : ℕ} {p : Page} (h : Spawned settings S seps c p) :
    ({ p with
        startupNodeCursor :=
          max p.startupNodeCursor p.pendingStartupLabelTemplates.length } : Page) =
      { p with startupNodeCursor := S.length } := by
  have hcur : p.startupNodeCursor = c := by
    rw [h.state]
    rfl
  have hlen : p.pendingStartupLabelTemplates.length = S.length := by
    rw [h.state]
    simp [slotPage, startupPage, setStartupSeparators, setStartupNodeMetadata]
  rw [hcur, hlen, max_eq_right h.le]

/-- At the end of the labels the separators are realized. -/
theorem realized_of_cursor {p : Page}
    (h : p.pendingStartupLabelTemplates.length ≤ p.startupNodeCursor) :
    (realizeStartupSeparators p).startupSeparatorsRealized = true := by
  have hfold : ∀ (seps : List StartupSeparator) (st : Page × List ((Option ℕ × Option ℕ) × ℕ)),
      st.1.startupSeparatorsRealized = true →
        (seps.foldl realizeSeparator st).1.startupSeparatorsRealized = true := by
    intro seps
    induction seps with
    | nil => exact fun _ h => h
    | cons sep seps ih => exact fun st hst => ih _ hst
  rw [realizeStartupSeparators]
  by_cases h₁ : p.startupSeparatorsRealized = true
  · rw [if_pos h₁]
    exact h₁
  · rw [if_neg h₁, if_neg (Nat.not_lt.mpr h)]
    split
    · rfl
    · exact hfold p.pendingStartupSeparators
        ({ p with startupSeparatorsRealized := true }, []) rfl

/-- **The page after the startup loop**: the tabs opened have the first slots, and the startup
separators are placed among their nodes. -/
theorem processStartupActions_tree (settings : List LaunchEntry) (seps : List StartupSeparator)
    (hS : ParentsFirst S) {outcomes : List (Option ℕ)} (hlen : outcomes.length = S.length) :
    ∃ q, Spawned settings S seps (outcomes.countP Option.isSome) q ∧
      ((startupPage settings S seps).processStartupActions outcomes).tree =
        settle SessionNode.isBottomSeparator (realizeAll S seps q).tree := by
  have hcount : 0 + outcomes.countP Option.isSome ≤ S.length := by
    rw [Nat.zero_add, ← hlen]
    exact List.countP_le_length
  have hstart : InLoop settings S seps 0 (startupPage settings S seps) := Or.inl spawned_startupPage
  have hloop := inLoop_foldl hS outcomes hstart hcount
  rw [Nat.zero_add] at hloop
  rw [processStartupActions, markStartupSpawnComplete]
  rcases hloop with h | ⟨hc, q, hq, heq⟩
  · exact ⟨_, h, by rw [h.cursor_eq, h.realizeStartupSeparators_tree]⟩
  · refine ⟨q, hq, ?_⟩
    have hcur : ({ q with startupNodeCursor := S.length } : Page) = q := by
      have : q.startupNodeCursor = S.length := by
        rw [hq.state, ← hc]
        rfl
      rw [← this]
    have hle : q.pendingStartupLabelTemplates.length ≤ q.startupNodeCursor := by
      rw [hq.state]
      simp [slotPage, startupPage, setStartupSeparators, setStartupNodeMetadata, hc]
    have htree := hq.realizeStartupSeparators_tree
    rw [hcur] at htree
    have hdone : (sinkBottomSeparators (realizeStartupSeparators q)).startupSeparatorsRealized =
        true := realized_of_cursor hle
    rw [heq, realizeStartupSeparators, if_pos hdone]
    show sinkBottomSeparatorsIn (realizeStartupSeparators q).tree = _
    rw [htree, sinkBottomSeparatorsIn_eq, settle_settle]
    exact (keys_settle _ _).nodup_iff.mpr (nodup_realizeAll hq)

/-! ### Which session a node belongs to -/

theorem foldl_realizeSeparator_sessions {B : LiveTree} {N : ℕ} {tabs : List ℕ}
    (seps : List StartupSeparator) (st : Page × List ((Option ℕ × Option ℕ) × ℕ))
    (h : Adding B N tabs st.1) {n : SessionNode}
    (hn : n ∈ preorder (seps.foldl realizeSeparator st).1.tree) (hsep : n.isSeparator = false) :
    n ∈ preorder st.1.tree := by
  induction seps generalizing st with
  | nil => exact hn
  | cons sep seps ih =>
      obtain ⟨m, hi, -, hm, ht⟩ := realizeSeparator_inserts st sep
      have hadd := h.insert hi ht fun hf => by rw [hm] at hf; cases hf
      have hmem := ih _ hadd hn
      rcases List.mem_cons.mp ((hi.perm h.grown.valid).mem_iff.mp hmem) with rfl | hmem
      · rw [hm] at hsep
        cases hsep
      · exact hmem

/-- After the startup no node is twice in the tree. -/
theorem nodup_processStartupActions (settings : List LaunchEntry) (seps : List StartupSeparator)
    (hS : ParentsFirst S) {outcomes : List (Option ℕ)} (hlen : outcomes.length = S.length) :
    (keys SessionNode.ident
      ((startupPage settings S seps).processStartupActions outcomes).tree).Nodup := by
  obtain ⟨p, hp, htree⟩ := processStartupActions_tree settings seps hS hlen
  rw [htree]
  exact (keys_settle _ _).nodup_iff.mpr (nodup_realizeAll hp)

/-- The session nodes of every scope after the loop are those of the slots taken. -/
theorem sessions_processStartupActions (settings : List LaunchEntry)
    (seps : List StartupSeparator) (hS : ParentsFirst S) {outcomes : List (Option ℕ)}
    (hlen : outcomes.length = S.length) (q : Option ℕ) (n : SessionNode) :
    (n ∈ childrenIn SessionNode.ident q none
        ((startupPage settings S seps).processStartupActions outcomes).tree ∧
      n.isSeparator = false) ↔
    ∃ k s, k < outcomes.countP Option.isSome ∧ S[k]? = some s ∧ s.parentIndex = q ∧
      n = slotNode settings k s := by
  obtain ⟨p, hp, htree⟩ := processStartupActions_tree settings seps hS hlen
  have hadd : Adding p.tree _ p.tabs
      { p with startupNodeCursor := S.length, startupSeparatorsRealized := true } :=
    hp.adding.of_eq rfl rfl rfl
  have hgrown := (foldl_realizeSeparator seps
    ({ p with startupNodeCursor := S.length, startupSeparatorsRealized := true }, []) hadd).1.grown
  have hscope : ∀ m, m ∈ childrenIn SessionNode.ident q none p.tree ↔
      ∃ k s, k < outcomes.countP Option.isSome ∧ S[k]? = some s ∧ s.parentIndex = q ∧
        m = slotNode settings k s := by
    intro m
    rw [hp.lists.scopes q, List.mem_map]
    constructor
    · rintro ⟨r, hr, rfl⟩
      rw [List.mem_filter, mem_slotNodes] at hr
      obtain ⟨⟨k, s, hk, hs, rfl⟩, hq⟩ := hr
      exact ⟨k, s, hk, hs, by simpa using hq, rfl⟩
    · rintro ⟨k, s, hk, hs, hq, rfl⟩
      exact ⟨_, List.mem_filter.mpr ⟨mem_slotNodes.mpr ⟨k, s, hk, hs, rfl⟩, by simpa using hq⟩, rfl⟩
  have hfinal : n ∈ childrenIn SessionNode.ident q none
      ((startupPage settings S seps).processStartupActions outcomes).tree ↔
        n ∈ childrenIn SessionNode.ident q none (realizeAll S seps p).tree := by
    rw [htree, childrenIn_settle _ (nodup_realizeAll hp) (foreign_none _)]
    exact (behind_perm _ _).mem_iff
  rw [hfinal, ← hscope n, ← hgrown.scopes q, List.mem_filter]
  constructor
  · rintro ⟨hn, hsep⟩
    refine ⟨hn, ?_⟩
    have hold : n ∈ preorder p.tree :=
      foldl_realizeSeparator_sessions seps _ hadd (mem_preorder_of_mem_childrenIn hn) hsep
    simpa using hp.mem_keys.mp (mem_keys_of_mem hold)
  · rintro ⟨hn, hlt⟩
    refine ⟨hn, ?_⟩
    have hmem : n ∈ childrenIn SessionNode.ident q none p.tree := by
      rw [← hgrown.scopes q]
      exact List.mem_filter.mpr ⟨hn, hlt⟩
    obtain ⟨k, s, -, -, -, rfl⟩ := (hscope n).mp hmem
    rfl

end Page

/-- The actions that open a tab, from index `i` on. -/
def creatorsFrom (i : ℕ) : List (Option ℕ) → List ℕ
  | [] => []
  | none :: rest => creatorsFrom (i + 1) rest
  | some _ :: rest => i :: creatorsFrom (i + 1) rest

/-- The actions that open a tab, in order: the tab numbered `t` is opened by the action at `t`. -/
def creators (outcomes : List (Option ℕ)) : List ℕ := creatorsFrom 0 outcomes

/-- There is a creator for each tab. -/
theorem length_creatorsFrom (i : ℕ) (outcomes : List (Option ℕ)) :
    (creatorsFrom i outcomes).length = outcomes.countP Option.isSome := by
  induction outcomes generalizing i with
  | nil => rfl
  | cons o outcomes ih => cases o <;> simp [creatorsFrom, ih]

/-- The node shows the data of a session. An empty color target is `both`. -/
structure Carries (n : SessionNode) (s : StartupSession) : Prop where
  labelTemplate : n.labelTemplate = s.labelTemplate
  iconOverride : n.iconOverride = s.iconOverride
  iconColor : n.iconColor = s.iconColor
  colorTarget : n.colorTarget = if s.colorTarget.isEmpty then L "both" else s.colorTarget
  entryId : n.entryId = s.id

/-- The scope a node is in is that of the session's parent: the top level, or under the node whose
tab the parent's action opened. -/
def ParentLink (created : List ℕ) (tree : LiveTree) (q : Option ℕ) (s : StartupSession) : Prop :=
  match q with
  | none => s.parentIndex = none
  | some k => ∃ m ∈ preorder tree, m.ident = k ∧ ∃ u i, m.tabRef = some u ∧
      created[u]? = some i ∧ s.parentIndex = some i

/-- Every session node carries the data and the parent of the session whose action opened its
tab. -/
def CarriesOwn (S : List StartupSession) (created : List ℕ) (tree : LiveTree) : Prop :=
  ∀ q n, n ∈ childrenIn SessionNode.ident q none tree → n.isSeparator = false →
    ∃ t i s, n.tabRef = some t ∧ created[t]? = some i ∧ S[i]? = some s ∧ Carries n s ∧
      ParentLink created tree q s

/-- The data of the `k`-th session is that of the session whose action opened the `k`-th tab, and
so is its parent. -/
def Aligned (S : List StartupSession) (created : List ℕ) : Prop :=
  ∀ k i : ℕ, created[k]? = some i → ∃ s s', S[k]? = some s ∧ S[i]? = some s' ∧
    s.labelTemplate = s'.labelTemplate ∧ s.iconOverride = s'.iconOverride ∧
    s.iconColor = s'.iconColor ∧
    (if s.colorTarget.isEmpty then L "both" else s.colorTarget) =
      (if s'.colorTarget.isEmpty then L "both" else s'.colorTarget) ∧
    s.id = s'.id ∧ s'.parentIndex = s.parentIndex.bind fun p => created[p]?

variable {seps : List StartupSeparator}

/-- Each row carries its own data iff the creators are in order. -/
theorem carriesOwn_processStartupActions (hS : ParentsFirst S) {outcomes : List (Option ℕ)}
    (hlen : outcomes.length = S.length) :
    CarriesOwn S (creators outcomes)
        ((Page.startupPage settings S seps).processStartupActions outcomes).tree ↔
      Aligned S (creators outcomes) := by
  have hspec := Page.sessions_processStartupActions settings seps hS hlen
  have hnodup := Page.nodup_processStartupActions settings seps hS hlen
  have hcount : (creators outcomes).length = outcomes.countP Option.isSome :=
    length_creatorsFrom 0 outcomes
  have hle : outcomes.countP Option.isSome ≤ S.length := hlen ▸ List.countP_le_length
  -- the node of a slot that a parent index names
  have hparent : ∀ k s p, k < outcomes.countP Option.isSome → S[k]? = some s →
      s.parentIndex = some p → ∃ s₀, p < outcomes.countP Option.isSome ∧
        slotNode settings p s₀ ∈
          preorder ((Page.startupPage settings S seps).processStartupActions outcomes).tree := by
    intro k s p hk hs hp
    have hpk : p < k := hS k s hs p hp
    have hs₀ : S[p]? = some S[p] := List.getElem?_eq_getElem (by omega)
    obtain ⟨hmem, -⟩ := (hspec _ _).mpr ⟨p, S[p], by omega, hs₀, rfl, rfl⟩
    exact ⟨S[p], by omega, mem_preorder_of_mem_childrenIn hmem⟩
  constructor
  · intro h k i hki
    have hk : k < outcomes.countP Option.isSome :=
      hcount ▸ (List.getElem?_eq_some_iff.mp hki).1
    have hs : S[k]? = some S[k] := List.getElem?_eq_getElem (by omega)
    obtain ⟨hmem, hsep⟩ := (hspec _ _).mpr ⟨k, S[k], hk, hs, rfl, rfl⟩
    obtain ⟨t, j, s', ht, hj, hs', hcar, hlink⟩ := h _ _ hmem hsep
    cases ht
    rw [hki] at hj
    cases hj
    refine ⟨S[k], s', hs, hs', hcar.labelTemplate, hcar.iconOverride, hcar.iconColor,
      hcar.colorTarget, hcar.entryId, ?_⟩
    cases hp : S[k].parentIndex with
    | none =>
        rw [hp] at hlink
        exact hlink
    | some p =>
        rw [hp] at hlink
        obtain ⟨m, hm, hident, u, j, hu, hj, hpar⟩ := hlink
        obtain ⟨s₀, -, hmem₀⟩ := hparent k S[k] p hk hs hp
        have hm₀ : m = slotNode settings p s₀ := eq_of_ident_eq hnodup hm hmem₀ hident
        rw [hm₀] at hu
        cases hu
        exact hpar.trans hj.symm
  · intro h q n hn hsep
    obtain ⟨k, s, hk, hs, rfl, rfl⟩ := (hspec q n).mp ⟨hn, hsep⟩
    have hki : (creators outcomes)[k]? = some (creators outcomes)[k] :=
      List.getElem?_eq_getElem (by omega)
    obtain ⟨s₁, s', hs₁, hs', hlabel, hicon, hcolor, htarget, hid, hpar⟩ := h k _ hki
    rw [hs] at hs₁
    cases hs₁
    refine ⟨k, _, s', rfl, hki, hs', ⟨hlabel, hicon, hcolor, htarget, hid⟩, ?_⟩
    cases hp : s.parentIndex with
    | none =>
        rw [hp] at hpar
        exact hpar
    | some p =>
        rw [hp, Option.bind_some] at hpar
        obtain ⟨s₀, hpc, hmem₀⟩ := hparent k s p hk hs hp
        have hpi : (creators outcomes)[p]? = some (creators outcomes)[p] :=
          List.getElem?_eq_getElem (by omega)
        exact ⟨_, hmem₀, rfl, p, _, rfl, hpi, hpar.trans hpi⟩

/-- With distinct ids the slots can only be right when the actions that open no tab are the last
ones. -/
theorem aligned_iff_of_nodup (hS : ParentsFirst S) (hid : (S.map StartupSession.id).Nodup)
    {created : List ℕ} (hle : created.length ≤ S.length) :
    Aligned S created ↔ created = List.range created.length := by
  constructor
  · intro h
    apply List.ext_getElem?
    intro k
    by_cases hk : k < created.length
    · rw [List.getElem?_range hk]
      obtain ⟨i, hki⟩ : ∃ i, created[k]? = some i := ⟨_, List.getElem?_eq_getElem hk⟩
      obtain ⟨s, s', hs, hs', -, -, -, -, hids, -⟩ := h k i hki
      have hsk : (S.map StartupSession.id)[k]? = some s.id := by rw [List.getElem?_map, hs]; rfl
      have hsi : (S.map StartupSession.id)[i]? = some s.id := by
        rw [List.getElem?_map, hs', hids]
        rfl
      have hkS : k < (S.map StartupSession.id).length := by
        rw [List.length_map]
        omega
      rw [hki, (List.getElem?_inj hkS hid).mp (hsk.trans hsi.symm)]
    · rw [List.getElem?_eq_none (by omega), List.getElem?_eq_none (by simpa using hk)]
  · intro h k i hki
    have hk : k < created.length := (List.getElem?_eq_some_iff.mp hki).1
    rw [h, List.getElem?_range hk, Option.some.injEq] at hki
    subst hki
    have hs : S[k]? = some S[k] := List.getElem?_eq_getElem (by omega)
    refine ⟨S[k], S[k], hs, hs, rfl, rfl, rfl, rfl, rfl, ?_⟩
    cases hp : S[k].parentIndex with
    | none => rfl
    | some p =>
        have hpk := hS k _ hs p hp
        rw [Option.bind_some, h, List.getElem?_range (by omega)]

/-- **When the nodes carry the data of their own entries.** In particular they do when the actions
that open no tab are the last ones, and with distinct ids only then. -/
theorem carriesOwn_iff (host : Host) (entries : List LaunchEntry) (outcome : ℕ → Option ℕ) :
    let S := (loadStartupTree host (some entries)).1
    let created := creators ((List.range S.length).map outcome)
    (CarriesOwn S created (Page.startup host entries outcome).tree ↔ Aligned S created) ∧
      ((S.map StartupSession.id).Nodup →
        (Aligned S created ↔ created = List.range created.length)) := by
  intro S created
  have hS : ParentsFirst S := loadStartupTree_parents host (some entries)
  have hlen : ((List.range S.length).map outcome).length = S.length := by simp
  refine ⟨carriesOwn_processStartupActions hS hlen, fun hid => ?_⟩
  apply aligned_iff_of_nodup hS hid
  calc created.length = ((List.range S.length).map outcome).countP Option.isSome :=
        length_creatorsFrom 0 _
    _ ≤ ((List.range S.length).map outcome).length := List.countP_le_length
    _ = S.length := hlen

/-- Two sessions. -/
def twoSessions : List LaunchEntry := [{ id := L "a", name := L "A" }, { id := L "b", name := L "B" }]

/-- A system with one profile. -/
def plainHost : Host where
  defaultProfile := some ⟨L "p", L "cmd.exe"⟩
  findProfile := fun _ => none
  userProfile := none
  filename := id

/-- Only the second action opens a tab. -/
def secondOnly (i : ℕ) : Option ℕ := if i = 0 then none else some 0

/-- The tab of the second session gets the slot of the first. -/
theorem carries_other_entry :
    ¬ CarriesOwn (loadStartupTree plainHost (some twoSessions)).1
      (creators ((List.range 2).map secondOnly))
      (Page.startup plainHost twoSessions secondOnly).tree := by
  intro h
  have hnode : createSessionNode twoSessions 0 0 (L "A") [] [] [] (L "a") ∈
      childrenIn SessionNode.ident none none
        (Page.startup plainHost twoSessions secondOnly).tree := by decide
  obtain ⟨t, i, s, ht, hi, hs, hcar, -⟩ := h none _ hnode rfl
  cases ht
  have hone : i = 1 := Option.some.inj (hi.symm.trans (by decide))
  subst hone
  have hid : ((loadStartupTree plainHost (some twoSessions)).1[1]?).map StartupSession.id =
      some (L "b") := by decide
  rw [hs, Option.map_some, Option.some.injEq] at hid
  have hab : L "a" = L "b" := hcar.entryId.trans hid
  revert hab
  decide

end Axan.SessionTree
