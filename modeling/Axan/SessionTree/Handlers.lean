import Axan.Base.Relocate
import Axan.SessionTree.Reload

/-!
# The handlers of the live tree

What happens to the sidebar between a launch and the close of its window: tabs open, close and
move, a row gets a child session, a row is dragged somewhere else, a section collapses, the name and
icon of a row are edited, the settings are reloaded, the tree is captured.

* `addChildSession`, `dragItemsCompleted`, `saveNode`, `reload` — the handlers that are in no other
  module; `Event` and `step` collect all of them.
* `Sound` — the invariant: no separator is above a row, the bottom separators end their containers,
  and no two nodes stand for one tab, none for a closed one.
* `sound_onSessionsCollectionChanged` — the handler of the tab list makes it hold, and gives every
  tab its node.
-/

namespace Axan.SessionTree

open Axan.Base Axan.Base.Forest Axan.LaunchEntryWire

/-! ### The handlers -/

/-- The fields of the node editor. Source: `_nodeEdit*` -/
structure NodeEdit where
  labelTemplate : WString
  iconOverride : WString
  iconColor : WString
  colorTarget : WString
  hoistOverride : WString

/-- The node with the fields of the editor. Source: `_ApplyNodeIcon`, and the click handler of
`_BuildNodeEditFooter` -/
def NodeEdit.apply (e : NodeEdit) (n : SessionNode) : SessionNode :=
  { n with
    labelTemplate := e.labelTemplate
    iconOverride := e.iconOverride
    iconColor := e.iconColor
    colorTarget := if e.colorTarget.isEmpty then L "both" else e.colorTarget
    hoistOverride := e.hoistOverride }

/-- The node with the appearance of the arguments, unless it is a separator.
Source: `_ApplyNodeIcon` -/
def SessionNode.applyNodeIcon (n : SessionNode) (iconOverride iconColor colorTarget : WString) :
    SessionNode :=
  if n.isSeparator then n
  else
    { n with
      iconOverride := iconOverride
      iconColor := iconColor
      colorTarget := if colorTarget.isEmpty then L "both" else colorTarget }

/-- Source: `_PersistNodeToEntry` -/
def persistNodeToEntry (n : SessionNode) (settings : List LaunchEntry) : List LaunchEntry :=
  if n.entryId.isEmpty || n.isSeparator then settings
  else settings.map fun e =>
    if e.id = n.entryId then
      { e with
        name := n.labelTemplate
        icon := n.iconOverride
        color := n.iconColor
        colorTarget := n.colorTarget
        hoist := n.hoistOverride }
    else e

/-- `hoists`: the last session entry of an id decides. Source: `_SyncHoistOverridesFromSettings` -/
def syncHoistOverride (settings : List LaunchEntry) (n : SessionNode) : SessionNode :=
  if n.isSeparator || n.entryId.isEmpty then n
  else
    match (settings.filter fun e => !e.isSeparator && !e.id.isEmpty).reverse.find? fun e =>
        e.id = n.entryId with
    | none => n
    | some e => { n with hoistOverride := e.hoist }

/-- A node dropped onto a separator leaves it again, to right behind it.
Source: `_OnSessionTreeDragItemsCompleted` -/
def insertAfterSeparator (tree : LiveTree) (item : ℕ) : LiveTree :=
  match locate SessionNode.ident item tree, treeOf SessionNode.ident item tree with
  | some (some parent, childIndex), some t =>
      if (preorder tree).any fun n => n.ident = parent && n.isSeparator then
        match locate SessionNode.ident parent tree with
        | none => tree
        | some (sepContainer, sepIndex) =>
            let tree := modifyIn SessionNode.ident (some parent) (eraseTreeAt childIndex) tree
            insertTree SessionNode.ident sepContainer
              (min (sepIndex + 1) (sizeIn sepContainer tree)) t tree
      else tree
  | _, _ => tree

/-- Source: `HasSectionHeader` -/
def SessionNode.hasSectionHeader (n : SessionNode) : Bool :=
  n.isSeparator && !n.separatorLabel.isEmpty

/-- Source: `SetCollapsed` -/
def SessionNode.setCollapsed (n : SessionNode) (collapsed : Bool) : SessionNode :=
  { n with isCollapsed := collapsed && n.hasSectionHeader }

/-- The nearest separator among the siblings in front of a node, if it is a header.
Source: `_SectionHeaderFor` -/
def headerFor (tree : LiveTree) (ident : ℕ) : Option SessionNode :=
  match locateContainer SessionNode.ident ident tree with
  | none => none
  | some (container, index) =>
      (((roots container).take index).reverse.find? SessionNode.isSeparator).filter
        SessionNode.hasSectionHeader

/-- One round of the loop of `_ExpandSectionsContaining`. -/
def expandHeaderOf (tree : LiveTree) (n : SessionNode) : LiveTree :=
  match headerFor tree n.ident with
  | none => tree
  | some header =>
      if header.isCollapsed then
        tree.map fun m => if m.ident = header.ident then m.setCollapsed false else m
      else tree

/-- Source: `_ExpandSectionsContaining` -/
def expandSectionsContaining (tree : LiveTree) (ident : ℕ) : LiveTree :=
  match (outline [] tree).find? fun r => r.1.ident = ident with
  | none => tree
  | some r => (r.1 :: r.2).foldl expandHeaderOf tree

/-- A session that was dropped into a collapsed section is shown. -/
def expandDropped (tree : LiveTree) (item : ℕ) : LiveTree :=
  if (preorder tree).any fun n => n.ident = item && n.isSeparator then tree
  else expandSectionsContaining tree item

/-- A node leaves its container and becomes the last child of another one. -/
def appendChild (tree : LiveTree) (target node : ℕ) : LiveTree :=
  match treeOf SessionNode.ident node tree with
  | none => tree
  | some t =>
      let tree := removeTree SessionNode.ident node tree
      insertTree SessionNode.ident (some target) (sizeIn (some target) tree) t tree

namespace Page

/-- Source: `_nodeTab` -/
def nodeTab (p : Page) (ident : ℕ) : Option ℕ :=
  (((preorder p.tree).find? fun n => n.ident = ident).bind SessionNode.tabRef).filter (· ∈ p.tabs)

/-- Source: `_FindNodeForTab` -/
def findNodeForTab (p : Page) (tab : ℕ) : Option SessionNode :=
  (preorder p.tree).find? fun n => n.tabRef = some tab

/-- The node of the tab at an index. -/
def focusedNode (p : Page) (focused : Option ℕ) : Option SessionNode :=
  (focused.bind fun i => p.tabs[i]?).bind p.findNodeForTab

/-- Source: `_RemoveTab` -/
def closeTab (p : Page) (tab : ℕ) : Page := changeTabs p (p.tabs.erase tab)

/-- The index a tab is moved to: `std::clamp`. -/
def clampIndex (p : Page) (suggested : ℤ) : ℕ := (max 0 (min suggested (p.tabs.length - 1))).toNat

/-- Source: `_TryMoveTab` -/
def tryMoveTab (p : Page) (current : ℕ) (suggested : ℤ) : Page :=
  match p.tabs[current]? with
  | none => p
  | some tab =>
      if current = p.clampIndex suggested then p
      else
        let q := changeTabs { p with suppressSessionTreeReconcile := true } (p.tabs.eraseIdx current)
        let q := changeTabs q (q.tabs.insertIdx (p.clampIndex suggested) tab)
        { q with suppressSessionTreeReconcile := false }

/-- `opened` is the position of the duplicated tab, `none` when the duplication failed; `focused`
is the index of the focused tab after it. Source: `_AddChildSession` -/
def addChildSession (p : Page) (target : ℕ) (opened focused : Option ℕ) : Page :=
  match p.nodeTab target with
  | none => p
  | some _ =>
      let p := p.doAction opened
      match p.focusedNode focused with
      | none => p
      | some newNode =>
          if newNode.ident = target then p
          else sinkBottomSeparators { p with tree := appendChild p.tree target newNode.ident }

/-- `landed` is the tree as the control left it. Source: `_OnSessionTreeDragItemsCompleted` -/
def dragItemsCompleted (p : Page) (landed : LiveTree) (items : List ℕ) : Page :=
  sinkBottomSeparators
    { p with tree := items.foldl expandDropped (items.foldl insertAfterSeparator landed) }

/-- Source: `_SetSectionCollapsed` -/
def setSectionCollapsed (p : Page) (header : ℕ) (collapsed : Bool) : Page :=
  { p with
    tree := p.tree.map fun n =>
      if n.ident = header && n.hasSectionHeader then n.setCollapsed collapsed else n }

/-- The Save button of the node editor, which is not shown for a separator. -/
def saveNode (p : Page) (ident : ℕ) (edit : NodeEdit) : Page :=
  match (preorder p.tree).find? fun n => n.ident = ident with
  | none => p
  | some n =>
      if n.isSeparator then p
      else
        { p with
          tree := p.tree.map fun m => if m.ident = ident then edit.apply m else m
          settings := persistNodeToEntry (edit.apply n) p.settings }

/-- The item of the context menu that clears the icon override. It shows, and is not written to an
entry. -/
def clearIconOverride (p : Page) (ident : ℕ) : Page :=
  { p with
    tree := p.tree.map fun n => if n.ident = ident then n.applyNodeIcon [] [] [] else n }

/-- What a reload of the settings does to the tree. Source: `_RefreshUIForSettingsReload` -/
def reload (p : Page) (settings : List LaunchEntry) : Page :=
  { p with
    settings := settings
    tree := reconcileSeparatorsWithSettings settings (p.tree.map (syncHoistOverride settings)) }

end Page

/-! ### The runs -/

/-- What can happen to the tree. -/
inductive Event where
  | openTab (position : ℕ)
  | closeTab (tab : ℕ)
  | moveTab (current : ℕ) (suggested : ℤ)
  /-- `_MarkStartupSpawnComplete` -/
  | spawned
  | addChild (target : ℕ) (opened focused : Option ℕ)
  | drag (landed : LiveTree) (item : ℕ)
  | collapse (header : ℕ) (collapsed : Bool)
  | save (ident : ℕ) (edit : NodeEdit)
  | clearIconOverride (ident : ℕ)
  | reload (settings : List LaunchEntry)
  | capture (live : LiveTabs) (fresh : ℕ → WString)

namespace Page

def step (p : Page) : Event → Page
  | .openTab position => p.openTab position
  | .closeTab tab => p.closeTab tab
  | .moveTab current suggested => p.tryMoveTab current suggested
  | .spawned => p.markStartupSpawnComplete
  | .addChild target opened focused => p.addChildSession target opened focused
  | .drag landed item => p.dragItemsCompleted landed [item]
  | .collapse header collapsed => p.setSectionCollapsed header collapsed
  | .save ident edit => p.saveNode ident edit
  | .clearIconOverride ident => p.clearIconOverride ident
  | .reload settings => p.reload settings
  | .capture live fresh => { p with tree := (captureLiveSessionEntries live fresh p.tree).1 }

def run (p : Page) (es : List Event) : Page := es.foldl step p

/-- What the controls promise: a new tab is the focused one (`_InitializeTab` selects it), and a
drag moves the dragged row, which the single selection makes one, and no other. -/
def Allowed (p : Page) : Event → Prop
  | .addChild _ (some position) focused => focused = some (min position p.tabs.length)
  | .drag landed item => Relocates SessionNode.ident item p.tree landed
  | _ => True

/-- Every event of the run is allowed where it happens. -/
def Allows (p : Page) : List Event → Prop
  | [] => True
  | e :: es => p.Allowed e ∧ (p.step e).Allows es

end Page

/-! ### What holds in every state -/

namespace Page

/-- The invariant of the runs. -/
structure Sound (p : Page) : Prop where
  /-- The nodes are distinct, no two stand for the same tab, and a separator for none. -/
  valid : p.Valid
  /-- Every session node stands for an open tab. -/
  live : p.Live
  /-- No separator is above a row. -/
  leafy : Leafy SessionNode.isSeparator p.tree
  /-- Behind a bottom separator come bottom separators only. -/
  sunk : ∀ q, (childrenIn SessionNode.ident q none p.tree).Pairwise fun m n =>
    m.isBottomSeparator = true → n.isBottomSeparator = true
  /-- What a spawn index stands for is a session node. -/
  spawned : ∀ k, some k ∈ p.startupNodesBySpawnIndex →
    k < p.nodesCreated ∧ ∀ n ∈ preorder p.tree, n.ident = k → n.isSeparator = false
  tabs_nodup : p.tabs.Nodup
  tabs_created : ∀ t ∈ p.tabs, t < p.tabsCreated
  reconciles : p.suppressSessionTreeReconcile = false

/-- Every tab has its node. -/
def Complete (p : Page) : Prop := p.tabs ⊆ nodeTabs p.tree

/-- The page at the start is sound. -/
theorem sound_startupPage (settings : List LaunchEntry) (sessions : List StartupSession)
    (separators : List StartupSeparator) : (startupPage settings sessions separators).Sound where
  valid := ⟨List.nodup_nil, (by rintro k ⟨⟩), List.nodup_nil, (by rintro n ⟨⟩)⟩
  live := by rintro n ⟨⟩
  leafy := by rintro r ⟨⟩
  sunk := fun q => List.Pairwise.nil
  spawned := by
    intro k hk
    have := (List.mem_replicate.mp hk).2
    cases this
  tabs_nodup := List.nodup_nil
  tabs_created := by rintro t ⟨⟩
  reconciles := rfl

/-- Marked nodes put behind are followed by marked ones only. -/
theorem pairwise_behind {α : Type} (b : α → Bool) (l : List α) :
    (behind b l).Pairwise fun m n => b m = true → b n = true := by
  rw [behind, List.pairwise_append]
  refine ⟨?_, ?_, ?_⟩
  · apply List.Pairwise.imp_of_mem (R := fun _ _ => True)
    · intro m n hm _ _ hb
      have := (List.mem_filter.mp hm).2
      rw [hb] at this
      cases this
    · exact List.pairwise_of_forall fun _ _ => trivial
  · apply List.Pairwise.imp_of_mem (R := fun _ _ => True)
    · intro m n _ hn _ _
      exact (List.mem_filter.mp hn).2
    · exact List.pairwise_of_forall fun _ _ => trivial
  · intro m _ n hn _
    exact (List.mem_filter.mp hn).2

/-- After the pass the bottom separators come last. -/
theorem sunk_settle {T : LiveTree} (hT : (keys SessionNode.ident T).Nodup) (q : Option ℕ) :
    (childrenIn SessionNode.ident q none (settle SessionNode.isBottomSeparator T)).Pairwise
      fun m n => m.isBottomSeparator = true → n.isBottomSeparator = true := by
  rw [childrenIn_settle _ hT (foreign_none _)]
  exact pairwise_behind _ _

/-! ### Trees with fewer nodes, or with nodes elsewhere -/

/-- The invariant of a tree whose nodes are among those of the old one. -/
theorem Sound.of_subperm {p : Page} (h : p.Sound) {T : LiveTree} {s : List LaunchEntry}
    (hsub : (preorder T).Subperm (preorder p.tree)) (hleafy : Leafy SessionNode.isSeparator T)
    (hsunk : ∀ q, (childrenIn SessionNode.ident q none T).Pairwise fun m n =>
      m.isBottomSeparator = true → n.isBottomSeparator = true) :
    Sound { p with tree := T, settings := s } := by
  obtain ⟨l, hperm, hl⟩ := hsub
  have hmem : ∀ n ∈ preorder T, n ∈ preorder p.tree := fun n hn => hl.subset (hperm.mem_iff.mpr hn)
  refine ⟨⟨?_, ?_, ?_, ?_⟩, ?_, hleafy, hsunk, ?_, h.tabs_nodup, h.tabs_created, h.reconciles⟩
  · exact (hperm.map SessionNode.ident).nodup_iff.mp (h.valid.nodup.sublist (hl.map _))
  · intro k hk
    obtain ⟨n, hn, rfl⟩ := List.mem_map.mp hk
    exact h.valid.created _ (mem_keys_of_mem (hmem n hn))
  · exact (hperm.filterMap SessionNode.tabRef).nodup_iff.mp
      (h.valid.tabs.sublist (hl.filterMap _))
  · exact fun n hn => h.valid.separators n (hmem n hn)
  · exact fun n hn => h.live n (hmem n hn)
  · exact fun k hk => ⟨(h.spawned k hk).1, fun n hn => (h.spawned k hk).2 n (hmem n hn)⟩

/-- The invariant after the sink pass. -/
theorem Sound.sink {p : Page} (h : p.Sound) {T : LiveTree}
    (hsub : (preorder T).Subperm (preorder p.tree)) (hleafy : Leafy SessionNode.isSeparator T) :
    Sound (sinkBottomSeparators { p with tree := T }) := by
  obtain ⟨l, hperm, hl⟩ := hsub
  have hnd : (keys SessionNode.ident T).Nodup :=
    (hperm.map SessionNode.ident).nodup_iff.mp (h.valid.nodup.sublist (hl.map _))
  have hsink : sinkBottomSeparators { p with tree := T } =
      { p with tree := settle SessionNode.isBottomSeparator T } := by
    rw [sinkBottomSeparators, sinkBottomSeparatorsIn_eq hnd]
  rw [hsink]
  apply h.of_subperm
  · exact (preorder_settle_perm _ T).subperm.trans ⟨l, hperm, hl⟩
  · exact hleafy.of_perm (outline_settle_perm _ _ T)
  · exact sunk_settle hnd

/-! ### Trees with other data at the nodes -/

/-- What the invariant reads of a node. -/
def core (n : SessionNode) : ℕ × Option ℕ × Bool × Bool :=
  (n.ident, n.tabRef, n.isSeparator, n.isBottomSeparator)

/-- Whether separators are leaves depends on the core alone. -/
theorem leafy_of_core {T U : LiveTree} (hcore : T.map core = U.map core)
    (h : Leafy SessionNode.isSeparator U) : Leafy SessionNode.isSeparator T := by
  intro r hr a ha
  have hout := outline_map core [] T
  rw [hcore, outline_map] at hout
  have hr' := List.mem_map_of_mem (f := fun r : SessionNode × List SessionNode =>
    (core r.1, r.2.map core)) hr
  rw [← hout] at hr'
  obtain ⟨r₀, hr₀, heq⟩ := List.mem_map.mp hr'
  have ha' := List.mem_map_of_mem (f := core) ha
  rw [← (Prod.mk.inj heq).2] at ha'
  obtain ⟨a₀, ha₀, hcore₀⟩ := List.mem_map.mp ha'
  simp only [core, Prod.mk.injEq] at hcore₀
  rw [← hcore₀.2.2.1]
  exact h r₀ hr₀ a₀ ha₀

/-- The invariant of a tree that differs in other data. -/
theorem Sound.of_core {p : Page} (h : p.Sound) {T : LiveTree} {s : List LaunchEntry}
    (hcore : T.map core = p.tree.map core) :
    Sound { p with tree := T, settings := s } := by
  have hpre : (preorder T).map core = (preorder p.tree).map core := by
    rw [← preorder_map, hcore, preorder_map]
  have hmem : ∀ n ∈ preorder T, ∃ m ∈ preorder p.tree, core m = core n := by
    intro n hn
    have hn' := List.mem_map_of_mem (f := core) hn
    rw [hpre] at hn'
    exact List.mem_map.mp hn'
  have hkeys : keys SessionNode.ident T = keys SessionNode.ident p.tree := by
    have hfst := congrArg (List.map Prod.fst) hpre
    rwa [List.map_map, List.map_map] at hfst
  have htabs : nodeTabs T = nodeTabs p.tree := by
    have htab := congrArg (List.filterMap fun c : ℕ × Option ℕ × Bool × Bool => c.2.1) hpre
    rwa [List.filterMap_map, List.filterMap_map] at htab
  refine ⟨⟨?_, ?_, ?_, ?_⟩, ?_, ?_, ?_, ?_, h.tabs_nodup, h.tabs_created, h.reconciles⟩
  · exact hkeys ▸ h.valid.nodup
  · exact fun k hk => h.valid.created k (hkeys ▸ hk)
  · exact htabs ▸ h.valid.tabs
  · intro n hn hsep
    obtain ⟨m, hm, hmn⟩ := hmem n hn
    simp only [core, Prod.mk.injEq] at hmn
    rw [← hmn.2.1]
    exact h.valid.separators m hm (hmn.2.2.1.trans hsep)
  · intro n hn hsep
    obtain ⟨m, hm, hmn⟩ := hmem n hn
    simp only [core, Prod.mk.injEq] at hmn
    rw [← hmn.2.1]
    exact h.live m hm (hmn.2.2.1.trans hsep)
  · exact leafy_of_core hcore h.leafy
  · intro q
    have hlabel : ∀ U : LiveTree, childrenIn Prod.fst q none (U.map core) =
        (childrenIn SessionNode.ident q none U).map core :=
      fun U => childrenIn_map (fun _ => rfl) q none U
    have hscope : (childrenIn SessionNode.ident q none T).map core =
        (childrenIn SessionNode.ident q none p.tree).map core := by
      rw [← hlabel, hcore, hlabel]
    have hp := h.sunk q
    have hmap : ∀ l : List SessionNode,
        (l.map core).Pairwise (fun a b => a.2.2.2 = true → b.2.2.2 = true) ↔
          l.Pairwise fun m n => m.isBottomSeparator = true → n.isBottomSeparator = true :=
      fun l => List.pairwise_map
    rw [← hmap] at hp ⊢
    rwa [hscope]
  · intro k hk
    refine ⟨(h.spawned k hk).1, fun n hn hnk => ?_⟩
    obtain ⟨m, hm, hmn⟩ := hmem n hn
    simp only [core, Prod.mk.injEq] at hmn
    rw [← hmn.2.2.1]
    exact (h.spawned k hk).2 m hm (hmn.1.trans hnk)

/-! ### The handler of the tab list -/

/-- The part of the invariant the passes of the handler keep. -/
structure Rooted (p : Page) : Prop where
  leafy : Leafy SessionNode.isSeparator p.tree
  spawned : ∀ k, some k ∈ p.startupNodesBySpawnIndex →
    k < p.nodesCreated ∧ ∀ n ∈ preorder p.tree, n.ident = k → n.isSeparator = false

/-- A spawn index leads to a session. -/
theorem Rooted.session {p : Page} (h : p.Rooted) (i : Option ℕ) :
    ∀ a ∈ preorder p.tree, p.nodeBySpawnIndex i = some a.ident → a.isSeparator = false := by
  intro a ha hk
  cases i with
  | none => cases hk
  | some i =>
      rw [nodeBySpawnIndex, Option.filter_eq_some_iff, Option.join_eq_some_iff] at hk
      exact (h.spawned _ (List.mem_of_getElem? hk.1)).2 a ha rfl

/-- A new node under a session node, or at the top level. -/
theorem Rooted.insert {p p' : Page} {n m : SessionNode} (h : p.Rooted) (hp : p.Valid)
    (hi : Inserts p p' n) {q : Option ℕ} {i : ℕ}
    (htree : p'.tree = insertIn SessionNode.ident q i m p.tree)
    (hq : ∀ a ∈ preorder p.tree, q = some a.ident → a.isSeparator = false)
    (hspawn : ∀ k, some k ∈ p'.startupNodesBySpawnIndex →
      some k ∈ p.startupNodesBySpawnIndex ∨ k = n.ident ∧ n.isSeparator = false) : p'.Rooted := by
  refine ⟨htree ▸ h.leafy.insertIn hq, fun k hk => ?_⟩
  have hmem : ∀ m ∈ preorder p'.tree, m = n ∨ m ∈ preorder p.tree :=
    fun m hm => List.mem_cons.mp ((hi.perm hp).mem_iff.mp hm)
  rcases hspawn k hk with hold | ⟨rfl, hsep⟩
  · obtain ⟨hlt, hsession⟩ := h.spawned k hold
    refine ⟨hi.created ▸ hlt.trans (Nat.lt_succ_self _), fun m hm hmk => ?_⟩
    rcases hmem m hm with rfl | hm
    · rw [hi.ident] at hmk
      exact absurd hmk hlt.ne'
    · exact hsession m hm hmk
  · refine ⟨?_, fun m hm hmk => ?_⟩
    · rw [hi.created, hi.ident]
      exact Nat.lt_succ_self _
    · rcases hmem m hm with rfl | hm
      · exact hsep
      · exact absurd (hmk ▸ mem_keys_of_mem hm) (hi.not_mem hp)

/-- A node for a tab keeps separators as leaves. -/
theorem rooted_addMissingSessionNode {p : Page} (hp : p.Valid) (h : p.Rooted) (tab : ℕ) :
    (p.addMissingSessionNode tab).Rooted := by
  rcases addMissingSessionNode_cases p tab with ⟨-, heq⟩ | ⟨-, n, hi, -, hsep, -⟩
  · exact heq.symm ▸ h
  · revert hi
    rw [addMissingSessionNode]
    split_ifs with hnode hcur
    · exact fun _ => h
    · intro hi
      refine h.insert hp hi rfl (h.session _) fun k hk => ?_
      rcases List.mem_or_eq_of_mem_set hk with hk | hk
      · exact Or.inl hk
      · exact Or.inr ⟨(Option.some.inj hk).trans hi.ident.symm, hsep⟩
    · intro hi
      exact h.insert (q := none) hp hi rfl (fun a _ hnone => by cases hnone) fun k hk => Or.inl hk

theorem rooted_realizeSeparator {st : Page × List ((Option ℕ × Option ℕ) × ℕ)}
    (hp : st.1.Valid) (h : st.1.Rooted) (sep : StartupSeparator) :
    (realizeSeparator st sep).1.Rooted := by
  obtain ⟨n, hi, -, -, -⟩ := realizeSeparator_inserts st sep
  exact h.insert hp hi rfl (h.session _) fun k hk => Or.inl hk

/-- What no pass of the handler changes. -/
structure SameTabs (p p' : Page) : Prop where
  tabs : p'.tabs = p.tabs
  tabsCreated : p'.tabsCreated = p.tabsCreated
  suppress : p'.suppressSessionTreeReconcile = p.suppressSessionTreeReconcile

/-- The tabs are the same. -/
theorem SameTabs.refl (p : Page) : SameTabs p p := ⟨rfl, rfl, rfl⟩

/-- And they are after two steps. -/
theorem SameTabs.trans {p q r : Page} (h : SameTabs p q) (h' : SameTabs q r) : SameTabs p r :=
  ⟨h'.tabs.trans h.tabs, h'.tabsCreated.trans h.tabsCreated, h'.suppress.trans h.suppress⟩

/-- A new node opens no tab. -/
theorem sameTabs_addMissingSessionNode (p : Page) (tab : ℕ) :
    SameTabs p (p.addMissingSessionNode tab) := by
  rw [addMissingSessionNode]
  split_ifs <;> exact ⟨rfl, rfl, rfl⟩

/-- So it is for any number of tabs. -/
theorem foldl_addMissingSessionNode_rooted (todo : List ℕ) {p : Page} (hp : p.Valid)
    (h : p.Rooted) : (todo.foldl addMissingSessionNode p).Rooted ∧
      SameTabs p (todo.foldl addMissingSessionNode p) := by
  induction todo generalizing p with
  | nil => exact ⟨h, SameTabs.refl p⟩
  | cons t todo ih =>
      have hvalid : (p.addMissingSessionNode t).Valid := by
        rcases addMissingSessionNode_cases p t with ⟨-, heq⟩ | ⟨-, n, hi, -⟩
        · exact heq.symm ▸ hp
        · exact hi.valid hp
      obtain ⟨hroot, hsame⟩ := ih hvalid (rooted_addMissingSessionNode hp h t)
      exact ⟨hroot, (sameTabs_addMissingSessionNode p t).trans hsame⟩

theorem foldl_realizeSeparator_rooted (seps : List StartupSeparator)
    {s : Page × List ((Option ℕ × Option ℕ) × ℕ)} (hp : s.1.Valid) (h : s.1.Rooted) :
    (seps.foldl realizeSeparator s).1.Valid ∧ (seps.foldl realizeSeparator s).1.Rooted ∧
      SameTabs s.1 (seps.foldl realizeSeparator s).1 := by
  induction seps generalizing s with
  | nil => exact ⟨hp, h, SameTabs.refl _⟩
  | cons sep seps ih =>
      obtain ⟨n, hi, -, -, -⟩ := realizeSeparator_inserts s sep
      obtain ⟨hvalid, hroot, hsame⟩ := ih (hi.valid hp) (rooted_realizeSeparator hp h sep)
      have hstep : SameTabs s.1 (realizeSeparator s sep).1 := ⟨rfl, rfl, rfl⟩
      exact ⟨hvalid, hroot, hstep.trans hsame⟩

/-- The pass on bottom separators keeps all that. -/
theorem rooted_sink {p : Page} (hp : p.Valid) (h : p.Rooted) :
    (sinkBottomSeparators p).Valid ∧ (sinkBottomSeparators p).Rooted := by
  rw [sinkBottomSeparators, sinkBottomSeparatorsIn_eq hp.nodup]
  refine ⟨hp.of_perm (preorder_settle_perm _ _) rfl, h.leafy.of_perm (outline_settle_perm _ _ _),
    fun k hk => ⟨(h.spawned k hk).1, fun n hn => ?_⟩⟩
  exact (h.spawned k hk).2 n ((preorder_settle_perm _ p.tree).mem_iff.mp hn)

/-- So does the step that realizes them. -/
theorem rooted_realizeStartupSeparators {p : Page} (hp : p.Valid) (h : p.Rooted) :
    p.realizeStartupSeparators.Valid ∧ p.realizeStartupSeparators.Rooted ∧
      SameTabs p p.realizeStartupSeparators := by
  rw [realizeStartupSeparators]
  split_ifs with h₁ h₂ h₃
  · exact ⟨hp, h, SameTabs.refl p⟩
  · exact ⟨hp, h, SameTabs.refl p⟩
  · exact ⟨hp.of_perm (List.Perm.refl _) rfl, ⟨h.leafy, h.spawned⟩, ⟨rfl, rfl, rfl⟩⟩
  · obtain ⟨hvalid, hroot, hsame⟩ := foldl_realizeSeparator_rooted p.pendingStartupSeparators
      (s := ({ p with startupSeparatorsRealized := true }, []))
      (hp.of_perm (List.Perm.refl _) rfl) ⟨h.leafy, h.spawned⟩
    dsimp only
    obtain ⟨hv, hr⟩ := rooted_sink (p := { ((p.pendingStartupSeparators.foldl realizeSeparator
      ({ p with startupSeparatorsRealized := true }, [])).1) with pendingStartupSeparators := [] })
      (hvalid.of_perm (List.Perm.refl _) rfl) ⟨hroot.leafy, hroot.spawned⟩
    exact ⟨hv, hr, ⟨hsame.tabs, hsame.tabsCreated, hsame.suppress⟩⟩

theorem Grown.subset {B : LiveTree} {N : ℕ} {p : Page} (h : Grown B N p) :
    preorder B ⊆ preorder p.tree := by
  intro n hn
  rw [preorder_eq_map [], ← h.rows] at hn
  rw [preorder_eq_map []]
  obtain ⟨r, hr, rfl⟩ := List.mem_map.mp hn
  exact List.mem_map_of_mem (List.mem_filter.mp hr).1

/-- The invariant of a settled tree to which only nodes were added. -/
theorem Sound.of_adding {p p' q : Page} {B : LiveTree} {N : ℕ} (hq : Adding B N p.tabs q)
    (hroot : p'.Rooted) (hsame : SameTabs p p') (hcount : p'.nodesCreated = q.nodesCreated)
    (htree : p'.tree = settle SessionNode.isBottomSeparator q.tree) (hnodup : p.tabs.Nodup)
    (hcreated : ∀ t ∈ p.tabs, t < p.tabsCreated)
    (hs : p.suppressSessionTreeReconcile = false) : p'.Sound := by
  have hperm : (preorder p'.tree).Perm (preorder q.tree) := htree ▸ preorder_settle_perm _ _
  refine ⟨hq.grown.valid.of_perm hperm hcount, ?_, hroot.leafy, ?_, hroot.spawned, ?_, ?_, ?_⟩
  · intro n hn hsep
    obtain ⟨t, ht, hnt⟩ := hq.live n (hperm.mem_iff.mp hn) hsep
    exact ⟨t, hsame.tabs ▸ hq.tabs_eq ▸ ht, hnt⟩
  · intro r
    rw [htree]
    exact sunk_settle hq.grown.valid.nodup r
  · exact hsame.tabs ▸ hnodup
  · rw [hsame.tabs, hsame.tabsCreated]
    exact hcreated
  · exact hsame.suppress.trans hs

/-- The invariant behind the handler, and a node for every tab. -/
theorem sound_onSessionsCollectionChanged {p : Page} (hp : p.Valid) (h : p.Rooted)
    (hnodup : p.tabs.Nodup) (hcreated : ∀ t ∈ p.tabs, t < p.tabsCreated)
    (hs : p.suppressSessionTreeReconcile = false) :
    p.onSessionsCollectionChanged.Sound ∧ p.onSessionsCollectionChanged.Complete ∧
      SameTabs p p.onSessionsCollectionChanged ∧
      ∀ n ∈ preorder p.tree, p.survives n = true →
        n ∈ preorder p.onSessionsCollectionChanged.tree := by
  obtain ⟨q, hq, hall, htree, -, hcount⟩ := onSessionsCollectionChanged_eq hp hs
  obtain ⟨hroot, hsame⟩ : p.onSessionsCollectionChanged.Rooted ∧
      SameTabs p p.onSessionsCollectionChanged := by
    rw [onSessionsCollectionChanged, if_neg (by simp [hs]), pruneRemovedSessionNodes_eq hp,
      addMissingSessionNodes]
    have hroot₁ : Rooted { p with tree := contract p.survives p.tree } := by
      refine ⟨h.leafy.contract _, fun k hk => ⟨(h.spawned k hk).1, fun n hn => ?_⟩⟩
      rw [preorder_contract] at hn
      exact (h.spawned k hk).2 n (List.mem_filter.mp hn).1
    have hadd : Adding (contract p.survives p.tree) p.nodesCreated p.tabs
        { p with tree := contract p.survives p.tree } :=
      ⟨Grown.refl (valid_contract hp _), live_contract p, rfl⟩
    have hvalid₂ := (foldl_addMissingSessionNode hadd (List.Subset.refl _)).1.grown.valid
    obtain ⟨hroot₂, hsame₂⟩ := foldl_addMissingSessionNode_rooted p.tabs
      (valid_contract hp p.survives) hroot₁
    obtain ⟨hvalid₃, hroot₃, hsame₃⟩ := rooted_realizeStartupSeparators hvalid₂ hroot₂
    have hsame : SameTabs { p with tree := contract p.survives p.tree } _ := hsame₂.trans hsame₃
    exact ⟨(rooted_sink hvalid₃ hroot₃).2, hsame.tabs, hsame.tabsCreated, hsame.suppress⟩
  refine ⟨Sound.of_adding hq hroot hsame hcount htree hnodup hcreated hs, ?_, hsame, ?_⟩
  · intro t ht
    rw [hsame.tabs] at ht
    obtain ⟨n, hn, hnt⟩ := mem_nodeTabs.mp (hall ht)
    rw [htree]
    exact mem_nodeTabs.mpr ⟨n, (preorder_settle_perm _ _).mem_iff.mpr hn, hnt⟩
  · intro n hn hsurvives
    rw [htree, (preorder_settle_perm _ _).mem_iff]
    apply hq.grown.subset
    rw [preorder_contract]
    exact List.mem_filter.mpr ⟨hn, hsurvives⟩

end Page

end Axan.SessionTree
