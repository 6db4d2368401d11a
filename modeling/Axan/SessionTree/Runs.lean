import Axan.SessionTree.Handlers

/-!
# The live tree over whole runs

* `insertAfterSeparator_spec`, `appendChild_relocates` — where a dropped row and a child session
  land; `appendChild_of_mem` — where the session that is taken for the child is lost.
* `sound_step` — every event keeps the invariant, so it holds in every state of a run (`sound_run`).
* `complete_step_iff` — a step leaves a tab without a row exactly when it is `addChildSession`
  without a new tab while the focused session is above the target (`Loses`).
* `tabs_run` — **in a run without such a step the rows and the tabs correspond one to one, and a tab
  keeps its row as long as it is open.**
-/

namespace Axan.SessionTree

open Axan.Base Axan.Base.Forest Axan.LaunchEntryWire

namespace Page

/-! ### A row that moves -/

section Moves

variable {T : LiveTree} (hT : (keys SessionNode.ident T).Nodup)

include hT

/-- An index within the size is within the rows. -/
theorem sizeIn_le {q : Option ℕ} (hq : Present SessionNode.ident q T) {i : ℕ}
    (hi : i ≤ sizeIn q T) : i ≤ (childrenIn SessionNode.ident q none T).length :=
  sizeIn_eq hT hq ▸ hi

/-- A row under a separator is taken out, and put behind the separator. -/
theorem insertAfterSeparator_eq {s : SessionNode} {t : SessionNode × LiveTree} {item i j : ℕ}
    {q : Option ℕ} (hs : s ∈ preorder T) (hsep : s.isSeparator = true)
    (ht : treeOf SessionNode.ident item T = some t)
    (hl : locate SessionNode.ident item T = some (some s.ident, i))
    (hls : locate SessionNode.ident s.ident T = some (q, j)) :
    insertAfterSeparator T item =
      insertTree SessionNode.ident q (min (j + 1) (sizeIn q (without SessionNode.ident item T))) t
        (without SessionNode.ident item T) := by
  have htaken : modifyIn SessionNode.ident (some s.ident) (eraseTreeAt i) T =
      without SessionNode.ident item T := by
    have hremove := removeTree_eq item hT
    rwa [removeTree, hl] at hremove
  have hany : ((preorder T).any fun n => n.ident = s.ident && n.isSeparator) = true :=
    List.any_eq_true.mpr ⟨s, hs, by simp [hsep]⟩
  rw [insertAfterSeparator, hl, ht]
  dsimp only
  rw [if_pos hany, hls]
  dsimp only
  rw [htaken]

/-- A row that was dropped onto a separator is a sibling of it now, and the separator has no
separator above it. -/
theorem insertAfterSeparator_of_separator {s : SessionNode} {t : SessionNode × LiveTree}
    {item i : ℕ}
    (honly : ∀ a ∈ preorder T, a.isSeparator = true →
      ∀ b ∈ childrenIn SessionNode.ident (some a.ident) none T, b.ident = item)
    (hs : s ∈ preorder T) (hsep : s.isSeparator = true)
    (ht : treeOf SessionNode.ident item T = some t)
    (hl : locate SessionNode.ident item T = some (some s.ident, i)) :
    Relocates SessionNode.ident item T (insertAfterSeparator T item) ∧
      ∀ a ∈ preorder (insertAfterSeparator T item), a.isSeparator = true →
        item ∉ (childrenIn SessionNode.ident (some a.ident) none
          (insertAfterSeparator T item)).map SessionNode.ident := by
  have hout := parent_not_mem_treeOf hT ht (mem_childrenIn_of_locate hT hl)
  obtain ⟨⟨q, j⟩, hls⟩ : ∃ x, locate SessionNode.ident s.ident T = some x :=
    Option.ne_none_iff_exists'.mp fun hnone => not_mem_keys_of_locate hnone (mem_keys_of_mem hs)
  have hsscope := mem_childrenIn_of_locate hT hls
  have hpresent := present_without hT ht (mem_keys_of_locate hT hls).1 hsscope hout
  have hle := sizeIn_le (nodup_without hT ht) hpresent (min_le_right (j + 1) _)
  obtain ⟨hrel, hchild⟩ := relocates_insertTree hT ht hpresent hle
  rw [← insertAfterSeparator_eq hT hs hsep ht hl hls] at hrel hchild
  refine ⟨hrel, fun a ha hasep hmem => ?_⟩
  have hitemq : item ∈ (childrenIn SessionNode.ident q none
      (insertAfterSeparator T item)).map SessionNode.ident := by
    rw [hchild]
    exact List.mem_map.mpr ⟨t.1, (List.mem_insertIdx hle).mpr (Or.inl rfl), (treeOf_spec ht).1⟩
  obtain rfl := scope_unique (hrel.nodup hT) hmem hitemq
  -- else the separator itself would be the one row under that separator
  obtain ⟨b, hb, hbs⟩ := List.mem_map.mp hsscope
  apply hout
  rw [← hbs, honly a (hrel.nodes.mem_iff.mp ha) hasep b hb, keys_node, (treeOf_spec ht).1]
  exact List.mem_cons_self

/-- **Behind the drag handler** no row hangs under a separator, and the dropped row is the only one
that moved. -/
theorem insertAfterSeparator_spec {item : ℕ}
    (honly : ∀ a ∈ preorder T, a.isSeparator = true →
      ∀ b ∈ childrenIn SessionNode.ident (some a.ident) none T, b.ident = item) :
    Relocates SessionNode.ident item T (insertAfterSeparator T item) ∧
      ∀ a ∈ preorder (insertAfterSeparator T item), a.isSeparator = true →
        item ∉ (childrenIn SessionNode.ident (some a.ident) none
          (insertAfterSeparator T item)).map SessionNode.ident := by
  -- unless the row hangs under a separator, nothing moves
  have hstay : (∀ a ∈ preorder T, a.isSeparator = true →
      item ∉ (childrenIn SessionNode.ident (some a.ident) none T).map SessionNode.ident) →
      insertAfterSeparator T item = T →
      Relocates SessionNode.ident item T (insertAfterSeparator T item) ∧
        ∀ a ∈ preorder (insertAfterSeparator T item), a.isSeparator = true →
          item ∉ (childrenIn SessionNode.ident (some a.ident) none
            (insertAfterSeparator T item)).map SessionNode.ident := by
    intro h heq
    rw [heq]
    exact ⟨Relocates.refl _ _, h⟩
  cases hl : locate SessionNode.ident item T with
  | none =>
      have hitem := not_mem_keys_of_locate hl
      apply hstay
      · exact fun a _ _ => not_mem_map_childrenIn hitem
      · rw [insertAfterSeparator, hl]
  | some x =>
      obtain ⟨q, i⟩ := x
      obtain ⟨-, hitem⟩ := mem_keys_of_locate hT hl
      have hscope := mem_childrenIn_of_locate hT hl
      obtain ⟨t, ht⟩ := exists_treeOf hitem
      cases q with
      | none =>
          apply hstay
          · intro a _ _ hmem
            have := scope_unique hT hmem hscope
            cases this
          · rw [insertAfterSeparator, hl, ht]
      | some parent =>
          by_cases hsep : ((preorder T).any fun n => n.ident = parent && n.isSeparator) = true
          · obtain ⟨s, hs, hsp⟩ := List.any_eq_true.mp hsep
            rw [Bool.and_eq_true, decide_eq_true_eq] at hsp
            obtain ⟨rfl, hssep⟩ := hsp
            exact insertAfterSeparator_of_separator hT honly hs hssep ht hl
          · apply hstay
            · intro a ha hasep hmem
              obtain rfl := Option.some.inj (scope_unique hT hmem hscope)
              apply hsep
              exact List.any_eq_true.mpr ⟨a, ha, by simp [hasep]⟩
            · rw [insertAfterSeparator, hl, ht]
              exact if_neg hsep

/-- The subtree goes to the end of the target's children. -/
theorem appendChild_eq {target node : ℕ} {t : SessionNode × LiveTree}
    (ht : treeOf SessionNode.ident node T = some t) :
    appendChild T target node =
      insertTree SessionNode.ident (some target)
        (sizeIn (some target) (without SessionNode.ident node T)) t
        (without SessionNode.ident node T) := by
  rw [appendChild, ht]
  dsimp only
  rw [removeTree_eq node hT]

/-- A node becomes the last child of one that does not hang under it. -/
theorem appendChild_relocates {target node : ℕ} {t : SessionNode × LiveTree}
    (ht : treeOf SessionNode.ident node T = some t) (htarget : target ∈ keys SessionNode.ident T)
    (hout : target ∉ keys SessionNode.ident (Forest.node t.1 t.2 nil)) :
    Relocates SessionNode.ident node T (appendChild T target node) ∧
      childrenIn SessionNode.ident (some target) none (appendChild T target node) =
        childrenIn SessionNode.ident (some target) none (without SessionNode.ident node T) ++
          [t.1] := by
  have hpresent : Present SessionNode.ident (some target) (without SessionNode.ident node T) := by
    rintro _ ⟨⟩
    exact (mem_keys_without_iff hT ht).mpr ⟨htarget, hout⟩
  have hsize := sizeIn_eq (nodup_without hT ht) hpresent
  obtain ⟨hrel, hchild⟩ := relocates_insertTree hT ht hpresent hsize.le
  rw [appendChild_eq hT ht]
  refine ⟨hrel, hchild.trans ?_⟩
  rw [hsize, List.insertIdx_length_self]

/-- **A node that is to become a child of one of its own descendants leaves the tree**, with all
that hangs under it. -/
theorem appendChild_of_mem {target node : ℕ} {t : SessionNode × LiveTree}
    (ht : treeOf SessionNode.ident node T = some t)
    (hin : target ∈ keys SessionNode.ident (Forest.node t.1 t.2 nil)) :
    appendChild T target node = without SessionNode.ident node T := by
  rw [appendChild_eq hT ht]
  exact modifyAt_of_not_mem fun h => ((mem_keys_without_iff hT ht).mp h).2 hin

end Moves

/-! ### One event -/

variable {p : Page}

/-- A node survives when its tab does. -/
theorem survives_of_tab {q : Page} {n : SessionNode}
    (hn : n.isSeparator = false → ∃ t ∈ p.tabs, n.tabRef = some t)
    (htabs : ∀ t, n.tabRef = some t → t ∈ p.tabs → t ∈ q.tabs) : q.survives n = true := by
  rw [survives, isDead]
  cases hsep : n.isSeparator with
  | true => rfl
  | false =>
      obtain ⟨t, ht, hnt⟩ := hn hsep
      simpa [hnt] using htabs t hnt ht

/-- A new tab keeps the invariant, and no tab is without a row. -/
theorem sound_openTab (h : p.Sound) (position : ℕ) :
    (p.openTab position).Sound ∧ (p.openTab position).Complete ∧
      (p.openTab position).tabs = p.tabs.insertIdx (min position p.tabs.length) p.tabsCreated ∧
      (p.openTab position).tabsCreated = p.tabsCreated + 1 ∧
      preorder p.tree ⊆ preorder (p.openTab position).tree := by
  have hperm : (p.tabs.insertIdx (min position p.tabs.length) p.tabsCreated).Perm
      (p.tabsCreated :: p.tabs) := List.perm_insertIdx _ _ (min_le_right _ _)
  obtain ⟨hsound, hcomplete, hsame, hkept⟩ := sound_onSessionsCollectionChanged
    (p := { p with
      tabs := p.tabs.insertIdx (min position p.tabs.length) p.tabsCreated
      tabsCreated := p.tabsCreated + 1 })
    (h.valid.of_perm (List.Perm.refl _) rfl) ⟨h.leafy, h.spawned⟩
    (hperm.nodup_iff.mpr (List.nodup_cons.mpr
      ⟨fun hmem => (h.tabs_created _ hmem).false, h.tabs_nodup⟩))
    (by
      intro t ht
      rcases List.mem_cons.mp (hperm.mem_iff.mp ht) with rfl | ht
      · exact Nat.lt_succ_self _
      · exact (h.tabs_created t ht).trans (Nat.lt_succ_self _))
    h.reconciles
  refine ⟨hsound, hcomplete, hsame.tabs, hsame.tabsCreated, fun n hn => hkept n hn ?_⟩
  exact survives_of_tab (h.live n hn) fun t _ ht => hperm.mem_iff.mpr (List.mem_cons_of_mem _ ht)

/-- So does a tab that is closed. -/
theorem sound_closeTab (h : p.Sound) (tab : ℕ) :
    (p.closeTab tab).Sound ∧ (p.closeTab tab).Complete ∧
      SameTabs { p with tabs := p.tabs.erase tab } (p.closeTab tab) ∧
      ∀ n ∈ preorder p.tree, n.tabRef ≠ some tab → n ∈ preorder (p.closeTab tab).tree := by
  obtain ⟨hsound, hcomplete, hsame, hkept⟩ := sound_onSessionsCollectionChanged
    (p := { p with tabs := p.tabs.erase tab }) (h.valid.of_perm (List.Perm.refl _) rfl)
    ⟨h.leafy, h.spawned⟩ (h.tabs_nodup.erase tab)
    (fun t ht => h.tabs_created t (List.mem_of_mem_erase ht)) h.reconciles
  refine ⟨hsound, hcomplete, hsame, fun n hn hne => hkept n hn ?_⟩
  apply survives_of_tab (h.live n hn)
  intro t hnt ht
  exact (List.mem_erase_of_ne fun heq => hne (hnt.trans (congrArg some heq))).mpr ht

/-- A tab that moves leaves the tree alone. -/
theorem tryMoveTab_eq (p : Page) (current : ℕ) (suggested : ℤ) :
    p.tryMoveTab current suggested = p ∨
      ∃ tabs, tabs.Perm p.tabs ∧
        p.tryMoveTab current suggested =
          { p with tabs := tabs, suppressSessionTreeReconcile := false } := by
  rw [tryMoveTab]
  cases htab : p.tabs[current]? with
  | none => exact Or.inl rfl
  | some tab =>
      dsimp only
      split_ifs with hsame
      · exact Or.inl rfl
      · right
        obtain ⟨hlt, rfl⟩ := List.getElem?_eq_some_iff.mp htab
        refine ⟨(p.tabs.eraseIdx current).insertIdx (p.clampIndex suggested) p.tabs[current], ?_, ?_⟩
        · refine (List.perm_insertIdx _ _ ?_).trans (List.getElem_cons_eraseIdx_perm hlt)
          rw [List.length_eraseIdx_of_lt hlt, clampIndex]
          omega
        · simp only [changeTabs, onSessionsCollectionChanged, if_true]

/-- So do the separators of the startup. -/
theorem sound_realizeStartupSeparators (h : p.Sound) :
    p.realizeStartupSeparators.Sound ∧ SameTabs p p.realizeStartupSeparators ∧
      preorder p.tree ⊆ preorder p.realizeStartupSeparators.tree := by
  obtain ⟨-, hroot, hsame⟩ := rooted_realizeStartupSeparators h.valid ⟨h.leafy, h.spawned⟩
  revert hroot hsame
  rw [realizeStartupSeparators]
  split_ifs with h₁ h₂ h₃
  · exact fun _ hsame => ⟨h, hsame, List.Subset.refl _⟩
  · exact fun _ hsame => ⟨h, hsame, List.Subset.refl _⟩
  · exact fun _ hsame => ⟨⟨h.valid.of_perm (List.Perm.refl _) rfl, h.live, h.leafy, h.sunk,
      h.spawned, h.tabs_nodup, h.tabs_created, h.reconciles⟩, hsame, List.Subset.refl _⟩
  · intro hroot hsame
    have hadd : Adding p.tree p.nodesCreated p.tabs { p with startupSeparatorsRealized := true } :=
      Adding.of_eq ⟨Grown.refl h.valid, h.live, rfl⟩ rfl rfl rfl
    obtain ⟨hq, -⟩ := foldl_realizeSeparator p.pendingStartupSeparators
      ({ p with startupSeparatorsRealized := true }, []) hadd
    have htree := sinkBottomSeparatorsIn_eq hq.grown.valid.nodup
    refine ⟨Sound.of_adding hq hroot hsame rfl htree h.tabs_nodup h.tabs_created h.reconciles,
      hsame, ?_⟩
    intro n hn
    show n ∈ preorder (sinkBottomSeparatorsIn _)
    rw [htree, (preorder_settle_perm _ _).mem_iff]
    exact hq.grown.subset hn

/-- Moving a tab does not change the tree. -/
theorem sound_moveTab (h : p.Sound) (current : ℕ) (suggested : ℤ) :
    (p.tryMoveTab current suggested).Sound ∧
      (p.tryMoveTab current suggested).tabs.Perm p.tabs ∧
      (p.tryMoveTab current suggested).tabsCreated = p.tabsCreated ∧
      (p.tryMoveTab current suggested).tree = p.tree := by
  rcases p.tryMoveTab_eq current suggested with heq | ⟨tabs, hperm, heq⟩
  · rw [heq]
    exact ⟨h, List.Perm.refl _, rfl, rfl⟩
  · rw [heq]
    refine ⟨⟨h.valid.of_perm (List.Perm.refl _) rfl, fun n hn hsep => ?_, h.leafy, h.sunk, h.spawned,
      hperm.nodup_iff.mpr h.tabs_nodup, fun t ht => h.tabs_created t (hperm.mem_iff.mp ht), rfl⟩,
      hperm, rfl, rfl⟩
    obtain ⟨t, ht, hnt⟩ := h.live n hn hsep
    exact ⟨t, hperm.mem_iff.mpr ht, hnt⟩

/-- The end of the startup keeps the invariant. -/
theorem sound_spawned (h : p.Sound) :
    p.markStartupSpawnComplete.Sound ∧ SameTabs p p.markStartupSpawnComplete ∧
      preorder p.tree ⊆ preorder p.markStartupSpawnComplete.tree := by
  have hcursor : Sound { p with
      startupNodeCursor := max p.startupNodeCursor p.pendingStartupLabelTemplates.length } :=
    ⟨h.valid.of_perm (List.Perm.refl _) rfl, h.live, h.leafy, h.sunk, h.spawned, h.tabs_nodup,
      h.tabs_created, h.reconciles⟩
  obtain ⟨hsound, hsame, hkept⟩ := sound_realizeStartupSeparators hcursor
  exact ⟨hsound, ⟨hsame.tabs, hsame.tabsCreated, hsame.suppress⟩, hkept⟩

/-- A change outside of the core does not touch it. -/
theorem map_core_congr {T : LiveTree} {f : SessionNode → SessionNode}
    (hf : ∀ n ∈ preorder T, core (f n) = core n) : (T.map f).map core = T.map core := by
  induction T with
  | nil => rfl
  | node a c s ihc ihs =>
      rw [preorder, List.forall_mem_cons, List.forall_mem_append] at hf
      rw [Forest.map, Forest.map, Forest.map, hf.1, ihc hf.2.1, ihs hf.2.2]

/-- What collapsing and expanding sections does to the nodes. -/
def Recollapses (f : SessionNode → SessionNode) : Prop :=
  ∀ n, ∃ collapsed, f n = { n with isCollapsed := collapsed }

/-- Nothing is opened or closed. -/
theorem recollapses_id : Recollapses id := fun n => ⟨n.isCollapsed, rfl⟩

/-- One change after the other. -/
theorem Recollapses.comp {f g : SessionNode → SessionNode} (hf : Recollapses f)
    (hg : Recollapses g) : Recollapses fun n => g (f n) := by
  intro n
  obtain ⟨b, hb⟩ := hf n
  obtain ⟨c, hc⟩ := hg (f n)
  refine ⟨c, ?_⟩
  show g (f n) = _
  rw [hc, hb]

/-- A change of the rows of one kind. -/
theorem recollapses_ite (b : SessionNode → Bool) (collapsed : Bool) :
    Recollapses fun n => if b n then n.setCollapsed collapsed else n := by
  intro n
  dsimp only
  split_ifs
  · exact ⟨_, rfl⟩
  · exact ⟨n.isCollapsed, rfl⟩

/-- It does not touch the core. -/
theorem Recollapses.core_eq {f : SessionNode → SessionNode} (hf : Recollapses f)
    (n : SessionNode) : core (f n) = core n := by
  obtain ⟨collapsed, h⟩ := hf n
  rw [h]
  rfl

/-- Opening headers opens and closes, no more. -/
theorem foldl_expandHeaderOf (ns : List SessionNode) (T : LiveTree) :
    ∃ f, Recollapses f ∧ ns.foldl expandHeaderOf T = T.map f := by
  induction ns generalizing T with
  | nil => exact ⟨id, recollapses_id, (map_id T).symm⟩
  | cons n ns ih =>
      obtain ⟨f, hf, htree⟩ : ∃ f, Recollapses f ∧ expandHeaderOf T n = T.map f := by
        rw [expandHeaderOf]
        cases headerFor T n.ident with
        | none => exact ⟨id, recollapses_id, (map_id T).symm⟩
        | some header =>
            dsimp only
            split_ifs
            · refine ⟨_, recollapses_ite (fun m => m.ident = header.ident) false, ?_⟩
              simp only [decide_eq_true_eq]
            · exact ⟨id, recollapses_id, (map_id T).symm⟩
      obtain ⟨g, hg, htree'⟩ := ih (expandHeaderOf T n)
      refine ⟨fun m => g (f m), hf.comp hg, ?_⟩
      rw [List.foldl_cons, htree', htree, Forest.map_map]

/-- So does opening the target of a drop. -/
theorem expandDropped_eq (T : LiveTree) (item : ℕ) :
    ∃ f, Recollapses f ∧ expandDropped T item = T.map f := by
  rw [expandDropped]
  split_ifs
  · exact ⟨id, recollapses_id, (map_id T).symm⟩
  · rw [expandSectionsContaining]
    cases (outline [] T).find? fun r => r.1.ident = item with
    | none => exact ⟨id, recollapses_id, (map_id T).symm⟩
    | some r => exact foldl_expandHeaderOf _ T

/-- A dropped row keeps the nodes; the sections it was dropped into are expanded. -/
theorem sound_drag (h : p.Sound) {landed : LiveTree} {item : ℕ}
    (hland : Relocates SessionNode.ident item p.tree landed) :
    (p.dragItemsCompleted landed [item]).Sound ∧
      ∃ f, Recollapses f ∧
        (preorder (p.dragItemsCompleted landed [item]).tree).Perm ((preorder p.tree).map f) := by
  have hnd := hland.nodup h.valid.nodup
  have honly : ∀ a ∈ preorder landed, a.isSeparator = true →
      ∀ b ∈ childrenIn SessionNode.ident (some a.ident) none landed, b.ident = item := by
    intro a ha hsep b hb
    have hnone := (leafy_iff h.valid.nodup).mp h.leafy a (hland.nodes.mem_iff.mp ha) hsep
    have hothers := hland.others (some a.ident)
    rw [hnone, List.filter_nil, List.filter_eq_nil_iff] at hothers
    simpa using hothers b hb
  obtain ⟨hrel, hout⟩ := insertAfterSeparator_spec hnd honly
  have htotal := hland.trans hrel
  have hleafy := h.leafy.of_relocates h.valid.nodup htotal hout
  obtain ⟨f, hf, hexpand⟩ := expandDropped_eq (insertAfterSeparator landed item) item
  have hcore := fun T : LiveTree => map_core_congr (T := T) fun n _ => hf.core_eq n
  have hnodes : (preorder ((insertAfterSeparator landed item).map f)).Perm
      (preorder (p.tree.map f)) := by
    rw [preorder_map, preorder_map]
    exact htotal.nodes.map f
  have hrows := h.of_core (s := p.settings) (hcore p.tree)
  have hpage : p.dragItemsCompleted landed [item] =
      sinkBottomSeparators { p with tree := (insertAfterSeparator landed item).map f } := by
    rw [dragItemsCompleted, List.foldl_cons, List.foldl_nil, List.foldl_cons, List.foldl_nil,
      hexpand]
  rw [hpage]
  refine ⟨hrows.sink hnodes.subperm (leafy_of_core (hcore _) hleafy), f, hf, ?_⟩
  show (preorder (sinkBottomSeparatorsIn ((insertAfterSeparator landed item).map f))).Perm _
  rw [sinkBottomSeparatorsIn_eq ((hnodes.map SessionNode.ident).nodup_iff.mpr hrows.valid.nodup),
    ← preorder_map]
  exact (preorder_settle_perm _ _).trans hnodes

theorem setSectionCollapsed_eq (p : Page) (header : ℕ) (collapsed : Bool) :
    ∃ f, Recollapses f ∧ p.setSectionCollapsed header collapsed = { p with tree := p.tree.map f } :=
  ⟨_, recollapses_ite (fun n => n.ident = header && n.hasSectionHeader) collapsed, rfl⟩

theorem sound_collapse (h : p.Sound) (header : ℕ) (collapsed : Bool) :
    (p.setSectionCollapsed header collapsed).Sound := by
  obtain ⟨f, hf, heq⟩ := p.setSectionCollapsed_eq header collapsed
  rw [heq]
  exact h.of_core (s := p.settings) (map_core_congr fun n _ => hf.core_eq n)

/-- The page of a node does not touch the core of a session. -/
theorem core_apply (e : NodeEdit) {n : SessionNode} (hn : n.isSeparator = false) :
    core (e.apply n) = core n := by
  simp [core, NodeEdit.apply, SessionNode.isBottomSeparator, hn]

theorem sound_save (h : p.Sound) (ident : ℕ) (edit : NodeEdit) :
    (p.saveNode ident edit).Sound ∧ SameTabs p (p.saveNode ident edit) ∧
      (p.saveNode ident edit).tree.map core = p.tree.map core := by
  rw [saveNode]
  cases hfind : (preorder p.tree).find? fun n => n.ident = ident with
  | none => exact ⟨h, SameTabs.refl p, rfl⟩
  | some n =>
      dsimp only
      split_ifs with hsep
      · exact ⟨h, SameTabs.refl p, rfl⟩
      · have hn := List.mem_of_find?_eq_some hfind
        have hident : n.ident = ident := by simpa using List.find?_some hfind
        have hcore : (p.tree.map fun m => if m.ident = ident then edit.apply m else m).map core =
            p.tree.map core := by
          apply map_core_congr
          intro m hm
          split_ifs with hmi
          · have heq := eq_of_ident_eq h.valid.nodup hm hn (hmi.trans hident.symm)
            exact core_apply edit (heq ▸ by simpa using hsep)
          · rfl
        exact ⟨h.of_core hcore, ⟨rfl, rfl, rfl⟩, hcore⟩

/-- A changed appearance changes neither the tab nor the kind of a row. -/
theorem core_applyNodeIcon (n : SessionNode) (iconOverride iconColor colorTarget : WString) :
    core (n.applyNodeIcon iconOverride iconColor colorTarget) = core n := by
  unfold SessionNode.applyNodeIcon
  by_cases hsep : n.isSeparator = true
  · rw [if_pos hsep]
  · rw [if_neg hsep]
    simp [core, SessionNode.isBottomSeparator, hsep]

theorem sound_clearIconOverride (h : p.Sound) (ident : ℕ) : (p.clearIconOverride ident).Sound :=
  h.of_core (s := p.settings) (map_core_congr fun n _ => by
    split_ifs
    · exact core_applyNodeIcon n [] [] []
    · rfl)

/-- The reload changes the hoist of a row, no more. -/
theorem isSeparator_syncHoistOverride (settings : List LaunchEntry) (n : SessionNode) :
    ∃ hoist, syncHoistOverride settings n = { n with hoistOverride := hoist } := by
  rw [syncHoistOverride]
  split_ifs with h
  · exact ⟨_, rfl⟩
  · split <;> exact ⟨_, rfl⟩

/-- So the core is untouched. -/
theorem core_syncHoistOverride (settings : List LaunchEntry) (n : SessionNode) :
    core (syncHoistOverride settings n) = core n := by
  obtain ⟨hoist, h⟩ := isSeparator_syncHoistOverride settings n
  rw [h]
  rfl

/-- So it is by a new label. -/
theorem core_relabel (settings : List LaunchEntry) (n : SessionNode) :
    core (relabel settings n) = core n := by
  obtain ⟨label, collapsed, h⟩ := relabel_eq settings n
  rw [h]
  rfl

/-- **A reload** writes the hoist overrides and the labels, and takes the separators out that are no
longer in the settings: they are leaves, so no row changes its place. -/
theorem reload_tree (h : p.Sound) (settings : List LaunchEntry) :
    (p.reload settings).tree =
      ((contract (fun n => !isStale settings n) (p.tree.map (syncHoistOverride settings))).map
        (relabel settings)) := by
  have hcore := map_core_congr (T := p.tree) fun n _ => core_syncHoistOverride settings n
  have hsync := (h.of_core (s := settings) hcore).valid.nodup
  exact reconcile_eq_map hsync

/-- A reload keeps the invariant. -/
theorem sound_reload (h : p.Sound) (settings : List LaunchEntry) : (p.reload settings).Sound := by
  have hcore := map_core_congr (T := p.tree) fun n _ => core_syncHoistOverride settings n
  have hsync := h.of_core (s := settings) hcore
  have hstale : ∀ n : SessionNode, (!isStale settings n) = false → n.isSeparator = true := by
    intro n hn
    rw [isStale] at hn
    simp only [Bool.not_eq_false', Bool.and_eq_true] at hn
    exact hn.1.1
  have hcontract := hsync.of_subperm (s := settings)
    (T := contract (fun n => !isStale settings n) (p.tree.map (syncHoistOverride settings)))
    (by rw [preorder_contract]; exact List.filter_sublist.subperm)
    (hsync.leafy.contract _)
    (fun q => by
      rw [hsync.leafy.childrenIn_contract hstale]
      exact (hsync.sunk q).filter _)
  have hlabel := hcontract.of_core (s := settings)
    (map_core_congr fun n _ => core_relabel settings n)
  have hpage : p.reload settings = { p with
      settings := settings
      tree := (contract (fun n => !isStale settings n)
        (p.tree.map (syncHoistOverride settings))).map (relabel settings) } := by
    rw [← reload_tree h]
    rfl
  rw [hpage]
  exact hlabel

/-- A capture changes the ids of the rows. -/
theorem forall₂_adoptAll (live : LiveTabs) (fresh : ℕ → WString) (l : List SessionNode)
    (st : CaptureState) :
    List.Forall₂ (fun n n' => n' = { n with entryId := n'.entryId }) l
      (adoptAll live fresh l st).1 := by
  induction l generalizing st with
  | nil => exact List.Forall₂.nil
  | cons n l ih => exact List.Forall₂.cons (adopt_rest n st) (ih _)

theorem core_capture (live : LiveTabs) (fresh : ℕ → WString) (T : LiveTree) :
    (captureLiveSessionEntries live fresh T).1.map core = T.map core := by
  obtain ⟨hshape, hpre⟩ := capture_adopt live fresh T
  apply Eq.symm
  apply map_eq hshape
  rw [hpre]
  refine (forall₂_adoptAll live fresh (preorder T) {}).imp fun n n' hn => ?_
  rw [hn]
  rfl

theorem sound_capture (h : p.Sound) (live : LiveTabs) (fresh : ℕ → WString) :
    (p.step (.capture live fresh)).Sound :=
  h.of_core (s := p.settings) (core_capture live fresh p.tree)

/-! ### The step that loses rows -/

/-- A node is above the node with an identity. -/
def Above (T : LiveTree) (n : SessionNode) (target : ℕ) : Prop :=
  ∃ r ∈ outline [] T, r.1.ident = target ∧ n ∈ r.2

/-- `addChildSession` whose duplication fails while the focused session is above the target. -/
def Loses (p : Page) : Event → Prop
  | .addChild target none focused =>
      p.nodeTab target ≠ none ∧ ∃ n, p.focusedNode focused = some n ∧ Above p.tree n target
  | _ => False

/-- The node of a tab is in the tree. -/
theorem mem_of_findNodeForTab {tab : ℕ} {n : SessionNode} (h : p.findNodeForTab tab = some n) :
    n ∈ preorder p.tree ∧ n.tabRef = some tab :=
  ⟨List.mem_of_find?_eq_some h, by simpa using List.find?_some h⟩

/-- So is the focused one, and its tab is open. -/
theorem mem_of_focusedNode {focused : Option ℕ} {n : SessionNode}
    (h : p.focusedNode focused = some n) :
    n ∈ preorder p.tree ∧ ∃ t ∈ p.tabs, n.tabRef = some t := by
  rw [focusedNode, Option.bind_eq_some_iff] at h
  obtain ⟨t, ht, hn⟩ := h
  obtain ⟨i, -, hi⟩ := Option.bind_eq_some_iff.mp ht
  obtain ⟨hmem, htab⟩ := mem_of_findNodeForTab hn
  exact ⟨hmem, t, List.mem_of_getElem? hi, htab⟩

/-- The tab of a node is that of a row. -/
theorem mem_of_nodeTab {ident t : ℕ} (h : p.nodeTab ident = some t) :
    ∃ m ∈ preorder p.tree, m.ident = ident ∧ m.tabRef = some t := by
  rw [nodeTab, Option.filter_eq_some_iff, Option.bind_eq_some_iff] at h
  obtain ⟨⟨m, hm, hmt⟩, -⟩ := h
  exact ⟨m, List.mem_of_find?_eq_some hm, by simpa using List.find?_some hm, hmt⟩

/-- A node is above those of its subtree. -/
theorem above_iff (h : p.Valid) {n : SessionNode} (hn : n ∈ preorder p.tree)
    {t : SessionNode × LiveTree} (ht : treeOf SessionNode.ident n.ident p.tree = some t)
    {target : ℕ} (htarget : target ∈ keys SessionNode.ident p.tree) :
    Above p.tree n target ↔ target ∈ keys SessionNode.ident t.2 := by
  have hiff : ∀ r ∈ outline [] p.tree, r.1.ident ∈ keys SessionNode.ident t.2 ↔ n ∈ r.2 := by
    intro r hr
    rw [mem_treeOf_iff h.nodup ht List.not_mem_nil hr, List.mem_map]
    constructor
    · rintro ⟨a, ha, han⟩
      rcases exists_child hr ha with hnil | ⟨hpre, -⟩
      · cases hnil
      · exact eq_of_ident_eq h.nodup hpre hn han ▸ ha
    · exact fun hmem => ⟨n, hmem, rfl⟩
  constructor
  · rintro ⟨r, hr, rfl, hmem⟩
    exact (hiff r hr).mpr hmem
  · intro hmem
    obtain ⟨m, hm, rfl⟩ := List.mem_map.mp htarget
    rw [preorder_eq_map []] at hm
    obtain ⟨r, hr, rfl⟩ := List.mem_map.mp hm
    exact ⟨r, hr, rfl, (hiff r hr).mp hmem⟩

/-- It is not above itself. -/
theorem not_above_self (h : p.Valid) {n : SessionNode} (hn : n ∈ preorder p.tree) :
    ¬Above p.tree n n.ident := by
  obtain ⟨t, ht⟩ := exists_treeOf (F := p.tree) (k := n.ident) (mem_keys_of_mem hn)
  obtain ⟨⟨hroot, -⟩, -⟩ := nodup_node (nodup_treeOf_without h.nodup ht)
  have hnot := foreign_some.mp hroot
  rw [(treeOf_spec ht).1] at hnot
  rwa [above_iff h hn ht (mem_keys_of_mem hn)]

/-- The handler puts no old row under a new one. -/
theorem openTab_above (h : p.Sound) (position : ℕ) {n : SessionNode} {target : ℕ}
    (htarget : target ∈ keys SessionNode.ident p.tree)
    (ha : Above (p.openTab position).tree n target) : n ∈ preorder p.tree := by
  have hv : Valid { p with
      tabs := p.tabs.insertIdx (min position p.tabs.length) p.tabsCreated
      tabsCreated := p.tabsCreated + 1 } := h.valid.of_perm (List.Perm.refl _) rfl
  obtain ⟨q, hq, hall, htree, -, -⟩ := onSessionsCollectionChanged_eq hv h.reconciles
  have hrec := reconciled_of_settle hv hq hall htree
  obtain ⟨r, hr, hrt, hn⟩ := ha
  obtain ⟨m, hm, hmt⟩ := List.mem_map.mp htarget
  have hrpre : r.1 ∈ preorder (p.openTab position).tree := by
    rw [preorder_eq_map []]
    exact List.mem_map_of_mem hr
  obtain ⟨hsound, -, -, -, hkept⟩ := sound_openTab h position
  have hold : r.1 ∈ preorder p.tree :=
    eq_of_ident_eq hsound.valid.nodup (hkept hm) hrpre (hmt.trans hrt.symm) ▸ hm
  have hsurv := hrec.ancestors.mem_iff.mp (List.mem_filter.mpr ⟨hr, by simpa using hold⟩)
  obtain ⟨r₀, hr₀, rfl⟩ := List.mem_map.mp hsurv
  rcases exists_child (List.mem_filter.mp hr₀).1 (List.mem_filter.mp hn).1 with hnil | ⟨hpre, -⟩
  · cases hnil
  · exact hpre

/-- An action of the startup keeps the invariant. -/
theorem sound_doAction (h : p.Sound) (opened : Option ℕ) :
    (p.doAction opened).Sound ∧ preorder p.tree ⊆ preorder (p.doAction opened).tree ∧
      (p.Complete → (p.doAction opened).Complete) := by
  cases opened with
  | none => exact ⟨h, List.Subset.refl _, id⟩
  | some position =>
      obtain ⟨hsound, hcomplete, -, -, hkept⟩ := sound_openTab h position
      exact ⟨hsound, hkept, fun _ => hcomplete⟩

/-- A node with a tab is a session. -/
theorem session_of_tabRef (h : p.Valid) {n : SessionNode} (hn : n ∈ preorder p.tree) {t : ℕ}
    (ht : n.tabRef = some t) : n.isSeparator = false := by
  cases hsep : n.isSeparator with
  | false => rfl
  | true =>
      rw [h.separators n hn hsep] at ht
      cases ht

/-- The new tab is the focused one, so its row is new and above no old row. -/
theorem not_above_of_opened (h : p.Sound) {position target : ℕ} {n : SessionNode}
    (htarget : target ∈ keys SessionNode.ident p.tree)
    (hn : (p.openTab position).focusedNode (some (min position p.tabs.length)) = some n) :
    ¬Above (p.openTab position).tree n target := by
  intro ha
  obtain ⟨-, -, htabs, -, -⟩ := sound_openTab h position
  have hlt : min position p.tabs.length ≤ p.tabs.length := min_le_right _ _
  have htab : (p.openTab position).tabs[min position p.tabs.length]? = some p.tabsCreated := by
    rw [htabs, List.getElem?_insertIdx_self, if_pos hlt]
  rw [focusedNode, Option.bind_some, htab, Option.bind_some] at hn
  have hnew := (mem_of_findNodeForTab hn).2
  have hold := openTab_above h position htarget ha
  obtain ⟨t, ht, hnt⟩ := h.live n hold (session_of_tabRef h.valid hold hnew)
  rw [hnew] at hnt
  exact (h.tabs_created t ht).ne (Option.some.inj hnt).symm

/-- In terms of the tree behind the duplication. -/
theorem loses_iff (h : p.Sound) {target : ℕ} {opened focused : Option ℕ}
    (hallow : p.Allowed (.addChild target opened focused)) :
    p.Loses (.addChild target opened focused) ↔
      p.nodeTab target ≠ none ∧ ∃ n, (p.doAction opened).focusedNode focused = some n ∧
        Above (p.doAction opened).tree n target := by
  cases opened with
  | none => exact Iff.rfl
  | some position =>
      refine iff_of_false id ?_
      rintro ⟨htab, n, hn, ha⟩
      obtain ⟨t, ht⟩ := Option.ne_none_iff_exists'.mp htab
      obtain ⟨m, hm, rfl, -⟩ := mem_of_nodeTab ht
      obtain rfl : focused = some (min position p.tabs.length) := hallow
      exact not_above_of_opened h (mem_keys_of_mem hm) hn ha

/-- A row that is taken from above the target is lost, with all that hangs under it. -/
theorem not_complete_without {q : Page} (h : q.Sound) {n : SessionNode} (hn : n ∈ preorder q.tree)
    {t : ℕ} (ht : t ∈ q.tabs) (hnt : n.tabRef = some t) {T : SessionNode × LiveTree}
    (hT : treeOf SessionNode.ident n.ident q.tree = some T) {G : LiveTree}
    (hG : (preorder G).Perm (preorder (without SessionNode.ident n.ident q.tree))) :
    ¬Complete { q with tree := G } := by
  intro hcomplete
  obtain ⟨m, hm, hmt⟩ := mem_nodeTabs.mp (hcomplete ht)
  have hm' := hG.mem_iff.mp hm
  have hold : m ∈ preorder q.tree := (subperm_without h.valid.nodup hT).subset hm'
  obtain rfl := eq_of_tabRef_eq h.valid.tabs hold hn hmt hnt
  apply ((mem_keys_without_iff h.valid.nodup hT).mp (mem_keys_of_mem hm')).2
  rw [keys_node, (treeOf_spec hT).1]
  exact List.mem_cons_self

/-- What is in the tree of a node. -/
theorem mem_tree_iff (h : p.Valid) {n : SessionNode} (hn : n ∈ preorder p.tree)
    {t : SessionNode × LiveTree} (ht : treeOf SessionNode.ident n.ident p.tree = some t)
    {target : ℕ} (htarget : target ∈ keys SessionNode.ident p.tree) :
    target ∈ keys SessionNode.ident (Forest.node t.1 t.2 nil) ↔
      target = n.ident ∨ Above p.tree n target := by
  rw [above_iff h hn ht htarget, keys_node, List.mem_cons, List.mem_append, (treeOf_spec ht).1]
  exact or_congr_right (or_iff_left List.not_mem_nil)

/-- The child session under a session that is not below it. -/
theorem sound_appendChild (h : p.Sound) {m n : SessionNode} (hm : m ∈ preorder p.tree)
    (hsession : m.isSeparator = false) (hn : n ∈ preorder p.tree) (hne : m.ident ≠ n.ident)
    (habove : ¬Above p.tree n m.ident) :
    (sinkBottomSeparators { p with tree := appendChild p.tree m.ident n.ident }).Sound ∧
      (preorder (sinkBottomSeparators
        { p with tree := appendChild p.tree m.ident n.ident }).tree).Perm (preorder p.tree) := by
  obtain ⟨t, ht⟩ := exists_treeOf (F := p.tree) (k := n.ident) (mem_keys_of_mem hn)
  have hout := (mem_tree_iff h.valid hn ht (mem_keys_of_mem hm)).not.mpr (not_or.mpr ⟨hne, habove⟩)
  obtain ⟨hrel, hchild⟩ := appendChild_relocates h.valid.nodup ht (mem_keys_of_mem hm) hout
  have hnd := hrel.nodup h.valid.nodup
  have hscope : n.ident ∈ (childrenIn SessionNode.ident (some m.ident) none
      (appendChild p.tree m.ident n.ident)).map SessionNode.ident := by
    rw [hchild]
    exact List.mem_map.mpr
      ⟨t.1, List.mem_append_right _ List.mem_cons_self, (treeOf_spec ht).1⟩
  have hleafy := h.leafy.of_relocates h.valid.nodup hrel (by
    intro a ha hsep hmem
    have ham := scope_unique hnd hmem hscope
    obtain rfl := eq_of_ident_eq h.valid.nodup (hrel.nodes.mem_iff.mp ha) hm (Option.some.inj ham)
    rw [hsession] at hsep
    cases hsep)
  refine ⟨h.sink hrel.nodes.subperm hleafy, ?_⟩
  show (preorder (sinkBottomSeparatorsIn _)).Perm _
  rw [sinkBottomSeparatorsIn_eq hnd]
  exact (preorder_settle_perm _ _).trans hrel.nodes

/-- The child session under a session that is below it. -/
theorem lost_appendChild (h : p.Sound) {n : SessionNode} (hn : n ∈ preorder p.tree) {tab : ℕ}
    (htab : tab ∈ p.tabs) (hnt : n.tabRef = some tab) {target : ℕ}
    (htarget : target ∈ keys SessionNode.ident p.tree) (habove : Above p.tree n target) :
    (sinkBottomSeparators { p with tree := appendChild p.tree target n.ident }).Sound ∧
      ¬(sinkBottomSeparators { p with tree := appendChild p.tree target n.ident }).Complete := by
  obtain ⟨t, ht⟩ := exists_treeOf (F := p.tree) (k := n.ident) (mem_keys_of_mem hn)
  have hin := (mem_tree_iff h.valid hn ht htarget).mpr (Or.inr habove)
  rw [appendChild_of_mem h.valid.nodup ht hin]
  refine ⟨h.sink (subperm_without h.valid.nodup ht) fun r hr => h.leafy r (mem_outline_without hr),
    ?_⟩
  apply not_complete_without h hn htab hnt ht
  rw [sinkBottomSeparatorsIn_eq (nodup_without h.valid.nodup ht)]
  exact preorder_settle_perm _ _

/-- **What `addChildSession` does to the rows**: it loses none, unless it takes the focused session
from above the target. -/
theorem addChild_spec (h : p.Sound) {target : ℕ} {opened focused : Option ℕ}
    (hallow : p.Allowed (.addChild target opened focused)) :
    (p.addChildSession target opened focused).Sound ∧
      ((¬p.Loses (.addChild target opened focused) ∧
          (p.addChildSession target opened focused = p ∨
            SameTabs (p.doAction opened) (p.addChildSession target opened focused) ∧
            (preorder (p.addChildSession target opened focused).tree).Perm
              (preorder (p.doAction opened).tree))) ∨
        (p.Loses (.addChild target opened focused) ∧
          ¬(p.addChildSession target opened focused).Complete)) := by
  obtain ⟨hq, hkept, -⟩ := sound_doAction h opened
  rw [loses_iff h hallow, addChildSession]
  generalize p.doAction opened = q at hq hkept ⊢
  cases htab : p.nodeTab target with
  | none => exact ⟨h, Or.inl ⟨fun hl => hl.1 rfl, Or.inl rfl⟩⟩
  | some tab =>
      obtain ⟨m, hm, rfl, hmt⟩ := mem_of_nodeTab htab
      have hmq := hkept hm
      have hsession := session_of_tabRef hq.valid hmq hmt
      dsimp only
      cases hfocus : q.focusedNode focused with
      | none =>
          refine ⟨hq, Or.inl ⟨?_, Or.inr ⟨SameTabs.refl q, List.Perm.refl _⟩⟩⟩
          rintro ⟨-, n, hn, -⟩
          cases hn
      | some n =>
          obtain ⟨hn, t, ht, hnt⟩ := mem_of_focusedNode hfocus
          dsimp only
          by_cases hself : n.ident = m.ident
          · rw [if_pos hself]
            refine ⟨hq, Or.inl ⟨?_, Or.inr ⟨SameTabs.refl q, List.Perm.refl _⟩⟩⟩
            rintro ⟨-, n', hn', ha⟩
            obtain rfl := Option.some.inj hn'
            exact not_above_self hq.valid hn (hself ▸ ha)
          · rw [if_neg hself]
            by_cases habove : Above q.tree n m.ident
            · obtain ⟨hsound, hnot⟩ := lost_appendChild hq hn ht hnt (mem_keys_of_mem hmq) habove
              exact ⟨hsound, Or.inr ⟨⟨by simp, n, rfl, habove⟩, hnot⟩⟩
            · obtain ⟨hsound, hperm⟩ := sound_appendChild hq hmq hsession hn (Ne.symm hself) habove
              refine ⟨hsound, Or.inl ⟨?_, Or.inr ⟨⟨rfl, rfl, rfl⟩, hperm⟩⟩⟩
              rintro ⟨-, n', hn', ha⟩
              obtain rfl := Option.some.inj hn'
              exact habove ha

/-- **The invariant is kept by every event.** -/
theorem sound_step (h : p.Sound) {e : Event} (hallow : p.Allowed e) : (p.step e).Sound := by
  cases e with
  | openTab position => exact (sound_openTab h position).1
  | closeTab tab => exact (sound_closeTab h tab).1
  | moveTab current suggested => exact (sound_moveTab h current suggested).1
  | spawned => exact (sound_spawned h).1
  | addChild target opened focused => exact (addChild_spec h hallow).1
  | drag landed item => exact (sound_drag h hallow).1
  | collapse header collapsed => exact sound_collapse h header collapsed
  | save ident edit => exact (sound_save h ident edit).1
  | clearIconOverride ident => exact sound_clearIconOverride h ident
  | reload settings => exact sound_reload h settings
  | capture live fresh => exact sound_capture h live fresh

theorem sound_foldl (es : List Event) (h : p.Sound) (hallow : p.Allows es) : (p.run es).Sound := by
  induction es generalizing p with
  | nil => exact h
  | cons e es ih => exact ih (sound_step h hallow.1) hallow.2

/-! ### What happens to a row -/

/-- The same row later on; what it shows may have been edited. -/
structure SameRow (edited : Prop) (n n' : SessionNode) : Prop where
  ident : n'.ident = n.ident
  tabRef : n'.tabRef = n.tabRef
  isSeparator : n'.isSeparator = n.isSeparator
  shows : ¬edited → n'.labelTemplate = n.labelTemplate ∧ n'.iconOverride = n.iconOverride ∧
    n'.iconColor = n.iconColor ∧ n'.colorTarget = n.colorTarget

/-- The row is the same. -/
theorem SameRow.refl (edited : Prop) (n : SessionNode) : SameRow edited n n :=
  ⟨rfl, rfl, rfl, fun _ => ⟨rfl, rfl, rfl, rfl⟩⟩

/-- Opened or closed, it is the same too. -/
theorem Recollapses.sameRow {f : SessionNode → SessionNode} (hf : Recollapses f) (edited : Prop)
    (n : SessionNode) : SameRow edited n (f n) := by
  obtain ⟨collapsed, h⟩ := hf n
  rw [h]
  exact ⟨rfl, rfl, rfl, fun _ => ⟨rfl, rfl, rfl, rfl⟩⟩

/-- So it is after two steps. -/
theorem SameRow.trans {e₁ e₂ e : Prop} {n₁ n₂ n₃ : SessionNode} (h : SameRow e₁ n₁ n₂)
    (h' : SameRow e₂ n₂ n₃) (h₁ : e₁ → e) (h₂ : e₂ → e) : SameRow e n₁ n₃ := by
  refine ⟨h'.ident.trans h.ident, h'.tabRef.trans h.tabRef, h'.isSeparator.trans h.isSeparator,
    fun he => ?_⟩
  obtain ⟨a, b, c, d⟩ := h.shows fun he₁ => he (h₁ he₁)
  obtain ⟨a', b', c', d'⟩ := h'.shows fun he₂ => he (h₂ he₂)
  exact ⟨a'.trans a, b'.trans b, c'.trans c, d'.trans d⟩

/-- The row an event edits. -/
def edits : Event → List ℕ
  | .save ident _ => [ident]
  | .clearIconOverride ident => [ident]
  | _ => []

/-- Related lists have related members. -/
theorem exists_of_forall₂ {α β : Type} {R : α → β → Prop} {l : List α} {m : List β}
    (h : List.Forall₂ R l m) {a : α} (ha : a ∈ l) : ∃ b ∈ m, R a b := by
  induction h with
  | nil => cases ha
  | cons hab _ ih =>
      rcases List.mem_cons.mp ha with rfl | ha
      · exact ⟨_, List.mem_cons_self, hab⟩
      · obtain ⟨b, hb, hr⟩ := ih ha
        exact ⟨b, List.mem_cons_of_mem _ hb, hr⟩

/-- A reload keeps the sessions. -/
theorem kept_reload (h : p.Sound) (settings : List LaunchEntry) {n : SessionNode}
    (hn : n ∈ preorder p.tree) (hsep : n.isSeparator = false) :
    ∃ n' ∈ preorder (p.reload settings).tree, SameRow False n n' := by
  obtain ⟨hoist, hsync⟩ := isSeparator_syncHoistOverride settings n
  have hsession : (syncHoistOverride settings n).isSeparator = false := by rw [hsync, hsep]
  refine ⟨syncHoistOverride settings n, ?_, ?_⟩
  · rw [reload_tree h, preorder_map, preorder_contract, preorder_map]
    refine List.mem_map.mpr ⟨_, List.mem_filter.mpr ⟨List.mem_map_of_mem hn, ?_⟩, ?_⟩
    · rw [isStale, hsession]
      rfl
    · rw [relabel, hsession]
      rfl
  · rw [hsync]
    exact ⟨rfl, rfl, rfl, fun _ => ⟨rfl, rfl, rfl, rfl⟩⟩

/-- **A row stays as long as its tab**, if the step is not one that loses rows. -/
theorem kept_step (h : p.Sound) {e : Event} (hallow : p.Allowed e) (hloses : ¬p.Loses e)
    {n : SessionNode} (hn : n ∈ preorder p.tree) (hsep : n.isSeparator = false)
    (htab : ∀ t, n.tabRef = some t → t ∈ (p.step e).tabs) :
    ∃ n' ∈ preorder (p.step e).tree, SameRow (n.ident ∈ edits e) n n' := by
  cases e with
  | openTab position =>
      obtain ⟨-, -, -, -, hkept⟩ := sound_openTab h position
      exact ⟨n, hkept hn, SameRow.refl _ n⟩
  | closeTab tab =>
      obtain ⟨-, -, hsame, hkept⟩ := sound_closeTab h tab
      refine ⟨n, hkept n hn fun hnt => ?_, SameRow.refl _ n⟩
      have hmem : tab ∈ (p.closeTab tab).tabs := htab tab hnt
      rw [hsame.tabs] at hmem
      exact h.tabs_nodup.not_mem_erase hmem
  | moveTab current suggested =>
      obtain ⟨-, -, -, htree⟩ := sound_moveTab h current suggested
      exact ⟨n, htree.symm ▸ hn, SameRow.refl _ n⟩
  | spawned =>
      obtain ⟨-, -, hkept⟩ := sound_spawned h
      exact ⟨n, hkept hn, SameRow.refl _ n⟩
  | addChild target opened focused =>
      obtain ⟨-, ⟨-, heq | ⟨-, hperm⟩⟩ | ⟨hl, -⟩⟩ := addChild_spec h hallow
      · refine ⟨n, ?_, SameRow.refl _ n⟩
        show n ∈ preorder (p.addChildSession target opened focused).tree
        rw [heq]
        exact hn
      · obtain ⟨-, hkept, -⟩ := sound_doAction h opened
        exact ⟨n, hperm.mem_iff.mpr (hkept hn), SameRow.refl _ n⟩
      · exact absurd hl hloses
  | drag landed item =>
      obtain ⟨-, f, hf, hperm⟩ := sound_drag h hallow
      exact ⟨f n, hperm.mem_iff.mpr (List.mem_map_of_mem hn), hf.sameRow _ n⟩
  | collapse header collapsed =>
      obtain ⟨f, hf, heq⟩ := p.setSectionCollapsed_eq header collapsed
      refine ⟨f n, ?_, hf.sameRow _ n⟩
      show f n ∈ preorder (p.setSectionCollapsed header collapsed).tree
      rw [heq, preorder_map]
      exact List.mem_map_of_mem hn
  | save ident edit =>
      show ∃ n' ∈ preorder (p.saveNode ident edit).tree, SameRow (n.ident ∈ [ident]) n n'
      rw [saveNode]
      cases hfind : (preorder p.tree).find? fun n => n.ident = ident with
      | none => exact ⟨n, hn, SameRow.refl _ n⟩
      | some m =>
          dsimp only
          split_ifs
          · exact ⟨n, hn, SameRow.refl _ n⟩
          · refine ⟨if n.ident = ident then edit.apply n else n, ?_, ?_⟩
            · rw [preorder_map]
              exact List.mem_map_of_mem
                (f := fun n => if n.ident = ident then edit.apply n else n) hn
            · split_ifs with hid
              · exact ⟨rfl, rfl, rfl, fun hnot => absurd (List.mem_singleton.mpr hid) hnot⟩
              · exact SameRow.refl _ n
  | clearIconOverride ident =>
      refine ⟨if n.ident = ident then n.applyNodeIcon [] [] [] else n, ?_, ?_⟩
      · show _ ∈ preorder (p.clearIconOverride ident).tree
        rw [clearIconOverride, preorder_map]
        exact List.mem_map_of_mem
          (f := fun n => if n.ident = ident then n.applyNodeIcon [] [] [] else n) hn
      · split_ifs with hid
        · rw [SessionNode.applyNodeIcon, if_neg (by simp [hsep])]
          exact ⟨rfl, rfl, rfl, fun hnot => absurd (List.mem_singleton.mpr hid) hnot⟩
        · exact SameRow.refl _ n
  | reload settings =>
      obtain ⟨n', hn', hrow⟩ := kept_reload h settings hn hsep
      exact ⟨n', hn', hrow.trans (SameRow.refl False n') False.elim False.elim⟩
  | capture live fresh =>
      obtain ⟨-, hpre⟩ := capture_adopt live fresh p.tree
      obtain ⟨n', hn', hrow⟩ := exists_of_forall₂
        (forall₂_adoptAll live fresh (preorder p.tree) {}) hn
      refine ⟨n', ?_, ?_⟩
      · show n' ∈ preorder (captureLiveSessionEntries live fresh p.tree).1
        exact hpre.symm ▸ hn'
      · rw [hrow]
        exact ⟨rfl, rfl, rfl, fun _ => ⟨rfl, rfl, rfl, rfl⟩⟩

/-- The tabs behind an event. -/
theorem tabs_step (h : p.Sound) {e : Event} (hallow : p.Allowed e) (hloses : ¬p.Loses e) :
    p.tabsCreated ≤ (p.step e).tabsCreated ∧
      ∀ t < p.tabsCreated, t ∈ (p.step e).tabs → t ∈ p.tabs := by
  have hopen : ∀ position, p.tabsCreated ≤ (p.openTab position).tabsCreated ∧
      ∀ t < p.tabsCreated, t ∈ (p.openTab position).tabs → t ∈ p.tabs := by
    intro position
    obtain ⟨-, -, htabs, hcreated, -⟩ := sound_openTab h position
    refine ⟨hcreated ▸ Nat.le_succ _, fun t hlt ht => ?_⟩
    rw [htabs, List.mem_insertIdx (min_le_right _ _)] at ht
    exact ht.resolve_left hlt.ne
  have hsame : ∀ q, SameTabs p q →
      p.tabsCreated ≤ q.tabsCreated ∧ ∀ t < p.tabsCreated, t ∈ q.tabs → t ∈ p.tabs :=
    fun q hq => ⟨hq.tabsCreated.ge, fun t _ ht => hq.tabs ▸ ht⟩
  cases e with
  | openTab position => exact hopen position
  | closeTab tab =>
      obtain ⟨-, -, hclose, -⟩ := sound_closeTab h tab
      refine ⟨hclose.tabsCreated.ge, fun t _ ht => ?_⟩
      have ht' : t ∈ (p.closeTab tab).tabs := ht
      rw [hclose.tabs] at ht'
      exact List.mem_of_mem_erase ht'
  | moveTab current suggested =>
      obtain ⟨-, hperm, hcreated, -⟩ := sound_moveTab h current suggested
      exact ⟨hcreated.ge, fun t _ ht => hperm.mem_iff.mp ht⟩
  | spawned => exact hsame _ (sound_spawned h).2.1
  | addChild target opened focused =>
      obtain ⟨-, ⟨-, heq | ⟨hq, -⟩⟩ | ⟨hl, -⟩⟩ := addChild_spec h hallow
      · show p.tabsCreated ≤ (p.addChildSession target opened focused).tabsCreated ∧
          ∀ t < p.tabsCreated, t ∈ (p.addChildSession target opened focused).tabs → t ∈ p.tabs
        rw [heq]
        exact hsame p (SameTabs.refl p)
      · cases opened with
        | none => exact hsame _ hq
        | some position =>
            show p.tabsCreated ≤ (p.addChildSession target (some position) focused).tabsCreated ∧
              ∀ t < p.tabsCreated,
                t ∈ (p.addChildSession target (some position) focused).tabs → t ∈ p.tabs
            rw [hq.tabs, hq.tabsCreated]
            exact hopen position
      · exact absurd hl hloses
  | drag landed item => exact hsame _ ⟨rfl, rfl, rfl⟩
  | collapse header collapsed => exact hsame _ ⟨rfl, rfl, rfl⟩
  | save ident edit => exact hsame _ (sound_save h ident edit).2.1
  | clearIconOverride ident => exact hsame _ ⟨rfl, rfl, rfl⟩
  | reload settings => exact hsame _ ⟨rfl, rfl, rfl⟩
  | capture live fresh => exact hsame _ ⟨rfl, rfl, rfl⟩

/-- A step that loses no row keeps a row for every tab. -/
theorem complete_of_not_loses (h : p.Sound) (hc : p.Complete) {e : Event} (hallow : p.Allowed e)
    (hloses : ¬p.Loses e) : (p.step e).Complete := by
  -- no new tab: the rows that are there stay
  have hstay : (∀ t ∈ (p.step e).tabs, t ∈ p.tabs) → (p.step e).Complete := by
    intro htabs t ht
    obtain ⟨n, hn, hnt⟩ := mem_nodeTabs.mp (hc (htabs t ht))
    obtain ⟨n', hn', hrow⟩ := kept_step h hallow hloses hn (session_of_tabRef h.valid hn hnt)
      (fun u hu => Option.some.inj (hnt.symm.trans hu) ▸ ht)
    exact mem_nodeTabs.mpr ⟨n', hn', hrow.tabRef.trans hnt⟩
  cases e with
  | openTab position => exact (sound_openTab h position).2.1
  | closeTab tab => exact (sound_closeTab h tab).2.1
  | moveTab current suggested =>
      obtain ⟨-, hperm, -, -⟩ := sound_moveTab h current suggested
      exact hstay fun t ht => hperm.mem_iff.mp ht
  | spawned =>
      obtain ⟨-, hsame, -⟩ := sound_spawned h
      exact hstay fun t ht => hsame.tabs ▸ ht
  | addChild target opened focused =>
      obtain ⟨-, ⟨-, heq | ⟨hq, hperm⟩⟩ | ⟨hl, -⟩⟩ := addChild_spec h hallow
      · show (p.addChildSession target opened focused).Complete
        rw [heq]
        exact hc
      · show (p.addChildSession target opened focused).Complete
        obtain ⟨-, -, hcomplete⟩ := sound_doAction h opened
        intro t ht
        rw [hq.tabs] at ht
        obtain ⟨n, hn, hnt⟩ := mem_nodeTabs.mp (hcomplete hc ht)
        exact mem_nodeTabs.mpr ⟨n, hperm.mem_iff.mpr hn, hnt⟩
      · exact absurd hl hloses
  | drag landed item => exact hstay fun t ht => ht
  | collapse header collapsed => exact hstay fun t ht => ht
  | save ident edit =>
      obtain ⟨-, hsame, -⟩ := sound_save h ident edit
      exact hstay fun t ht => hsame.tabs ▸ ht
  | clearIconOverride ident => exact hstay fun t ht => ht
  | reload settings => exact hstay fun t ht => ht
  | capture live fresh => exact hstay fun t ht => ht

/-! ### Whole runs -/

/-- No step of the run loses rows. -/
def Harmless (p : Page) : List Event → Prop
  | [] => True
  | e :: es => ¬p.Loses e ∧ (p.step e).Harmless es

/-- A harmless run leaves no tab without a row. -/
theorem complete_foldl (es : List Event) (h : p.Sound) (hc : p.Complete) (hallow : p.Allows es)
    (hharmless : p.Harmless es) : (p.run es).Complete := by
  induction es generalizing p with
  | nil => exact hc
  | cons e es ih =>
      exact ih (sound_step h hallow.1) (complete_of_not_loses h hc hallow.1 hharmless.1) hallow.2
        hharmless.2

/-- A tab that was closed does not come back. -/
theorem tabs_foldl (es : List Event) (h : p.Sound) (hallow : p.Allows es)
    (hharmless : p.Harmless es) {t : ℕ} (hlt : t < p.tabsCreated) (ht : t ∈ (p.run es).tabs) :
    t ∈ p.tabs := by
  induction es generalizing p with
  | nil => exact ht
  | cons e es ih =>
      obtain ⟨hle, hback⟩ := tabs_step h hallow.1 hharmless.1
      exact hback t hlt (ih (sound_step h hallow.1) hallow.2 hharmless.2 (hlt.trans_le hle) ht)

/-- A row stays through a run as long as its tab. -/
theorem kept_foldl (es : List Event) (h : p.Sound) (hallow : p.Allows es)
    (hharmless : p.Harmless es) {n : SessionNode} (hn : n ∈ preorder p.tree) {t : ℕ}
    (hnt : n.tabRef = some t) (ht : t ∈ (p.run es).tabs) :
    ∃ n' ∈ preorder (p.run es).tree, SameRow (n.ident ∈ es.flatMap edits) n n' := by
  induction es generalizing p n with
  | nil => exact ⟨n, hn, SameRow.refl _ n⟩
  | cons e es ih =>
      have hsep := session_of_tabRef h.valid hn hnt
      obtain ⟨u, hu, hnu⟩ := h.live n hn hsep
      obtain rfl := Option.some.inj (hnt.symm.trans hnu)
      obtain ⟨hle, -⟩ := tabs_step h hallow.1 hharmless.1
      have hstep := sound_step h hallow.1
      have htab : t ∈ (p.step e).tabs :=
        tabs_foldl es hstep hallow.2 hharmless.2 ((h.tabs_created t hu).trans_le hle) ht
      obtain ⟨n₁, hn₁, hrow⟩ := kept_step h hallow.1 hharmless.1 hn hsep
        (fun u hu => Option.some.inj (hnt.symm.trans hu) ▸ htab)
      obtain ⟨n₂, hn₂, hrow'⟩ := ih hstep hallow.2 hharmless.2 hn₁ (hrow.tabRef.trans hnt) ht
      refine ⟨n₂, hn₂, hrow.trans hrow' ?_ ?_⟩
      · exact fun he => List.mem_flatMap.mpr ⟨e, List.mem_cons_self, he⟩
      · intro he
        obtain ⟨e', he', hmem⟩ := List.mem_flatMap.mp he
        exact List.mem_flatMap.mpr ⟨e', List.mem_cons_of_mem _ he', hrow.ident ▸ hmem⟩

/-- A run is allowed part by part. -/
theorem allows_append {es₁ es₂ : List Event} :
    p.Allows (es₁ ++ es₂) ↔ p.Allows es₁ ∧ (p.run es₁).Allows es₂ := by
  induction es₁ generalizing p with
  | nil => exact (and_iff_right trivial).symm
  | cons e es ih =>
      show (p.Allowed e ∧ (p.step e).Allows (es ++ es₂)) ↔
        (p.Allowed e ∧ (p.step e).Allows es) ∧ ((p.step e).run es).Allows es₂
      rw [ih, and_assoc]

theorem harmless_append {es₁ es₂ : List Event} :
    p.Harmless (es₁ ++ es₂) ↔ p.Harmless es₁ ∧ (p.run es₁).Harmless es₂ := by
  induction es₁ generalizing p with
  | nil => exact (and_iff_right trivial).symm
  | cons e es ih =>
      show (¬p.Loses e ∧ (p.step e).Harmless (es ++ es₂)) ↔
        (¬p.Loses e ∧ (p.step e).Harmless es) ∧ ((p.step e).run es).Harmless es₂
      rw [ih, and_assoc]

theorem run_append (es₁ es₂ : List Event) : p.run (es₁ ++ es₂) = (p.run es₁).run es₂ :=
  List.foldl_append

/-- **The invariant holds in every state of every run** from a launch on any startup tree. -/
theorem sound_run {settings : List LaunchEntry} {sessions : List StartupSession}
    {separators : List StartupSeparator} {es : List Event}
    (hallow : (startupPage settings sessions separators).Allows es) :
    ((startupPage settings sessions separators).run es).Sound :=
  sound_foldl es (sound_startupPage settings sessions separators) hallow

/-- A bottom separator of the startup tree. -/
def bottomSeparator : StartupSeparator :=
  ⟨L "s", [], .finite 1, L "bottom", [], false, none, none⟩

/-- The page with its separator, node 0, and two tabs, of the nodes 1 and 2. -/
def separatorPage : Page :=
  (startupPage [] [] [bottomSeparator]).run [.spawned, .openTab 0, .openTab 1]

/-- The row of the first tab is dropped onto the separator, and the second tab closed. -/
def separatorRun : List Event :=
  [.spawned, .openTab 0, .openTab 1,
    .drag (((treeOf SessionNode.ident 1 separatorPage.tree).map fun t =>
      insertTree SessionNode.ident (some 0) 0 t
        (without SessionNode.ident 1 separatorPage.tree)).getD separatorPage.tree) 1,
    .closeTab 1]

/-- The run of the witness is allowed. -/
theorem allows_separatorRun : (startupPage [] [] [bottomSeparator]).Allows separatorRun := by
  refine ⟨trivial, trivial, trivial, ?_, trivial, trivial⟩
  obtain ⟨t, ht⟩ := Option.isSome_iff_exists.mp
    (by decide : (treeOf SessionNode.ident 1 separatorPage.tree).isSome = true)
  have hmoved := (relocates_insertTree (i := 0) (by decide) ht (q := some 0)
    (fun k hk => Option.some.inj hk ▸ (by decide)) (Nat.zero_le _)).1
  show Relocates SessionNode.ident 1 separatorPage.tree _
  rw [ht]
  exact hmoved

/-- The row is behind the other one, the separator behind both; then the row is alone with it. -/
theorem sound_separatorRun :
    ((startupPage [] [] [bottomSeparator]).run separatorRun).Sound ∧
      (preorder ((startupPage [] [] [bottomSeparator]).run (separatorRun.take 4)).tree).map
        SessionNode.ident = [2, 1, 0] ∧
      (preorder ((startupPage [] [] [bottomSeparator]).run separatorRun).tree).map
        SessionNode.ident = [1, 0] :=
  ⟨sound_run allows_separatorRun, by decide, by decide⟩

/-- A tab is opened, and a child session of it. -/
def childRun : List Event := [.openTab 0, .addChild 0 (some 1) (some 1)]

/-- So is the run with a child. -/
theorem allows_childRun : (startupPage [] [] []).Allows childRun := ⟨trivial, rfl, trivial⟩

theorem harmless_childRun : (startupPage [] [] []).Harmless childRun := ⟨id, id, trivial⟩

/-- **The one step that leaves a tab without a row**: a child session is added whose tab does not
open, while the focused session is above the target. -/
theorem complete_step_iff (h : p.Sound) (hc : p.Complete) {e : Event} (hallow : p.Allowed e) :
    (p.step e).Complete ↔ ¬p.Loses e := by
  constructor
  · intro hcomplete hl
    cases e with
    | addChild target opened focused =>
        obtain ⟨-, ⟨hnot, -⟩ | ⟨-, hnot⟩⟩ := addChild_spec h hallow
        · exact hnot hl
        · exact hnot hcomplete
    | _ => exact hl
  · exact complete_of_not_loses h hc hallow

/-- The child has the focused session above it: the next child that fails to open takes both rows
away. -/
theorem not_complete_childRun :
    ¬(((startupPage [] [] []).run childRun).step (.addChild 1 none (some 0))).Complete := by
  have hstart := sound_startupPage [] [] []
  have hc := complete_foldl childRun hstart (fun t ht => by cases ht) allows_childRun
    harmless_childRun
  have hiff := complete_step_iff (e := .addChild 1 none (some 0))
    (sound_foldl childRun hstart allows_childRun) hc trivial
  rw [hiff, not_not]
  refine ⟨by decide, _, rfl, _, List.mem_cons_of_mem _ List.mem_cons_self, rfl, ?_⟩
  exact List.mem_cons_self

/-- **Rows and tabs over a run without such a step**: they correspond one to one, and a row keeps
its identity, and what it shows unless it is edited, as long as its tab is open. -/
theorem tabs_run {settings : List LaunchEntry} {sessions : List StartupSession}
    {separators : List StartupSeparator} {es₁ es₂ : List Event}
    (hallow : (startupPage settings sessions separators).Allows (es₁ ++ es₂))
    (hharmless : (startupPage settings sessions separators).Harmless (es₁ ++ es₂)) :
    (∀ t ∈ ((startupPage settings sessions separators).run (es₁ ++ es₂)).tabs,
      ∃! n, n ∈ preorder ((startupPage settings sessions separators).run (es₁ ++ es₂)).tree ∧
        n.isSeparator = false ∧ n.tabRef = some t) ∧
    (∀ n ∈ preorder ((startupPage settings sessions separators).run (es₁ ++ es₂)).tree,
      n.isSeparator = false →
        ∃ t ∈ ((startupPage settings sessions separators).run (es₁ ++ es₂)).tabs,
          n.tabRef = some t) ∧
    ∀ n ∈ preorder ((startupPage settings sessions separators).run es₁).tree, ∀ t,
      n.tabRef = some t → t ∈ ((startupPage settings sessions separators).run (es₁ ++ es₂)).tabs →
        ∃ n' ∈ preorder ((startupPage settings sessions separators).run (es₁ ++ es₂)).tree,
          SameRow (n.ident ∈ es₂.flatMap edits) n n' := by
  have hstart := sound_startupPage settings sessions separators
  have hsound := sound_foldl _ hstart hallow
  have hcomplete := complete_foldl _ hstart (fun t ht => by cases ht) hallow hharmless
  obtain ⟨hallow₁, hallow₂⟩ := allows_append.mp hallow
  obtain ⟨-, hharmless₂⟩ := harmless_append.mp hharmless
  refine ⟨fun t ht => ?_, hsound.live, fun n hn t hnt ht => ?_⟩
  · obtain ⟨n, hn, hnt⟩ := mem_nodeTabs.mp (hcomplete ht)
    refine ⟨n, ⟨hn, session_of_tabRef hsound.valid hn hnt, hnt⟩, ?_⟩
    rintro m ⟨hm, -, hmt⟩
    exact eq_of_tabRef_eq hsound.valid.tabs hm hn hmt hnt
  · rw [run_append] at ht ⊢
    exact kept_foldl es₂ (sound_foldl es₁ hstart hallow₁) hallow₂ hharmless₂ hn hnt ht

theorem tabs_childRun :
    ∃! n, n ∈ preorder ((startupPage [] [] []).run
        ([.openTab 0] ++ [.addChild 0 (some 1) (some 1)])).tree ∧
      n.isSeparator = false ∧ n.tabRef = some 1 :=
  (tabs_run allows_childRun harmless_childRun).1 1 (by decide)

end Page

end Axan.SessionTree
