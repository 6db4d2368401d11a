import Axan.EntryTree.Editor
import Axan.SessionTree.Realize

/-!
# Saving the live tree as startup entries

`_CaptureLiveSessionEntries` walks the live tree in pre-order and writes one entry per session and
per separator. A node keeps its entry id unless it has none or an earlier node had the same; then
it gets a fresh one.

* `captureLiveSessionEntries` — the walk, with the write-back of the ids.
* `normalForm` — the entries in pre-order of the forest their parent ids define.
* `savedEntry` — what is left of an entry after a launch and a capture.
* `ShowsEntries` — the live tree of a list. Its lemmas compare the tree with the list scope by
  scope: `normalForm_eq`, `capture_eq`, `tree_normalForm`, `normalForm_captured`.
* `capture_startup` — a capture after a launch returns the normal form, each entry as
  `savedEntry`; the result is well-formed, and a launch and a capture return it once more.
-/

namespace Axan.SessionTree

open Axan.Base Axan.Base.Forest Axan.LaunchEntryWire

/-! ### The walk -/

/-- What the capture asks of the tabs. -/
structure LiveTabs where
  /-- The GUID of the focused profile as text; `none` without one. -/
  focusedProfile : ℕ → Option WString
  /-- The directory of the active control; `none` without one. -/
  workingDirectory : ℕ → Option WString

/-- The variables of the walk. -/
structure CaptureState where
  captured : List LaunchEntry := []
  usedIds : List WString := []
  /-- The number of fresh ids drawn. -/
  guids : ℕ := 0

/-- The id of the next entry: the node's own, or a fresh one. -/
def CaptureState.takeId (fresh : ℕ → WString) (st : CaptureState) (entryId : WString) :
    WString × CaptureState :=
  if entryId.isEmpty || st.usedIds.contains entryId then
    (fresh st.guids,
      { st with usedIds := fresh st.guids :: st.usedIds, guids := st.guids + 1 })
  else (entryId, { st with usedIds := entryId :: st.usedIds })

/-- The entry of a separator node. -/
def separatorEntry (n : SessionNode) (id parentId : WString) : LaunchEntry :=
  { id := id
    parentId := parentId
    kind := kindSeparatorW
    separatorStyle := n.separatorStyle
    height := n.separatorHeight
    placement := n.placement
    name := n.separatorLabel
    collapsed := n.isCollapsed }

/-- The entry of a session node. -/
def sessionEntry (n : SessionNode) (id parentId profile directory : WString) : LaunchEntry :=
  { id := id
    parentId := parentId
    profile := profile
    directory := directory
    name := n.labelTemplate
    icon := n.iconOverride
    color := n.iconColor
    colorTarget := n.colorTarget
    hoist := n.hoistOverride }

/-- `visit` on the nodes of a container. The children of a separator, or of a node without a
profile, hang from the parent it was given. -/
def visit (live : LiveTabs) (fresh : ℕ → WString) :
    LiveTree → WString → CaptureState → LiveTree × CaptureState
  | nil, _, st => (nil, st)
  | node n c s, parentId, st =>
      if n.isSeparator then
        let (id, st) := st.takeId fresh n.entryId
        let st := { st with captured := st.captured ++ [separatorEntry n id parentId] }
        let (c', st) := visit live fresh c parentId st
        let (s', st) := visit live fresh s parentId st
        (node { n with entryId := id } c' s', st)
      else
        match n.tabRef.bind live.focusedProfile with
        | none =>
            let (c', st) := visit live fresh c parentId st
            let (s', st) := visit live fresh s parentId st
            (node n c' s', st)
        | some profile =>
            let (id, st) := st.takeId fresh n.entryId
            let directory := (n.tabRef.bind live.workingDirectory).getD []
            let st :=
              { st with
                captured := st.captured ++ [sessionEntry n id parentId profile directory] }
            let (c', st) := visit live fresh c id st
            let (s', st) := visit live fresh s parentId st
            (node { n with entryId := id } c' s', st)

/-- The tree with the ids written back, and the entries. Source: `_CaptureLiveSessionEntries` -/
def captureLiveSessionEntries (live : LiveTabs) (fresh : ℕ → WString) (tree : LiveTree) :
    LiveTree × List LaunchEntry :=
  let (tree', st) := visit live fresh tree [] {}
  (tree', st.captured)

/-! ### The walk when the ids are distinct -/

/-- The entry of a node under a parent id. -/
def entryOf (live : LiveTabs) (n : SessionNode) (parentId : WString) : LaunchEntry :=
  if n.isSeparator then separatorEntry n n.entryId parentId
  else sessionEntry n n.entryId parentId ((n.tabRef.bind live.focusedProfile).getD [])
    ((n.tabRef.bind live.workingDirectory).getD [])

/-- The id of the nearest session among the ancestors. -/
def parentIdOf (up : List SessionNode) : WString :=
  ((up.find? fun a => !a.isSeparator).map SessionNode.entryId).getD []

/-- Separators are passed over on the way up. -/
theorem parentIdOf_cons (n : SessionNode) (up : List SessionNode) :
    parentIdOf (n :: up) = if n.isSeparator then parentIdOf up else n.entryId := by
  rw [parentIdOf, List.find?_cons]
  cases n.isSeparator <;> rfl

/-- The state behind the entry of a node. -/
def CaptureState.push (live : LiveTabs) (st : CaptureState) (n : SessionNode)
    (parentId : WString) : CaptureState :=
  { st with
    captured := st.captured ++ [entryOf live n parentId]
    usedIds := n.entryId :: st.usedIds }

/-- The walk at a node with an id of its own and a profile. -/
theorem visit_node {live : LiveTabs} (fresh : ℕ → WString) {n : SessionNode} (c s : LiveTree)
    (parentId : WString) {st : CaptureState} (hne : n.entryId ≠ []) (hused : n.entryId ∉ st.usedIds)
    (hprofile : n.isSeparator = false → (n.tabRef.bind live.focusedProfile).isSome = true) :
    visit live fresh (node n c s) parentId st =
      let r := visit live fresh c (if n.isSeparator then parentId else n.entryId)
        (st.push live n parentId)
      let r' := visit live fresh s parentId r.2
      (node n r.1 r'.1, r'.2) := by
  have htake : st.takeId fresh n.entryId =
      (n.entryId, { st with usedIds := n.entryId :: st.usedIds }) := by
    rw [CaptureState.takeId, if_neg]
    simp [hne, hused]
  rw [visit]
  by_cases hsep : n.isSeparator = true
  · simp only [htake, CaptureState.push, entryOf, if_pos hsep]
  · obtain ⟨profile, hp⟩ := Option.isSome_iff_exists.mp (hprofile (by simpa using hsep))
    simp only [htake, CaptureState.push, entryOf, if_neg hsep, hp, Option.getD_some]

/-- **The walk over a tree whose nodes have distinct ids and a profile each**: every node becomes
an entry, in pre-order, under its nearest session, and the tree stays as it is. -/
theorem visit_eq {live : LiveTabs} (fresh : ℕ → WString) {F : LiveTree} (up : List SessionNode)
    (st : CaptureState) (hne : ∀ n ∈ preorder F, n.entryId ≠ [])
    (hnd : ((preorder F).map SessionNode.entryId).Nodup)
    (hused : ∀ n ∈ preorder F, n.entryId ∉ st.usedIds)
    (hprofile : ∀ n ∈ preorder F, n.isSeparator = false →
      (n.tabRef.bind live.focusedProfile).isSome = true) :
    (visit live fresh F (parentIdOf up) st).1 = F ∧
      (visit live fresh F (parentIdOf up) st).2.captured = st.captured ++
        (outline up F).map (fun r => entryOf live r.1 (parentIdOf r.2)) ∧
      ∀ id, id ∈ (visit live fresh F (parentIdOf up) st).2.usedIds ↔
        id ∈ (preorder F).map SessionNode.entryId ∨ id ∈ st.usedIds := by
  induction F generalizing up st with
  | nil => simp [visit, outline, preorder]
  | node n c s ihc ihs =>
      have hcmem : ∀ m ∈ preorder c, m ∈ preorder (node n c s) := fun m hm =>
        List.mem_cons_of_mem _ (List.mem_append_left _ hm)
      have hsmem : ∀ m ∈ preorder s, m ∈ preorder (node n c s) := fun m hm =>
        List.mem_cons_of_mem _ (List.mem_append_right _ hm)
      rw [preorder, List.map_cons, List.nodup_cons, List.map_append, List.nodup_append',
        List.mem_append, not_or] at hnd
      obtain ⟨⟨hnc, hns⟩, hndc, hnds, hdisj⟩ := hnd
      have hchild := ihc (n :: up) (st.push live n (parentIdOf up))
        (fun m hm => hne m (hcmem m hm)) hndc
        (by
          intro m hm
          rw [CaptureState.push, List.mem_cons, not_or]
          exact ⟨fun h => hnc (h ▸ List.mem_map_of_mem hm), hused m (hcmem m hm)⟩)
        (fun m hm => hprofile m (hcmem m hm))
      rw [parentIdOf_cons] at hchild
      obtain ⟨hc₁, hc₂, hc₃⟩ := hchild
      rw [visit_node fresh c s (parentIdOf up) (hne n List.mem_cons_self)
        (hused n List.mem_cons_self) (hprofile n List.mem_cons_self)]
      set r := visit live fresh c (if n.isSeparator then parentIdOf up else n.entryId)
        (st.push live n (parentIdOf up))
      obtain ⟨hs₁, hs₂, hs₃⟩ := ihs up r.2 (fun m hm => hne m (hsmem m hm)) hnds
        (by
          intro m hm hmem
          have hid := List.mem_map_of_mem (f := SessionNode.entryId) hm
          rcases (hc₃ _).mp hmem with h | h
          · exact hdisj h hid
          · rw [CaptureState.push, List.mem_cons] at h
            rcases h with h | h
            · exact hns (h ▸ hid)
            · exact hused m (hsmem m hm) h)
        (fun m hm => hprofile m (hsmem m hm))
      refine ⟨?_, ?_, ?_⟩
      · simp only [hc₁, hs₁]
      · simp only [hs₂, hc₂, CaptureState.push, outline, List.map_cons, List.map_append,
          List.append_assoc, List.cons_append, List.nil_append]
      · intro id
        simp only [hs₃, hc₃, CaptureState.push, preorder, List.map_cons, List.map_append,
          List.mem_cons, List.mem_append]
        tauto

/-- The capture of a tree whose nodes have distinct ids and a profile each. -/
theorem captureLiveSessionEntries_eq {live : LiveTabs} (fresh : ℕ → WString) {T : LiveTree}
    (hne : ∀ n ∈ preorder T, n.entryId ≠ [])
    (hnd : ((preorder T).map SessionNode.entryId).Nodup)
    (hprofile : ∀ n ∈ preorder T, n.isSeparator = false →
      (n.tabRef.bind live.focusedProfile).isSome = true) :
    captureLiveSessionEntries live fresh T =
      (T, (outline [] T).map fun r => entryOf live r.1 (parentIdOf r.2)) := by
  obtain ⟨h₁, h₂, -⟩ := visit_eq fresh [] {} hne hnd (fun _ _ h => by cases h) hprofile
  exact Prod.ext h₁ h₂

/-! ### The normal form of a list -/

/-- A separator placed at the bottom. -/
def isBottomEntry (e : LaunchEntry) : Bool := e.isSeparator && e.placement = placementBottomW

/-- The entries under a parent id, the bottom separators behind the others. -/
def siblingsIn (entries : List LaunchEntry) (q : Option WString) : List LaunchEntry :=
  behind isBottomEntry (entries.filter fun e => e.parentId = q.getD [])

/-- The entries in pre-order of the forest their parent ids define. -/
def normalForm (entries : List LaunchEntry) : List LaunchEntry :=
  traverse LaunchEntry.id (siblingsIn entries) (entries.length + 1) none

/-- Choosing between two words twice is choosing once. -/
theorem ite_ite_word {a b x : WString} (h : b ≠ a) :
    (if (if x = a then a else b) = a then a else b) = if x = a then a else b := by
  by_cases hx : x = a
  · rw [if_pos hx, if_pos rfl]
  · rw [if_neg hx, if_neg h]

/-- Putting a default in place of the empty word twice is doing it once. -/
theorem ite_isEmpty_word (a x : WString) :
    (if (if x.isEmpty then a else x).isEmpty then a else if x.isEmpty then a else x) =
      if x.isEmpty then a else x := by
  by_cases hx : x.isEmpty = true
  · rw [if_pos hx]
    exact ite_self _
  · rw [if_neg hx, if_neg hx]

/-- The two placements are different. -/
theorem inline_ne_bottom : placementInlineW ≠ placementBottomW := by decide

theorem line_ne_space : styleLineW ≠ styleSpaceW := by decide

/-- A separator has one of the two placements. -/
theorem placement_rowNode {settings : List LaunchEntry} {m : ℕ} {r : Row}
    (hsep : r.entry.isSeparator = true) :
    (rowNode settings m r).placement =
      if r.entry.placement = placementBottomW then placementBottomW else placementInlineW := by
  rw [rowNode, if_pos hsep]
  exact ite_ite_word inline_ne_bottom

/-- The node of a row is a separator iff its entry is. -/
theorem isSeparator_rowNode (settings : List LaunchEntry) (m : ℕ) (r : Row) :
    (rowNode settings m r).isSeparator = r.entry.isSeparator := by
  rw [rowNode]
  cases r.entry.isSeparator <;> rfl

/-- And a bottom one iff its entry is. -/
theorem isBottomSeparator_rowNode (settings : List LaunchEntry) (m : ℕ) (r : Row) :
    (rowNode settings m r).isBottomSeparator = isBottomEntry r.entry := by
  rw [SessionNode.isBottomSeparator, isSeparator_rowNode, isBottomEntry]
  cases hsep : r.entry.isSeparator with
  | false => rfl
  | true =>
      rw [placement_rowNode hsep]
      by_cases hp : r.entry.placement = placementBottomW
      · rw [if_pos hp, hp]
      · rw [if_neg hp]
        simp [hp, inline_ne_bottom]

/-! ### Scopes and parent ids -/

/-- A list the editor keeps: well-formed with distinct ids that are not empty, of known kinds. -/
structure Savable (entries : List LaunchEntry) : Prop where
  tree : EntryTree.Tree (EntryTree.nodes entries)
  known : ∀ e ∈ entries, knownKind e = true

variable {entries : List LaunchEntry}

/-- All its entries are loaded. -/
theorem Savable.filter_eq (h : Savable entries) : entries.filter knownKind = entries :=
  List.filter_eq_self.mpr h.known

theorem Savable.map_entry (h : Savable entries) : (rows entries).map Row.entry = entries := by
  rw [rows, map_entry_rowsFrom, h.filter_eq]

/-- No two entries have the same id. -/
theorem Savable.ids_nodup (h : Savable entries) : (entries.map LaunchEntry.id).Nodup := by
  have := h.tree.distinct
  rwa [EntryTree.nodes, List.map_map] at this

/-- Nor do two rows. -/
theorem Savable.rows_ids_nodup (h : Savable entries) :
    ((rows entries).map fun r => r.entry.id).Nodup := by
  have := h.ids_nodup
  rwa [← h.map_entry, List.map_map] at this

/-- So a row is found by its id. -/
theorem Savable.eq_of_id (h : Savable entries) {r r' : Row} (hr : r ∈ rows entries)
    (hr' : r' ∈ rows entries) (hid : r.entry.id = r'.entry.id) : r = r' :=
  List.inj_on_of_nodup_map h.rows_ids_nodup hr hr' hid

/-- More rows are ranked behind the first. -/
theorem ranked_append {done pre post : List Row} {es : List LaunchEntry} (hd : Ranked done)
    (h : rowsFrom (done.map Row.entry) es = pre ++ post) : Ranked (pre.reverse ++ done) := by
  induction pre generalizing done es with
  | nil => exact hd
  | cons r pre ih =>
      obtain ⟨hr, es', hrest, -⟩ := ranked_rowsFrom hd h
      have := ih hr hrest
      simpa using this

/-- The rows of the loader are ranked. -/
theorem ranked_rows {pre post : List Row} (h : rows entries = pre ++ post) : Ranked pre.reverse := by
  have : Ranked (pre.reverse ++ []) := ranked_append trivial h
  rwa [List.append_nil] at this

/-- A session is found by its id, with the rank of its row. -/
theorem sessionNamed_row {done : List Row} (hd : Ranked done)
    (hnd : (done.map fun r => r.entry.id).Nodup) {r : Row} (hr : r ∈ done)
    (hsep : r.entry.isSeparator = false) :
    sessionNamed r.entry.id (done.map Row.entry) = some r.rank := by
  induction done with
  | nil => cases hr
  | cons r' older ih =>
      rw [List.map_cons, List.nodup_cons] at hnd
      rw [List.map_cons, sessionNamed]
      rcases List.mem_cons.mp hr with rfl | hr
      · rw [if_pos (by simp [hsep]), hd.1, rankIn, if_neg (by simp [hsep])]
      · have hne : ¬ r'.entry.id = r.entry.id := fun he =>
          hnd.1 (he ▸ List.mem_map_of_mem (f := fun r : Row => r.entry.id) hr)
        rw [if_neg (by simp [hne])]
        exact ih hd.2.2 hnd.2 hr

/-- The scope of a row is the session its parent id names. -/
theorem Savable.parent (h : Savable entries) {r : Row} (hr : r ∈ rows entries) :
    (r.entry.parentId = [] ∧ r.scope = none) ∨
      ∃ r₀ ∈ rows entries, r₀.entry.isSeparator = false ∧ r₀.entry.id = r.entry.parentId ∧
        r.entry.parentId ≠ [] ∧ r.scope = some r₀.rank := by
  obtain ⟨pre, post, hsplit⟩ := List.append_of_mem hr
  have hentries : entries = pre.map Row.entry ++ r.entry :: post.map Row.entry := by
    rw [← h.map_entry, hsplit, List.map_append, List.map_cons]
  have hscope : r.scope = parentIn (pre.reverse.map Row.entry) r.entry.parentId := by
    have hget : (rows entries)[pre.length]? = some r := by rw [hsplit]; simp
    have := scope_of_rowsFrom hget
    rw [h.filter_eq, List.append_nil] at this
    rw [this, List.map_reverse]
    congr 2
    rw [hentries]
    simp
  by_cases hp : r.entry.parentId = []
  · left
    refine ⟨hp, ?_⟩
    rw [hscope, hp]
    rfl
  · right
    have hnodes : EntryTree.nodes entries = EntryTree.nodes (pre.map Row.entry) ++
        EntryTree.toNode r.entry :: EntryTree.nodes (post.map Row.entry) := by
      rw [hentries, EntryTree.nodes, List.map_append, List.map_cons]
      rfl
    have hmem : EntryTree.toNode r.entry ∈ EntryTree.nodes entries := by
      rw [hnodes]
      exact List.mem_append_right _ List.mem_cons_self
    obtain ⟨m, hbefore, hid, hsep⟩ := h.tree.parent _ hmem hp
    have hm := hbefore.mem_of_split h.tree.nodup hnodes
    obtain ⟨e, he, rfl⟩ := List.mem_map.mp hm
    obtain ⟨r₀, hr₀, rfl⟩ := List.mem_map.mp he
    have hr₀' : r₀ ∈ rows entries := hsplit ▸ List.mem_append_left _ hr₀
    have hnd : (pre.reverse.map fun r => r.entry.id).Nodup := by
      have := h.rows_ids_nodup
      rw [hsplit, List.map_append] at this
      rw [List.map_reverse, List.nodup_reverse]
      exact this.of_append_left
    have hnamed := sessionNamed_row (ranked_rows hsplit) hnd (List.mem_reverse.mpr hr₀) hsep
    have hid' : r₀.entry.id = r.entry.parentId := hid
    refine ⟨r₀, hr₀', hsep, hid', hp, ?_⟩
    rw [hscope, parentIn, if_neg (by simpa using hp), ← hid', hnamed]
    rfl

/-- An entry is found by its id. -/
theorem Savable.find?_id (h : Savable entries) {e : LaunchEntry} (he : e ∈ entries) :
    (entries.find? fun e' => e'.id = e.id) = some e := by
  have hsome : (entries.find? fun e' => e'.id = e.id).isSome = true :=
    List.find?_isSome.mpr ⟨e, he, decide_eq_true rfl⟩
  obtain ⟨e', hfind⟩ := Option.isSome_iff_exists.mp hsome
  have hid : e'.id = e.id := by simpa using List.find?_some hfind
  rw [hfind, List.inj_on_of_nodup_map h.ids_nodup (List.mem_of_find?_eq_some hfind) he hid]

/-- The entry of a row is in the list. -/
theorem Savable.entry_mem (h : Savable entries) {r : Row} (hr : r ∈ rows entries) :
    r.entry ∈ entries := by
  have := List.mem_map_of_mem (f := Row.entry) hr
  rwa [h.map_entry] at this

theorem Savable.id_ne (h : Savable entries) {e : LaunchEntry} (he : e ∈ entries) : e.id ≠ [] :=
  h.tree.id_ne _ (List.mem_map_of_mem he)

/-- Ranks are below the number of sessions. -/
theorem Savable.rank_lt (h : Savable entries) {r : Row} (hr : r ∈ rows entries)
    (hsep : r.entry.isSeparator = false) : r.rank < sessionCount entries := by
  have hranked : Ranked (rows entries).reverse := ranked_rows (List.append_nil _).symm
  have := SessionTree.rank_lt hranked (List.mem_reverse.mpr hr) hsep
  rwa [List.map_reverse, h.map_entry, sessionCount, List.countP_reverse] at this

/-- A row is a root iff its entry names no parent. -/
theorem scope_eq_none_iff (h : Savable entries) {r : Row} (hr : r ∈ rows entries) :
    r.scope = none ↔ r.entry.parentId = [] := by
  rcases h.parent hr with ⟨hp, hscope⟩ | ⟨r₀, -, -, -, hp, hscope⟩
  · simp [hp, hscope]
  · simp [hp, hscope]

/-- The node has the id of its entry. -/
theorem entryId_rowNode (settings : List LaunchEntry) (m : ℕ) (r : Row) :
    (rowNode settings m r).entryId = r.entry.id := by
  rw [rowNode]
  cases r.entry.isSeparator <;> rfl

/-! ### The entries behind the live tree -/

/-- The entry a node was made from. -/
def origin (entries : List LaunchEntry) (n : SessionNode) : LaunchEntry :=
  (entries.find? fun e => e.id = n.entryId).getD {}

/-- And the entry is found from the node. -/
theorem origin_rowNode (h : Savable entries) (m : ℕ) {r : Row} (hr : r ∈ rows entries) :
    origin entries (rowNode entries m r) = r.entry := by
  rw [origin, entryId_rowNode, h.find?_id (h.entry_mem hr)]
  rfl

/-- The live tree shows the rows of a list. -/
abbrev ShowsEntries (entries : List LaunchEntry) (T : LiveTree) : Prop :=
  Shows entries (sessionCount entries) (rows entries) T

variable {T : LiveTree}

/-- Every node is that of a row. -/
theorem ShowsEntries.exists_row (hT : ShowsEntries entries T) {n : SessionNode}
    (hn : n ∈ preorder T) :
    ∃ r ∈ rows entries, rowNode entries (sessionCount entries) r = n :=
  List.mem_map.mp (hT.nodes.subset hn)

theorem ShowsEntries.eq_of_ident (hT : ShowsEntries entries T) {r r' : Row}
    (hr : r ∈ rows entries) (hr' : r' ∈ rows entries)
    (hident : rowIdent (sessionCount entries) r = rowIdent (sessionCount entries) r') : r = r' := by
  have hnd := hT.distinct
  rw [keys, (hT.nodes.map SessionNode.ident).nodup_iff, List.map_map] at hnd
  refine List.inj_on_of_nodup_map hnd hr hr' ?_
  simpa only [Function.comp_apply, rowNode_ident] using hident

/-- The scope of a row is the node its parent id names. -/
theorem ShowsEntries.scope_iff (hT : ShowsEntries entries T) (h : Savable entries) {r₀ r : Row}
    (hr₀ : r₀ ∈ rows entries) (hr : r ∈ rows entries) :
    r.scope = some (rowIdent (sessionCount entries) r₀) ↔ r.entry.parentId = r₀.entry.id := by
  have hid := h.id_ne (h.entry_mem hr₀)
  rcases h.parent hr with ⟨hp, hscope⟩ | ⟨r₁, hr₁, hsep, hid₁, -, hscope⟩
  · rw [hscope, hp]
    exact ⟨fun he => (by cases he), fun he => absurd he.symm hid⟩
  · have hrank : rowIdent (sessionCount entries) r₁ = r₁.rank := by rw [rowIdent, if_neg (by simp [hsep])]
    rw [hscope, ← hid₁, ← hrank, Option.some.injEq]
    constructor
    · intro he
      rw [hT.eq_of_ident hr₁ hr₀ he]
    · intro he
      rw [h.eq_of_id hr₁ hr₀ he]

/-- The scopes of the tree and the parent ids of the list. -/
inductive SameScope (T : LiveTree) : Option WString → Option ℕ → Prop
  | top : SameScope T none none
  | under {n : SessionNode} (hn : n ∈ preorder T) : SameScope T (some n.entryId) (some n.ident)

/-- A row is in a scope iff its entry names the parent. -/
theorem ShowsEntries.scope_iff_parentId (hT : ShowsEntries entries T) (h : Savable entries)
    {q : Option WString} {q' : Option ℕ} (hq : SameScope T q q') {r : Row}
    (hr : r ∈ rows entries) : r.scope = q' ↔ r.entry.parentId = q.getD [] := by
  cases hq with
  | top => exact scope_eq_none_iff h hr
  | under hn =>
      obtain ⟨r₀, hr₀, rfl⟩ := hT.exists_row hn
      rw [rowNode_ident, entryId_rowNode, Option.getD_some]
      exact hT.scope_iff h hr₀ hr

/-- **The normal form of the list is the live tree in pre-order.** -/
theorem ShowsEntries.normalForm_eq (hT : ShowsEntries entries T) (h : Savable entries) :
    normalForm entries = (preorder T).map (origin entries) := by
  have hlen : (preorder T).length ≤ entries.length := by
    rw [hT.nodes.length_eq, List.length_map, ← List.length_map Row.entry, h.map_entry]
  rw [preorder_eq_traverse hT.distinct hlen, normalForm]
  refine traverse_map (R := SameScope T) ?_ _ SameScope.top
  intro q q' hq
  have hfilter : (entries.filter fun e => e.parentId = q.getD []) =
      ((inScope q' (rows entries)).map (rowNode entries (sessionCount entries))).map
        (origin entries) := by
    rw [List.map_map]
    conv_lhs => rw [← h.map_entry, List.filter_map]
    have hrows : (rows entries).filter
        ((fun e => decide (e.parentId = q.getD [])) ∘ Row.entry) = inScope q' (rows entries) := by
      apply List.filter_congr
      intro r hr
      simp only [Function.comp_apply, hT.scope_iff_parentId h hq hr]
    rw [hrows]
    apply List.map_congr_left
    intro r hr
    exact (origin_rowNode h _ (List.mem_filter.mp hr).1).symm
  constructor
  · rw [siblingsIn, hfilter, hT.scopes q', behind_map]
    refine congrArg _ (behind_congr ?_)
    intro n hn
    obtain ⟨r, hr, rfl⟩ := List.mem_map.mp hn
    rw [origin_rowNode h _ (List.mem_filter.mp hr).1, isBottomSeparator_rowNode]
  · intro n hn
    have hmem := mem_preorder_of_mem_childrenIn hn
    obtain ⟨r, hr, rfl⟩ := hT.exists_row hmem
    have hid : (origin entries (rowNode entries (sessionCount entries) r)).id =
        (rowNode entries (sessionCount entries) r).entryId := by
      rw [origin_rowNode h _ hr, entryId_rowNode]
    rw [hid]
    exact SameScope.under hmem

/-! ### What is saved of an entry -/

/-- A separator after a launch and a capture. -/
def savedSeparator (e : LaunchEntry) : LaunchEntry :=
  { id := e.id
    parentId := e.parentId
    kind := kindSeparatorW
    separatorStyle := if e.separatorStyle = styleSpaceW then styleSpaceW else styleLineW
    height := normalizeSeparatorHeight e.height
    placement := if e.placement = placementBottomW then placementBottomW else placementInlineW
    name := e.name
    collapsed := e.collapsed && !e.name.isEmpty }

/-- A session after a launch and a capture; the profile and the directory are those of its tab. -/
def savedSession (profile directory : WString) (e : LaunchEntry) : LaunchEntry :=
  { id := e.id
    parentId := e.parentId
    profile := profile
    directory := directory
    name := e.name
    icon := e.icon
    color := e.color
    colorTarget := if e.colorTarget.isEmpty then L "both" else e.colorTarget
    hoist := e.hoist }

/-- An entry after a launch and a capture. -/
def savedEntry (profile directory : WString) (e : LaunchEntry) : LaunchEntry :=
  if e.isSeparator then savedSeparator e else savedSession profile directory e

/-- A saved entry is a separator iff it was one. -/
theorem isSeparator_savedEntry (profile directory : WString) (e : LaunchEntry) :
    (savedEntry profile directory e).isSeparator = e.isSeparator := by
  rw [savedEntry]
  cases e.isSeparator <;> rfl

/-- It has the same place. -/
theorem toNode_savedEntry (profile directory : WString) (e : LaunchEntry) :
    EntryTree.toNode (savedEntry profile directory e) = EntryTree.toNode e := by
  rw [EntryTree.toNode, isSeparator_savedEntry, savedEntry, EntryTree.toNode]
  cases e.isSeparator <;> rfl

/-- And a kind that is loaded. -/
theorem knownKind_savedEntry (profile directory : WString) (e : LaunchEntry) :
    knownKind (savedEntry profile directory e) = true := by
  rw [savedEntry]
  cases e.isSeparator <;> rfl

/-- Saving again, in the same profile and directory, changes nothing. -/
theorem savedEntry_savedEntry (profile directory : WString) (e : LaunchEntry) :
    savedEntry profile directory (savedEntry profile directory e) =
      savedEntry profile directory e := by
  have hsep := isSeparator_savedEntry profile directory e
  rw [savedEntry, hsep]
  cases he : e.isSeparator with
  | true =>
      rw [if_pos rfl, savedEntry, if_pos he]
      simp only [savedSeparator, normalizeSeparatorHeight_idem, Bool.and_assoc, Bool.and_self]
      congr 1
      · exact ite_ite_word line_ne_space
      · exact ite_ite_word inline_ne_bottom
  | false =>
      rw [if_neg (by simp), savedEntry, if_neg (by simp [he])]
      simp only [savedSession]
      congr 1
      exact ite_isEmpty_word _ _

/-- The entry of the node of a row. -/
theorem entryOf_rowNode (h : Savable entries) (live : LiveTabs) (m : ℕ) {r : Row}
    (hr : r ∈ rows entries) :
    entryOf live (rowNode entries m r) r.entry.parentId =
      savedEntry (((rowNode entries m r).tabRef.bind live.focusedProfile).getD [])
        (((rowNode entries m r).tabRef.bind live.workingDirectory).getD []) r.entry := by
  rw [entryOf, isSeparator_rowNode, savedEntry]
  cases hsep : r.entry.isSeparator with
  | true =>
      rw [if_pos rfl, if_pos rfl, rowNode, if_pos hsep]
      have hpos := normalizeSeparatorHeight_pos r.entry.height
      simp only [separatorEntry, createSeparatorNode, startupSeparator, savedSeparator, hpos,
        if_true, Bool.and_assoc, Bool.and_self]
      congr 1
      · exact ite_ite_word line_ne_space
      · exact ite_ite_word inline_ne_bottom
  | false =>
      have he := h.entry_mem hr
      have hhoist : hoistOverrideForEntry entries r.entry.id = r.entry.hoist := by
        have hne : ¬ r.entry.id.isEmpty = true := by simpa using h.id_ne he
        rw [hoistOverrideForEntry, if_neg hne, h.find?_id he]
        rfl
      rw [if_neg (by simp), if_neg (by simp), rowNode, if_neg (by simp [hsep])]
      simp only [sessionEntry, createSessionNode, savedSession, hhoist]

/-! ### The capture of a tree that shows a list -/

/-- The entry of a node of the live tree. -/
def captured (live : LiveTabs) (entries : List LaunchEntry) (n : SessionNode) : LaunchEntry :=
  savedEntry ((n.tabRef.bind live.focusedProfile).getD [])
    ((n.tabRef.bind live.workingDirectory).getD []) (origin entries n)

/-- Where a node of the live tree hangs. -/
theorem ShowsEntries.row_of_outline (hT : ShowsEntries entries T) {x : SessionNode × List SessionNode}
    (hx : x ∈ outline [] T) :
    ∃ r ∈ rows entries, rowNode entries (sessionCount entries) r = x.1 ∧
      r.scope = x.2.head?.map SessionNode.ident := by
  have hmem : x.1 ∈ childrenIn SessionNode.ident (x.2.head?.map SessionNode.ident) none T := by
    rw [childrenIn_eq_filter]
    exact List.mem_map_of_mem (List.mem_filter.mpr ⟨hx, decide_eq_true rfl⟩)
  rw [hT.scopes] at hmem
  obtain ⟨r, hr, hnode⟩ := List.mem_map.mp ((behind_perm _ _).subset hmem)
  obtain ⟨hr, hscope⟩ := List.mem_filter.mp hr
  exact ⟨r, hr, hnode, of_decide_eq_true hscope⟩

/-- The parent of a node is the session its entry names. -/
theorem ShowsEntries.parent_of_outline (hT : ShowsEntries entries T) (h : Savable entries)
    {x : SessionNode × List SessionNode} (hx : x ∈ outline [] T) :
    (x.2 = [] ∧ (origin entries x.1).parentId = []) ∨
      ∃ a ∈ x.2, a ∈ preorder T ∧ x.2.head? = some a ∧ a.isSeparator = false ∧
        a.entryId = (origin entries x.1).parentId := by
  obtain ⟨r, hr, hnode, hscope⟩ := hT.row_of_outline hx
  rw [← hnode, origin_rowNode h _ hr]
  cases hanc : x.2 with
  | nil =>
      left
      rw [hanc] at hscope
      exact ⟨rfl, (scope_eq_none_iff h hr).mp hscope⟩
  | cons a anc =>
      right
      have ha : a ∈ x.2 := hanc ▸ List.mem_cons_self
      have hmem : a ∈ preorder T := by
        rcases before_of_mem_outline hx ha with h | h
        · cases h
        · exact h.mem_left
      obtain ⟨r₀, hr₀, rfl⟩ := hT.exists_row hmem
      rw [hanc, List.head?_cons, Option.map_some, rowNode_ident, hT.scope_iff h hr₀ hr] at hscope
      refine ⟨_, List.mem_cons_self, hmem, rfl, ?_, ?_⟩
      · rcases h.parent hr with ⟨hp, -⟩ | ⟨r₁, hr₁, hsep, hid, -, -⟩
        · exact absurd (hscope.symm.trans hp) (h.id_ne (h.entry_mem hr₀))
        · rw [isSeparator_rowNode, ← h.eq_of_id hr₁ hr₀ (hid.trans hscope), hsep]
      · rw [entryId_rowNode, hscope]

/-- A node is captured under the parent of its entry. -/
theorem ShowsEntries.parentIdOf_eq (hT : ShowsEntries entries T) (h : Savable entries)
    {x : SessionNode × List SessionNode} (hx : x ∈ outline [] T) :
    parentIdOf x.2 = (origin entries x.1).parentId := by
  rcases hT.parent_of_outline h hx with ⟨hanc, hp⟩ | ⟨a, -, -, hhead, hsep, hid⟩
  · rw [hanc, hp]
    rfl
  · obtain ⟨anc, hanc⟩ := List.head?_eq_some_iff.mp hhead
    rw [hanc, parentIdOf_cons, hsep, if_neg (by simp), hid]

/-- The tree shows the ids of all rows. -/
theorem ShowsEntries.map_entryId (hT : ShowsEntries entries T) :
    ((preorder T).map SessionNode.entryId).Perm ((rows entries).map fun r => r.entry.id) := by
  refine (hT.nodes.map SessionNode.entryId).trans ?_
  rw [List.map_map]
  simp only [Function.comp_def, entryId_rowNode]
  exact List.Perm.refl _

/-- **The capture writes one entry per node, in pre-order, and keeps every id.** -/
theorem ShowsEntries.capture_eq (hT : ShowsEntries entries T) (h : Savable entries)
    {live : LiveTabs} (fresh : ℕ → WString)
    (hprofile : ∀ n ∈ preorder T, n.isSeparator = false →
      (n.tabRef.bind live.focusedProfile).isSome = true) :
    captureLiveSessionEntries live fresh T = (T, (preorder T).map (captured live entries)) := by
  have hne : ∀ n ∈ preorder T, n.entryId ≠ [] := by
    intro n hn
    obtain ⟨r, hr, rfl⟩ := hT.exists_row hn
    rw [entryId_rowNode]
    exact h.id_ne (h.entry_mem hr)
  have hnd : ((preorder T).map SessionNode.entryId).Nodup :=
    hT.map_entryId.nodup_iff.mpr h.rows_ids_nodup
  rw [captureLiveSessionEntries_eq fresh hne hnd hprofile, preorder_eq_map [], List.map_map]
  refine congrArg _ (List.map_congr_left ?_)
  intro x hx
  obtain ⟨r, hr, hnode, -⟩ := hT.row_of_outline hx
  rw [hT.parentIdOf_eq h hx, Function.comp_apply, captured, ← hnode, origin_rowNode h _ hr]
  exact entryOf_rowNode h live _ hr

/-- The nodes of the capture, without what the tabs say. -/
theorem ShowsEntries.nodes_captured (hT : ShowsEntries entries T) (h : Savable entries)
    (live : LiveTabs) :
    EntryTree.nodes ((preorder T).map (captured live entries)) =
      EntryTree.nodes (normalForm entries) := by
  rw [hT.normalForm_eq h, EntryTree.nodes, EntryTree.nodes, List.map_map, List.map_map]
  apply List.map_congr_left
  intro n _
  exact toNode_savedEntry _ _ _

/-- The normal form is a permutation of the list. -/
theorem ShowsEntries.normalForm_perm (hT : ShowsEntries entries T) (h : Savable entries) :
    (normalForm entries).Perm entries := by
  rw [hT.normalForm_eq h]
  refine (hT.nodes.map (origin entries)).trans ?_
  rw [List.map_map]
  have : (rows entries).map (origin entries ∘ rowNode entries (sessionCount entries)) =
      (rows entries).map Row.entry := by
    apply List.map_congr_left
    intro r hr
    exact origin_rowNode h _ hr
  rw [this, h.map_entry]

/-- **The normal form is well-formed.** -/
theorem ShowsEntries.tree_normalForm (hT : ShowsEntries entries T) (h : Savable entries) :
    EntryTree.Tree (EntryTree.nodes (normalForm entries)) where
  id_ne := by
    intro n hn
    exact h.tree.id_ne n (((hT.normalForm_perm h).map _).subset hn)
  distinct := (((hT.normalForm_perm h).map EntryTree.toNode).map _).nodup_iff.mpr h.tree.distinct
  parent := by
    intro n hn hp
    rw [hT.normalForm_eq h, EntryTree.nodes, List.map_map] at hn ⊢
    obtain ⟨k, hk, rfl⟩ := List.mem_map.mp hn
    rw [preorder_eq_map []] at hk
    obtain ⟨x, hx, rfl⟩ := List.mem_map.mp hk
    rcases hT.parent_of_outline h hx with ⟨-, hnone⟩ | ⟨a, ha, hmem, -, hsep, hid⟩
    · exact absurd hnone hp
    · obtain ⟨r₀, hr₀, rfl⟩ := hT.exists_row hmem
      rw [isSeparator_rowNode] at hsep
      rw [entryId_rowNode] at hid
      rcases before_of_mem_outline hx ha with hup | hbefore
      · cases hup
      · refine ⟨_, hbefore.map _, ?_, ?_⟩
        · rw [Function.comp_apply, origin_rowNode h _ hr₀]
          exact hid
        · rw [Function.comp_apply, origin_rowNode h _ hr₀]
          exact hsep

/-- What is captured can be saved again. -/
theorem ShowsEntries.savable_captured (hT : ShowsEntries entries T) (h : Savable entries)
    (live : LiveTabs) : Savable ((preorder T).map (captured live entries)) where
  tree := by
    rw [hT.nodes_captured h live]
    exact hT.tree_normalForm h
  known := by
    intro e he
    obtain ⟨n, -, rfl⟩ := List.mem_map.mp he
    exact knownKind_savedEntry _ _ _

/-- A saved separator keeps its placement. -/
theorem isBottomEntry_savedEntry (profile directory : WString) (e : LaunchEntry) :
    isBottomEntry (savedEntry profile directory e) = isBottomEntry e := by
  rw [isBottomEntry, isSeparator_savedEntry, isBottomEntry, savedEntry]
  cases e.isSeparator with
  | false => rfl
  | true =>
      rw [if_pos rfl, savedSeparator]
      by_cases hp : e.placement = placementBottomW
      · simp [hp]
      · simp [hp, inline_ne_bottom]

theorem ShowsEntries.isBottomEntry_captured (hT : ShowsEntries entries T) (h : Savable entries)
    (live : LiveTabs) {n : SessionNode} (hn : n ∈ preorder T) :
    isBottomEntry (captured live entries n) = n.isBottomSeparator := by
  obtain ⟨r, hr, rfl⟩ := hT.exists_row hn
  rw [captured, isBottomEntry_savedEntry, origin_rowNode h _ hr, isBottomSeparator_rowNode]

/-- **The capture is in normal form.** -/
theorem ShowsEntries.normalForm_captured (hT : ShowsEntries entries T) (h : Savable entries)
    (live : LiveTabs) :
    normalForm ((preorder T).map (captured live entries)) =
      (preorder T).map (captured live entries) := by
  conv_rhs => rw [preorder_eq_traverse hT.distinct (le_refl _)]
  rw [normalForm, List.length_map]
  refine traverse_map (R := SameScope T) ?_ _ SameScope.top
  intro q q' hq
  have hfilter : (((preorder T).map (captured live entries)).filter fun e => e.parentId = q.getD []) =
      (childrenIn SessionNode.ident q' none T).map (captured live entries) := by
    rw [childrenIn_eq_filter, preorder_eq_map [], List.filter_map, List.filter_map]
    refine congrArg _ (congrArg _ (List.filter_congr ?_))
    intro x hx
    obtain ⟨r, hr, hnode, hscope⟩ := hT.row_of_outline hx
    have hparent : (captured live entries x.1).parentId = r.entry.parentId := by
      rw [← hnode, captured, ← origin_rowNode h (sessionCount entries) hr]
      exact congrArg EntryTree.Node.parentId (toNode_savedEntry _ _ _)
    simp only [Function.comp_apply, hparent, ← hT.scope_iff_parentId h hq hr, hscope]
  have hmem : ∀ n ∈ childrenIn SessionNode.ident q' none T, n ∈ preorder T := fun n hn =>
    mem_preorder_of_mem_childrenIn hn
  constructor
  · rw [siblingsIn, hfilter, behind_map,
      behind_congr fun n hn => hT.isBottomEntry_captured h live (hmem n hn), hT.scopes q',
      behind_behind]
  · intro n hn
    have hid : (captured live entries n).id = n.entryId := by
      obtain ⟨r, hr, rfl⟩ := hT.exists_row (hmem n hn)
      rw [entryId_rowNode, captured, ← origin_rowNode h (sessionCount entries) hr]
      exact congrArg EntryTree.Node.id (toNode_savedEntry _ _ _)
    rw [hid]
    exact SameScope.under (hmem n hn)

/-! ### Saving after a launch -/

/-- A launch on a list of entries, and what the capture then saves. -/
def launchAndCapture (live : LiveTabs) (fresh : ℕ → WString) (host : Host)
    (entries : List LaunchEntry) (outcome : ℕ → Option ℕ) : List LaunchEntry :=
  (captureLiveSessionEntries live fresh (Page.startup host entries outcome).tree).2

/-- Every session of the tree has a focused profile. -/
def Focused (live : LiveTabs) (T : LiveTree) : Prop :=
  ∀ n ∈ preorder T, n.isSeparator = false → (n.tabRef.bind live.focusedProfile).isSome = true

/-- Every tab is in the profile and the directory of the entry it was opened for. -/
def Reopened (live : LiveTabs) (entries : List LaunchEntry) (T : LiveTree) : Prop :=
  ∀ n ∈ preorder T, n.isSeparator = false →
    n.tabRef.bind live.focusedProfile = some (origin entries n).profile ∧
      (n.tabRef.bind live.workingDirectory).getD [] = (origin entries n).directory

/-- Each of its tabs has a focused pane. -/
theorem Reopened.focused {live : LiveTabs} (h : Reopened live entries T) : Focused live T :=
  fun n hn hsep => by rw [(h n hn hsep).1]; rfl

/-- An entry that was saved is saved again unchanged. -/
theorem savedEntry_eq_self {profile directory profile' directory' : WString} {e e' : LaunchEntry}
    (he : e' = savedEntry profile directory e)
    (hs : e'.isSeparator = false → profile' = e'.profile ∧ directory' = e'.directory) :
    savedEntry profile' directory' e' = e' := by
  have hself : savedEntry profile directory e' = e' := by rw [he, savedEntry_savedEntry]
  have hsep := isSeparator_savedEntry profile directory e
  rw [← he] at hsep
  cases hc : e'.isSeparator with
  | true =>
      rw [savedEntry, if_pos hc] at hself ⊢
      exact hself
  | false =>
      have hfields : e'.profile = profile ∧ e'.directory = directory := by
        rw [hc] at hsep
        rw [he, savedEntry, if_neg (by simp [← hsep])]
        exact ⟨rfl, rfl⟩
      rw [(hs hc).1, (hs hc).2, hfields.1, hfields.2]
      exact hself

/-- The startup tree shows the entries. -/
theorem showsEntries_startup {host : Host} {dp : Profile} {outcome : ℕ → Option ℕ}
    (hd : host.defaultProfile = some dp) (h : Savable entries)
    (hs : ∃ e ∈ entries, e.isSeparator = false) (hall : ∀ i, (outcome i).isSome = true) :
    ShowsEntries entries (Page.startup host entries outcome).tree := by
  obtain ⟨e, he, hsep⟩ := hs
  have := shows_startup hd ⟨e, he, h.known e he, hsep⟩ hall
  rwa [h.filter_eq] at this

/-- There is a session among the captured entries. -/
theorem ShowsEntries.exists_session (hT : ShowsEntries entries T) (h : Savable entries)
    (live : LiveTabs) (hs : ∃ e ∈ entries, e.isSeparator = false) :
    ∃ e ∈ (preorder T).map (captured live entries), e.isSeparator = false := by
  obtain ⟨e, he, hsep⟩ := hs
  have hmem := (hT.normalForm_perm h).symm.subset he
  rw [hT.normalForm_eq h] at hmem
  obtain ⟨n, hn, rfl⟩ := List.mem_map.mp hmem
  refine ⟨_, List.mem_map_of_mem hn, ?_⟩
  rw [captured, isSeparator_savedEntry, hsep]

/-- A list in normal form whose entries are as saved comes back as it is. -/
theorem ShowsEntries.capture_self (hT : ShowsEntries entries T) (h : Savable entries)
    {live : LiveTabs} (hlive : Reopened live entries T) (hnormal : normalForm entries = entries)
    (hsaved : ∀ e' ∈ entries, ∃ profile directory e, e' = savedEntry profile directory e) :
    (preorder T).map (captured live entries) = entries := by
  conv_rhs => rw [← hnormal, hT.normalForm_eq h]
  apply List.map_congr_left
  intro n hn
  obtain ⟨r, hr, rfl⟩ := hT.exists_row hn
  have hlive' := hlive _ hn
  rw [isSeparator_rowNode, origin_rowNode h _ hr] at hlive'
  rw [captured, origin_rowNode h _ hr]
  obtain ⟨profile, directory, e, he⟩ := hsaved _ (h.entry_mem hr)
  apply savedEntry_eq_self he
  intro hsep
  obtain ⟨hp, hdir⟩ := hlive' hsep
  rw [hp, hdir]
  exact ⟨rfl, rfl⟩

/-- **Save as startup, after a launch.** The entries come back in pre-order of the forest their
parent ids define; the result is well-formed, and a launch on it and a capture return it. -/
theorem capture_startup {host : Host} {dp : Profile} {outcome : ℕ → Option ℕ} {live : LiveTabs}
    (fresh : ℕ → WString) (hwf : EntryTree.isWellFormed (EntryTree.nodes entries) = true)
    (hnd : (EntryTree.ids entries).Nodup) (hne : [] ∉ EntryTree.ids entries)
    (hknown : ∀ e ∈ entries, knownKind e = true) (hs : ∃ e ∈ entries, e.isSeparator = false)
    (hd : host.defaultProfile = some dp) (hall : ∀ i, (outcome i).isSome = true)
    (hlive : Focused live (Page.startup host entries outcome).tree) :
    (normalForm entries).Perm entries ∧
      List.Forall₂ (fun e e' => ∃ profile directory, e' = savedEntry profile directory e)
        (normalForm entries) (launchAndCapture live fresh host entries outcome) ∧
      EntryTree.isWellFormed
        (EntryTree.nodes (launchAndCapture live fresh host entries outcome)) = true ∧
      ∀ (host' : Host) (dp' : Profile) (outcome' : ℕ → Option ℕ) (live' : LiveTabs)
        (fresh' : ℕ → WString), host'.defaultProfile = some dp' →
        (∀ i, (outcome' i).isSome = true) →
        Reopened live' (launchAndCapture live fresh host entries outcome)
          (Page.startup host' (launchAndCapture live fresh host entries outcome) outcome').tree →
        launchAndCapture live' fresh' host' (launchAndCapture live fresh host entries outcome)
          outcome' = launchAndCapture live fresh host entries outcome := by
  have h : Savable entries := by
    refine ⟨(EntryTree.tree_iff _).mpr ⟨hwf, ?_, ?_⟩, hknown⟩
    · rwa [EntryTree.map_id_nodes]
    · rwa [EntryTree.map_id_nodes]
  have hT := showsEntries_startup hd h hs hall
  have hout : launchAndCapture live fresh host entries outcome =
      (preorder (Page.startup host entries outcome).tree).map (captured live entries) := by
    rw [launchAndCapture, hT.capture_eq h fresh hlive]
  have hsave := hT.savable_captured h live
  have hs' := hT.exists_session h live hs
  have hnormal := hT.normalForm_captured h live
  have hsaved : ∀ e' ∈ (preorder (Page.startup host entries outcome).tree).map
      (captured live entries), ∃ profile directory e, e' = savedEntry profile directory e := by
    intro e' he'
    obtain ⟨n, -, rfl⟩ := List.mem_map.mp he'
    exact ⟨_, _, _, rfl⟩
  rw [hout]
  refine ⟨hT.normalForm_perm h, ?_, ((EntryTree.tree_iff _).mp hsave.tree).1, ?_⟩
  · rw [hT.normalForm_eq h, List.forall₂_map_left_iff, List.forall₂_map_right_iff]
    exact List.forall₂_same.mpr fun n _ => ⟨_, _, rfl⟩
  · intro host' dp' outcome' live' fresh' hd' hall' hlive'
    have hT' := showsEntries_startup hd' hsave hs' hall'
    rw [launchAndCapture, hT'.capture_eq hsave fresh' hlive'.focused]
    exact hT'.capture_self hsave hlive' hnormal hsaved

/-- Every tab is in profile `p`, without a directory. -/
def plainTabs : LiveTabs where
  focusedProfile := fun _ => some (L "p")
  workingDirectory := fun _ => none

/-- A list out of pre-order: the bottom separator is in front, and a child behind the next root. -/
def shuffledEntries : List LaunchEntry :=
  [{ id := L "s", kind := kindSeparatorW, placement := placementBottomW }, { id := L "a" },
    { id := L "b" }, { id := L "c", parentId := L "a" }]

/-- In the witness each tab has a focused pane. -/
theorem focused_shuffledEntries :
    Focused plainTabs (Page.startup plainHost shuffledEntries fun _ => some 0).tree := by
  unfold Focused
  decide

theorem capture_startup_shuffledEntries :
    Focused plainTabs (Page.startup plainHost shuffledEntries fun _ => some 0).tree ∧
      List.Forall₂ (fun e e' => ∃ profile directory, e' = savedEntry profile directory e)
        (normalForm shuffledEntries)
        (launchAndCapture plainTabs (fun _ => []) plainHost shuffledEntries fun _ => some 0) ∧
      (normalForm shuffledEntries).map LaunchEntry.id = [L "a", L "c", L "b", L "s"] ∧
      launchAndCapture plainTabs (fun _ => []) plainHost
          (launchAndCapture plainTabs (fun _ => []) plainHost shuffledEntries fun _ => some 0)
          (fun _ => some 0) =
        launchAndCapture plainTabs (fun _ => []) plainHost shuffledEntries fun _ => some 0 := by
  have h := capture_startup (fun _ => []) (by decide) (by decide)
    (by decide) (by decide) (by decide) rfl (fun _ => rfl)
    focused_shuffledEntries
  refine ⟨focused_shuffledEntries, h.2.1, by decide, ?_⟩
  refine h.2.2.2 plainHost _ _ plainTabs _ rfl (fun _ => rfl) ?_
  unfold Reopened
  decide

/-- A separator that leaves its style out. -/
def unstyledSeparator : List LaunchEntry :=
  [{ id := L "a" }, { id := L "s", kind := kindSeparatorW }]

/-- The capture writes the default style out. -/
theorem captured_style_differs :
    EntryTree.isWellFormed (EntryTree.nodes unstyledSeparator) = true ∧
      (EntryTree.ids unstyledSeparator).Nodup ∧ [] ∉ EntryTree.ids unstyledSeparator ∧
      (∀ e ∈ unstyledSeparator, knownKind e = true) ∧
      (∃ e ∈ unstyledSeparator, e.isSeparator = false) ∧
      Focused plainTabs (Page.startup plainHost unstyledSeparator fun _ => some 0).tree ∧
      (launchAndCapture plainTabs (fun _ => []) plainHost unstyledSeparator fun _ => some 0).map
          LaunchEntry.separatorStyle ≠
        (normalForm unstyledSeparator).map LaunchEntry.separatorStyle := by
  unfold Focused
  decide

end Axan.SessionTree
