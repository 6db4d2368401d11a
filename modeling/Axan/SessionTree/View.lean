import Axan.Base.Scope
import Axan.SessionTree.Load

/-!
# The live session tree: `AxanSessionTreeView.cpp`

The sidebar shows a forest of nodes, one per tab and one per separator. `Page` is what the code
keeps of it: the tabs, the tree, and the startup metadata that is handed to the tabs as they
appear.

* `SessionNode` — a `TreeViewNode` with its view-model. Nodes and tabs are numbered in the order
  they are created; the number stands for the object's identity.
* `pruneRemovedSessionNodes`, `addMissingSessionNodes`, `realizeStartupSeparators`,
  `sinkBottomSeparators` — the passes of `onSessionsCollectionChanged`.
* `processStartupActions` — the startup loop; an action opens a tab at some position or none.

A weak reference to a node resolves while the node is in the tree. What only draws the row
(icon path, label text, brushes, hidden sections) is left out.
-/

namespace Axan.SessionTree

open Axan.Base Axan.Base.Forest Axan.LaunchEntryWire

/-! ### Nodes -/

/-- Source: `TreeViewNode` and `SessionNodeViewModel` -/
structure SessionNode where
  /-- The identity of the node. -/
  ident : ℕ
  /-- The tab the node stands for; `none` when the reference is null or expired. -/
  tabRef : Option ℕ := none
  entryId : WString := []
  labelTemplate : WString := []
  iconOverride : WString := []
  iconColor : WString := []
  colorTarget : WString := []
  hoistOverride : WString := []
  isSeparator : Bool := false
  separatorStyle : WString := []
  separatorHeight : Double := .finite 1
  placement : WString := []
  separatorLabel : WString := []
  isCollapsed : Bool := false
  deriving DecidableEq, Repr

/-- Source: `_nodeIsBottomSeparator` -/
def SessionNode.isBottomSeparator (n : SessionNode) : Bool :=
  n.isSeparator && n.placement = placementBottomW

/-- Source: `_HoistOverrideForEntry` -/
def hoistOverrideForEntry (settings : List LaunchEntry) (entryId : WString) : WString :=
  if entryId.isEmpty then []
  else ((settings.find? fun e => e.id = entryId).map LaunchEntry.hoist).getD []

/-- Source: `_CreateSessionNode`, with `ApplyAppearance` -/
def createSessionNode (settings : List LaunchEntry) (ident tab : ℕ)
    (labelTemplate iconOverride iconColor colorTarget entryId : WString) : SessionNode :=
  { ident := ident
    tabRef := some tab
    entryId := entryId
    labelTemplate := labelTemplate
    iconOverride := iconOverride
    iconColor := iconColor
    colorTarget := if colorTarget.isEmpty then L "both" else colorTarget
    hoistOverride := hoistOverrideForEntry settings entryId }

/-- Source: `_CreateSeparatorNode`, with `ConfigureSeparator`, `SetSeparatorLabel` and
`SetCollapsed` -/
def createSeparatorNode (ident : ℕ) (entryId style : WString) (height : Double)
    (placement label : WString) (collapsed : Bool) : SessionNode :=
  { ident := ident
    entryId := entryId
    isSeparator := true
    separatorStyle := if style = L "space" then L "space" else L "line"
    separatorHeight := if height.gt (.finite 0) then height else .finite 1
    placement := if placement = L "bottom" then L "bottom" else L "inline"
    separatorLabel := label
    isCollapsed := collapsed && !label.isEmpty }

/-- The nodes of the sidebar: `SessionTree().RootNodes()`. -/
abbrev LiveTree := Forest SessionNode

/-- The number of nodes in the container of a scope. Source: `IVector::Size` -/
def sizeIn (q : Option ℕ) (tree : LiveTree) : ℕ :=
  ((container SessionNode.ident q tree).elim [] roots).length

/-- Source: `IVector::IndexOf` -/
def indexIn (q : Option ℕ) (ident : ℕ) (tree : LiveTree) : Option ℕ :=
  ((container SessionNode.ident q tree).elim [] roots).findIdx? fun n => n.ident = ident

/-- The bottom separators of one container behind the other nodes, unless they already are its
trailing run. -/
def sinkContainer (tree : LiveTree) : LiveTree :=
  let snapshot := roots tree
  let bottoms := snapshot.filter SessionNode.isBottomSeparator
  if bottoms.isEmpty || snapshot.length ≤ bottoms.length then tree
  else if (snapshot.drop (snapshot.length - bottoms.length)).map SessionNode.ident =
      bottoms.map SessionNode.ident then tree
  else
    -- every bottom separator leaves the container, then all are appended
    let kept := (trees tree).filter fun t => t.1.ident ∉ bottoms.map SessionNode.ident
    ofTrees (kept ++ (trees tree).filter fun t => t.1.isBottomSeparator)

/-- `_sinkBottomSeparatorsIn` in the children of every node of a container. -/
def sinkBelow : LiveTree → LiveTree
  | nil => nil
  | node a c s => node a (sinkContainer (sinkBelow c)) (sinkBelow s)

/-- Source: `_sinkBottomSeparatorsIn` -/
def sinkBottomSeparatorsIn (tree : LiveTree) : LiveTree := sinkContainer (sinkBelow tree)

/-! ### The page -/

/-- The state of the page the tree depends on. -/
structure Page where
  /-- `GlobalSettings().StartupSessions()` -/
  settings : List LaunchEntry
  tabs : List ℕ := []
  tree : LiveTree := nil
  /-- The tabs and the nodes created so far. -/
  tabsCreated : ℕ := 0
  nodesCreated : ℕ := 0
  pendingStartupLabelTemplates : List WString := []
  pendingStartupParents : List (Option ℕ) := []
  pendingStartupIconOverrides : List WString := []
  pendingStartupIconColors : List WString := []
  pendingStartupColorTargets : List WString := []
  pendingStartupEntryIds : List WString := []
  startupNodeCursor : ℕ := 0
  startupNodesBySpawnIndex : List (Option ℕ) := []
  pendingStartupSeparators : List StartupSeparator := []
  startupSeparatorsRealized : Bool := false
  suppressSessionTreeReconcile : Bool := false

namespace Page

/-- Source: `SetStartupNodeMetadata` -/
def setStartupNodeMetadata (p : Page) (templates : List WString) (parentIndices : List (Option ℕ))
    (iconOverrides iconColors colorTargets entryIds : List WString) : Page :=
  { p with
    pendingStartupLabelTemplates := templates
    pendingStartupParents := parentIndices
    pendingStartupIconOverrides := iconOverrides
    pendingStartupIconColors := iconColors
    pendingStartupColorTargets := colorTargets
    pendingStartupEntryIds := entryIds
    startupNodeCursor := 0
    startupNodesBySpawnIndex := List.replicate templates.length none }

/-- Source: `SetStartupSeparators` -/
def setStartupSeparators (p : Page) (separators : List StartupSeparator) : Page :=
  { p with
    pendingStartupSeparators := separators
    startupSeparatorsRealized := false }

/-- The node with a spawn index, while it is in the tree. -/
def nodeBySpawnIndex (p : Page) (i : Option ℕ) : Option ℕ :=
  match i with
  | none => none
  | some i => (p.startupNodesBySpawnIndex[i]?.join).filter (· ∈ keys SessionNode.ident p.tree)

/-- Source: `_FindNodeForTab` -/
def hasNodeForTab (p : Page) (tab : ℕ) : Bool := (preorder p.tree).any fun n => n.tabRef = some tab

/-- One round of `_AddMissingSessionNodes`. -/
def addMissingSessionNode (p : Page) (tab : ℕ) : Page :=
  if p.hasNodeForTab tab then p
  else if p.startupNodeCursor < p.pendingStartupLabelTemplates.length then
    let spawnIndex := p.startupNodeCursor
    let node := createSessionNode p.settings p.nodesCreated tab
      (p.pendingStartupLabelTemplates[spawnIndex]?.getD [])
      (p.pendingStartupIconOverrides[spawnIndex]?.getD [])
      (p.pendingStartupIconColors[spawnIndex]?.getD [])
      (p.pendingStartupColorTargets[spawnIndex]?.getD [])
      (p.pendingStartupEntryIds[spawnIndex]?.getD [])
    let parentNode := p.nodeBySpawnIndex p.pendingStartupParents[spawnIndex]?.join
    { p with
      tree := insertIn SessionNode.ident parentNode (sizeIn parentNode p.tree) node p.tree
      nodesCreated := p.nodesCreated + 1
      startupNodeCursor := spawnIndex + 1
      startupNodesBySpawnIndex :=
        p.startupNodesBySpawnIndex.set spawnIndex (some p.nodesCreated) }
  else
    let node := createSessionNode p.settings p.nodesCreated tab [] [] [] [] []
    { p with
      tree := insertIn SessionNode.ident none (sizeIn none p.tree) node p.tree
      nodesCreated := p.nodesCreated + 1 }

/-- Source: `_AddMissingSessionNodes` -/
def addMissingSessionNodes (p : Page) : Page := p.tabs.foldl addMissingSessionNode p

/-- Source: `_RemoveNodeSelfHealing` -/
def removeNodeSelfHealing (p : Page) (ident : ℕ) : Page :=
  { p with tree := promote SessionNode.ident ident p.tree }

/-- A session node whose tab is gone. -/
def isDead (p : Page) (n : SessionNode) : Bool :=
  !n.isSeparator && !(n.tabRef.any fun t => t ∈ p.tabs)

/-- Source: `_PruneRemovedSessionNodes` -/
def pruneRemovedSessionNodes (p : Page) : Page :=
  let dead := (preorder p.tree).filter p.isDead
  (dead.map SessionNode.ident).foldl removeNodeSelfHealing p

/-- The counter of a pair, zero when it has none yet. -/
def insertedCount (insertedAfter : List ((Option ℕ × Option ℕ) × ℕ)) (k : Option ℕ × Option ℕ) :
    ℕ :=
  (insertedAfter.lookup k).getD 0

/-- The position of `_RealizeStartupSeparators` for a separator in a container, and whether it
resolved. -/
def separatorPosition (p : Page) (parentNode : Option ℕ) (sep : StartupSeparator) : ℕ × Bool :=
  match sep.afterSpawnIndex with
  | none => (0, true)
  | some _ =>
      match p.nodeBySpawnIndex sep.afterSpawnIndex with
      | none => (sizeIn parentNode p.tree, false)
      | some after =>
          match indexIn parentNode after p.tree with
          | none => (sizeIn parentNode p.tree, false)
          | some i => (i + 1, true)

/-- One round of `_RealizeStartupSeparators`, with the counters. -/
def realizeSeparator (st : Page × List ((Option ℕ × Option ℕ) × ℕ)) (sep : StartupSeparator) :
    Page × List ((Option ℕ × Option ℕ) × ℕ) :=
  let (p, insertedAfter) := st
  let parentNode := p.nodeBySpawnIndex sep.parentSpawnIndex
  let scopeKey := if parentNode.isSome then sep.parentSpawnIndex else none
  let position := p.separatorPosition parentNode sep
  let count := insertedCount insertedAfter (scopeKey, sep.afterSpawnIndex)
  let insertAt :=
    if position.2 then min (position.1 + count) (sizeIn parentNode p.tree) else position.1
  let node := createSeparatorNode p.nodesCreated sep.id sep.style sep.height sep.placement
    sep.label sep.collapsed
  ({ p with
      tree := insertIn SessionNode.ident parentNode insertAt node p.tree
      nodesCreated := p.nodesCreated + 1 },
    if position.2 then ((scopeKey, sep.afterSpawnIndex), count + 1) :: insertedAfter
    else insertedAfter)

/-- Source: `_SinkBottomSeparators` -/
def sinkBottomSeparators (p : Page) : Page := { p with tree := sinkBottomSeparatorsIn p.tree }

/-- Source: `_RealizeStartupSeparators` -/
def realizeStartupSeparators (p : Page) : Page :=
  if p.startupSeparatorsRealized then p
  else if p.startupNodeCursor < p.pendingStartupLabelTemplates.length then p
  else if p.pendingStartupSeparators.isEmpty then { p with startupSeparatorsRealized := true }
  else
    let q := (p.pendingStartupSeparators.foldl realizeSeparator
      ({ p with startupSeparatorsRealized := true }, [])).1
    sinkBottomSeparators { q with pendingStartupSeparators := [] }

/-- Source: `_MarkStartupSpawnComplete` -/
def markStartupSpawnComplete (p : Page) : Page :=
  realizeStartupSeparators
    { p with
      startupNodeCursor := max p.startupNodeCursor p.pendingStartupLabelTemplates.length }

/-- Source: `_OnSessionsCollectionChanged` -/
def onSessionsCollectionChanged (p : Page) : Page :=
  if p.suppressSessionTreeReconcile then p
  else
    sinkBottomSeparators
      (realizeStartupSeparators (addMissingSessionNodes (pruneRemovedSessionNodes p)))

/-- A new tab at a position; the handler of the tab list runs at once. Source: `_InitializeTab` -/
def openTab (p : Page) (position : ℕ) : Page :=
  onSessionsCollectionChanged
    { p with
      tabs := p.tabs.insertIdx (min position p.tabs.length) p.tabsCreated
      tabsCreated := p.tabsCreated + 1 }

/-- An action of the startup loop: it opens a tab at a position, or none. -/
def doAction (p : Page) (outcome : Option ℕ) : Page :=
  match outcome with
  | none => p
  | some position => p.openTab position

/-- Source: `ProcessStartupActions` -/
def processStartupActions (p : Page) (outcomes : List (Option ℕ)) : Page :=
  markStartupSpawnComplete (outcomes.foldl doAction p)

/-- The startup branch of `TerminalWindow::Initialize` -/
def startupPage (settings : List LaunchEntry) (sessions : List StartupSession)
    (separators : List StartupSeparator) : Page :=
  setStartupSeparators
    (setStartupNodeMetadata { settings := settings }
      (sessions.map StartupSession.labelTemplate) (sessions.map StartupSession.parentIndex)
      (sessions.map StartupSession.iconOverride) (sessions.map StartupSession.iconColor)
      (sessions.map StartupSession.colorTarget) (sessions.map StartupSession.id))
    separators

/-- A launch on the startup tree of the settings. `outcome` says of each action whether it opens a
tab, and at which position. -/
def startup (host : Host) (entries : List LaunchEntry) (outcome : ℕ → Option ℕ) : Page :=
  let (sessions, separators) := loadStartupTree host (some entries)
  (startupPage entries sessions separators).processStartupActions
    ((List.range sessions.length).map outcome)

end Page

end Axan.SessionTree
