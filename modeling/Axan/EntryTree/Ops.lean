import Axan.Base.Reorder
import Axan.Base.Text

/-!
# The structural rules of the startup list: `AxanEntryTreeOps.h`

The startup tree is a flat list of rows; a row names its parent by id. Everything here works on
that list: depths, the rows of a subtree, siblings, and the three edits that move rows.

* `depths`, `subtreeMask`, `subtreeEnd`, `prevSibling`, `nextSibling` — one forward or backward
  pass each.
* `indentParent`, `outdentParent`, `moveAmongSiblings`, `duplicateInsertIndex` — what an editor
  command does to a row.
* `normalizeAfterDrag` — the fix-up after a drag: the closure of the dragged row by id, the anchor
  above it, and the ancestor of the anchor it is put under.
* `isWellFormed` — every parent id is empty or names an earlier row that is no separator.
* `applyBlockMove` — the edit of the row vector a `BlockMove` stands for
  (`StartupSessionsViewModel.cpp`).

`std::unordered_map` and `std::unordered_set` are lists in insertion order: only lookups read
them. `Fault` collects what the source leaves to an exception or to termination.
-/

namespace Axan.EntryTree

open Axan.Base

/-- Source: `Axan::EntryTree::Node` -/
structure Node where
  id : WString
  parentId : WString
  separator : Bool
  deriving DecidableEq, Repr

/-- Source: `Axan::EntryTree::Nodes` -/
abbrev Nodes := List Node

/-- How an operation can fail to return. -/
inductive Fault where
  /-- A vector index out of bounds. -/
  | bounds
  /-- `byId.at` on a missing key. -/
  | key
  /-- A loop that is still running after more rounds than there are rows. -/
  | loop
  deriving DecidableEq, Repr

/-! ### Passes -/

/-- The depth of a row under the depths recorded so far. -/
def depthIn (byId : List (WString × ℕ)) (n : Node) : ℕ :=
  if n.parentId.isEmpty then 0
  else
    match byId.lookup n.parentId with
    | some d => d + 1
    | none => 0

/-- The loop of `Depths`; `byId` holds the latest depth of each id first. -/
def depthsFrom (byId : List (WString × ℕ)) : Nodes → List ℕ
  | [] => []
  | n :: rest => depthIn byId n :: depthsFrom ((n.id, depthIn byId n) :: byId) rest

/-- A parent id that names no earlier row reads as a root. Source: `Depths` -/
def depths (nodes : Nodes) : List ℕ := depthsFrom [] nodes

/-- The loop of `SubtreeMask`, behind the root. -/
def maskFrom (ids : List WString) : Nodes → List Bool
  | [] => []
  | n :: rest =>
      if !n.parentId.isEmpty && ids.contains n.parentId then true :: maskFrom (n.id :: ids) rest
      else false :: maskFrom ids rest

/-- The subtree of a row as a mask over the list. Source: `SubtreeMask` -/
def subtreeMask (nodes : Nodes) (root : ℕ) : List Bool :=
  match nodes[root]? with
  | none => List.replicate nodes.length false
  | some r => List.replicate root false ++ true :: maskFrom [r.id] (nodes.drop (root + 1))

/-- The last row of the subtree. Source: `SubtreeEnd` -/
def subtreeEnd (nodes : Nodes) (root : ℕ) : ℕ :=
  (maskIdx 0 (subtreeMask nodes root)).foldl (fun last i => if root ≤ i then i else last) root

/-- The last index below `i` whose row satisfies `p`. -/
def lastBelow (p : Node → Bool) (nodes : Nodes) : ℕ → Option ℕ
  | 0 => none
  | i + 1 =>
      match nodes[i]? with
      | some n => if p n then some i else lastBelow p nodes i
      | none => lastBelow p nodes i

/-- Source: `PrevSibling` -/
def prevSibling (nodes : Nodes) (index : ℕ) : Option ℕ :=
  match nodes[index]? with
  | none => none
  | some row => lastBelow (fun n => n.parentId = row.parentId) nodes index

/-- Source: `NextSibling` -/
def nextSibling (nodes : Nodes) (index : ℕ) : Option ℕ :=
  match nodes[index]? with
  | none => none
  | some row =>
      ((nodes.drop (index + 1)).findIdx? fun n => n.parentId = row.parentId).map
        (· + (index + 1))

/-! ### Editor commands -/

/-- The upward search of `IndentParent`: skip separators of the depth, stop above it. -/
def indentScan (nodes : Nodes) (depths : List ℕ) (myDepth : ℕ) : ℕ → Option WString
  | 0 => none
  | i + 1 =>
      match nodes[i]?, depths[i]? with
      | some n, some d =>
          if d = myDepth then
            if n.separator then indentScan nodes depths myDepth i else some n.id
          else if d < myDepth then none
          else indentScan nodes depths myDepth i
      | _, _ => none

/-- The new parent of an indented row. Source: `IndentParent` -/
def indentParent (nodes : Nodes) (index : ℕ) : Option WString :=
  if index = 0 then none
  else
    match (depths nodes)[index]? with
    | none => none
    | some myDepth => indentScan nodes (depths nodes) myDepth index

/-- The new parent of an outdented row. Source: `OutdentParent` -/
def outdentParent (nodes : Nodes) (index : ℕ) : Option WString :=
  match nodes[index]? with
  | none => none
  | some row =>
      if row.parentId.isEmpty then none
      else
        match nodes.find? fun n => n.id = row.parentId with
        | some parent => some parent.parentId
        | none => some []

/-- Rows to lift, in the order they are put back, and the index they are put back at, counted
without them. Source: `BlockMove` -/
structure BlockMove where
  block : List ℕ
  insertAt : ℕ
  deriving DecidableEq, Repr

/-- The loop of `MoveAmongSiblings` over the two masks; `restIndex` counts the rows that stay. -/
def moveScan (up : Bool) (sibling : ℕ) :
    ℕ → ℕ → List (Bool × Bool) → BlockMove → BlockMove
  | _, _, [], move => move
  | i, restIndex, (moved, inSibling) :: more, move =>
      if moved then moveScan up sibling (i + 1) restIndex more { move with block := move.block ++ [i] }
      else
        let insertAt :=
          if up && i = sibling then restIndex
          else if !up && inSibling then restIndex + 1
          else move.insertAt
        moveScan up sibling (i + 1) (restIndex + 1) more { move with insertAt := insertAt }

/-- Source: `MoveAmongSiblings` -/
def moveAmongSiblings (nodes : Nodes) (index : ℕ) (up : Bool) : Option BlockMove :=
  match if up then prevSibling nodes index else nextSibling nodes index with
  | none => none
  | some sibling =>
      some (moveScan up sibling 0 0
        ((subtreeMask nodes index).zip (subtreeMask nodes sibling)) ⟨[], 0⟩)

/-- Source: `DuplicateInsertIndex` -/
def duplicateInsertIndex (nodes : Nodes) (index : ℕ) : ℕ :=
  if index ≥ nodes.length then nodes.length else subtreeEnd nodes index + 1

/-! ### The drag fix-up -/

/-- One round over the rows: the ids known so far, and whether one was added. -/
def closeRound : Nodes → List WString → Bool → List WString × Bool
  | [], subtree, grew => (subtree, grew)
  | n :: rest, subtree, grew =>
      if !n.parentId.isEmpty && subtree.contains n.parentId && !subtree.contains n.id then
        closeRound rest (subtree ++ [n.id]) true
      else closeRound rest subtree grew

/-- Rounds until none adds an id. -/
def closeLoop (nodes : Nodes) : ℕ → List WString → Except Fault (List WString)
  | 0, _ => .error .loop
  | fuel + 1, subtree =>
      match closeRound nodes subtree false with
      | (subtree, true) => closeLoop nodes fuel subtree
      | (subtree, false) => .ok subtree

/-- What the pass over the dropped list collects. -/
structure DragScan where
  block : List ℕ
  rest : Nodes
  anchor : Option ℕ
  deriving DecidableEq, Repr

/-- The pass over the dropped list, from row `i` on. -/
def dragScan (subtree : List WString) (headIndex : ℕ) : ℕ → Nodes → DragScan → DragScan
  | _, [], s => s
  | i, n :: more, s =>
      if subtree.contains n.id then
        dragScan subtree headIndex (i + 1) more
          (if i ≠ headIndex then { s with block := s.block ++ [i] } else s)
      else
        dragScan subtree headIndex (i + 1) more
          { s with
            rest := s.rest ++ [n]
            anchor := if i < headIndex then some s.rest.length else s.anchor }

/-- The walk from the anchor up to its ancestor at depth `target`. -/
def ancestorWalk (rest : Nodes) (depths : List ℕ) (target : ℕ) : ℕ → ℕ → Except Fault ℕ
  | 0, _ => .error .loop
  | fuel + 1, cur =>
      match rest[cur]?, depths[cur]? with
      | some n, some d =>
          if d > target then
            match rest.findIdx? fun m => m.id = n.parentId with
            | some parent => ancestorWalk rest depths target fuel parent
            | none => .error .key
          else .ok cur
      | _, _ => .error .bounds

/-- Source: `DragFixup` -/
structure DragFixup where
  move : BlockMove
  headParentId : WString
  deriving DecidableEq, Repr

/-- The depth a head of depth `oldDepth` takes behind the anchor. -/
def landingDepth (rest : Nodes) (anchor : Option ℕ) (insertAt oldDepth : ℕ) : ℕ :=
  let depths := depths rest
  let maxDepth := match anchor with
    | some a => depths.getD a 0 + 1
    | none => 0
  let below := if insertAt < rest.length then depths.getD insertAt 0 else 0
  let minDepth := min below maxDepth
  let newDepth := max minDepth (min oldDepth maxDepth)
  match anchor with
  | some a =>
      if newDepth = maxDepth && (rest[a]?.map Node.separator).getD false then depths.getD a 0
      else newDepth
  | none => newDepth

/-- The second half of the fix-up: where the block goes, and the head's new parent. -/
def dragFixup (s : DragScan) (oldDepth : ℕ) : Except Fault DragFixup :=
  let insertAt := (s.anchor.map (· + 1)).getD 0
  let newDepth := landingDepth s.rest s.anchor insertAt oldDepth
  if newDepth > 0 then
    match s.anchor with
    | none => .error .bounds
    | some a =>
        match ancestorWalk s.rest (depths s.rest) (newDepth - 1) (s.rest.length + 1) a with
        | .error e => .error e
        | .ok cur =>
            match s.rest[cur]? with
            | some n => .ok ⟨⟨s.block, insertAt⟩, n.id⟩
            | none => .error .bounds
  else .ok ⟨⟨s.block, insertAt⟩, []⟩

/-- Source: `NormalizeAfterDrag` -/
def normalizeAfterDrag (after : Nodes) (headIndex oldDepth : ℕ) :
    Except Fault (Option DragFixup) :=
  match after[headIndex]? with
  | none => .ok none
  | some head =>
      match closeLoop after (after.length + 1) [head.id] with
      | .error e => .error e
      | .ok subtree =>
          (dragFixup (dragScan subtree headIndex 0 after ⟨[headIndex], [], none⟩) oldDepth).map some

/-! ### The invariant and the edit -/

/-- The loop of `IsWellFormed`; `seen` maps an id to its first row's separator flag. -/
def wellFormedFrom (seen : List (WString × Bool)) : Nodes → Bool
  | [] => true
  | n :: rest =>
      (n.parentId.isEmpty || seen.lookup n.parentId = some false) &&
        wellFormedFrom (seen ++ [(n.id, n.separator)]) rest

/-- Source: `IsWellFormed` -/
def isWellFormed (nodes : Nodes) : Bool := wellFormedFrom [] nodes

/-- Lift the rows of the block, removing by descending index, and put them back as one run.
Source: `StartupSessionsViewModel::_applyBlockMove` -/
def applyBlockMove {α : Type} (move : BlockMove) (entries : List α) : Except Fault (List α) :=
  match pick move.block entries with
  | none => .error .bounds
  | some block =>
      match removeEach (move.block.mergeSort fun i j => j ≤ i) entries with
      | none => .error .bounds
      | some rest =>
          match insertRun move.insertAt block rest with
          | none => .error .bounds
          | some entries => .ok entries

end Axan.EntryTree
