import Axan.EntryTree.Steps
import Axan.LaunchEntryWire.Entry

/-!
# The startup-sessions editor: `StartupSessionsViewModel.cpp`

The editor holds the startup tree as a vector of rows and writes it back to the settings after
every change. Its commands are the steps of a state machine.

* `Editor`, `addEntry` and the other commands, `step`, `run` — a row is named by its index, and a
  command on a row that is not in the list does nothing. A drag is the list view's own move of one
  row followed by the fix-up.
* `step_ok` — the step lemma: on a well-formed list every command returns, the list it leaves is
  well-formed, and its ids are those of the list before, up to the row added or deleted.
* `run_ok` — the run lemma, and `editor_run` the two together.

Notifications, selection and logging are left out.
-/

namespace Axan.EntryTree

open Axan.Base Axan.LaunchEntryWire

/-- The rows shown, and the rows last written to the settings. -/
structure Editor where
  entries : List LaunchEntry
  committed : List LaunchEntry

/-- The row of a settings entry; the height setter normalizes. Source: `_rowFromModel` -/
def rowFromModel (e : LaunchEntry) : LaunchEntry :=
  { e with height := normalizeSeparatorHeight e.height }

/-- The settings entry of a row. Source: `_modelFromRow` -/
def modelFromRow (vm : LaunchEntry) : LaunchEntry :=
  { vm with hoist := if vm.isSeparator then [] else vm.hoist }

/-- What the structural rules see of a row. -/
def toNode (e : LaunchEntry) : Node := ⟨e.id, e.parentId, e.isSeparator⟩

/-- Source: `_nodes` -/
def nodes (entries : List LaunchEntry) : Nodes := entries.map toNode

/-- The ids of the rows. -/
def ids (entries : List LaunchEntry) : List WString := entries.map LaunchEntry.id

/-- The row under another parent. -/
def setParentId (e : LaunchEntry) (parentId : WString) : LaunchEntry :=
  { e with parentId := parentId }

namespace Editor

/-- Source: `_commit` -/
def commit (ed : Editor) : Editor := { ed with committed := ed.entries.map modelFromRow }

/-- Source: `AddEntry`, with the fresh id and the default profile -/
def addEntry (ed : Editor) (newId profile : WString) : Editor :=
  commit { ed with
    entries := ed.entries ++ [rowFromModel { id := newId, profile := profile }] }

/-- Source: `AddSeparator` -/
def addSeparator (ed : Editor) (newId : WString) : Editor :=
  commit { ed with
    entries := ed.entries ++ [rowFromModel
      { id := newId, kind := kindSeparatorW, separatorStyle := styleLineW,
        height := kSeparatorHeightDefault, placement := placementInlineW }] }

/-- Source: `DeleteEntry` -/
def deleteEntry (ed : Editor) (i : ℕ) : Editor :=
  match ed.entries[i]? with
  | none => ed
  | some vm =>
      let promote := fun other : LaunchEntry =>
        if other.parentId = vm.id then setParentId other vm.parentId else other
      commit { ed with entries := (ed.entries.map promote).eraseIdx i }

/-- Source: `DuplicateEntry` -/
def duplicateEntry (ed : Editor) (i : ℕ) (newId : WString) : Except Fault Editor :=
  match ed.entries[i]? with
  | none => .ok ed
  | some vm =>
      let copy := rowFromModel { modelFromRow vm with id := newId }
      match insertAt ed.entries (duplicateInsertIndex (nodes ed.entries) i) copy with
      | none => .error .bounds
      | some entries => .ok (commit { ed with entries := entries })

/-- Give a row the parent a rule returned. Source: `IndentEntry`, `OutdentEntry` -/
def reparent (ed : Editor) (i : ℕ) : Option WString → Editor
  | none => ed
  | some parent =>
      commit { ed with entries := ed.entries.modify i fun vm => setParentId vm parent }

/-- Source: `IndentEntry` -/
def indentEntry (ed : Editor) (i : ℕ) : Editor :=
  ed.reparent i (indentParent (nodes ed.entries) i)

/-- Source: `OutdentEntry` -/
def outdentEntry (ed : Editor) (i : ℕ) : Editor :=
  ed.reparent i (outdentParent (nodes ed.entries) i)

/-- Source: `_moveEntry`, for `MoveEntryUp` and `MoveEntryDown` -/
def moveEntry (ed : Editor) (i : ℕ) (up : Bool) : Except Fault Editor :=
  match moveAmongSiblings (nodes ed.entries) i up with
  | none => .ok ed
  | some move =>
      (applyBlockMove move ed.entries).map fun entries => commit { ed with entries := entries }

/-- The rows after a drop, once the fix-up is applied; they are written back only when they are
well-formed. Source: `NormalizeAfterDrag`, from the fix-up on -/
def normalizeDrop (ed : Editor) (after : List LaunchEntry) (j oldDepth : ℕ) :
    Except Fault Editor :=
  let settle := fun entries : List LaunchEntry =>
    if isWellFormed (nodes entries) then commit { ed with entries := entries }
    else { ed with entries := ed.committed.map rowFromModel }
  match normalizeAfterDrag (nodes after) j oldDepth with
  | .error e => .error e
  | .ok none => .ok (settle after)
  | .ok (some fix) =>
      (applyBlockMove fix.move
        (after.modify j fun head => setParentId head fix.headParentId)).map settle

/-- Drag row `i` and drop it at `j`: the list view moves the one row, then the fix-up runs. A drop
in place, or at no position of the list, changes nothing.
Source: `BeginDrag`, `NormalizeAfterDrag` -/
def drag (ed : Editor) (i j : ℕ) : Except Fault Editor :=
  match ed.entries[i]? with
  | none => .ok ed
  | some head =>
      match insertAt (ed.entries.eraseIdx i) j head with
      | none => .ok ed
      | some after =>
          if j = i then .ok ed
          else ed.normalizeDrop after j ((depths (nodes ed.entries)).getD i 0)

end Editor

/-! ### Runs -/

/-- The commands of the editor; those that create a row carry the id it was given. -/
inductive Op where
  | addEntry (newId profile : WString)
  | addSeparator (newId : WString)
  | deleteEntry (i : ℕ)
  | duplicateEntry (i : ℕ) (newId : WString)
  | indentEntry (i : ℕ)
  | outdentEntry (i : ℕ)
  | moveEntry (i : ℕ) (up : Bool)
  | drag (i j : ℕ)
  deriving DecidableEq, Repr

/-- One command. -/
def step (ed : Editor) : Op → Except Fault Editor
  | .addEntry newId profile => .ok (ed.addEntry newId profile)
  | .addSeparator newId => .ok (ed.addSeparator newId)
  | .deleteEntry i => .ok (ed.deleteEntry i)
  | .duplicateEntry i newId => ed.duplicateEntry i newId
  | .indentEntry i => .ok (ed.indentEntry i)
  | .outdentEntry i => .ok (ed.outdentEntry i)
  | .moveEntry i up => ed.moveEntry i up
  | .drag i j => ed.drag i j

/-- A finite sequence of commands. -/
def run : Editor → List Op → Except Fault Editor
  | ed, [] => .ok ed
  | ed, op :: ops => (step ed op).bind fun ed' => run ed' ops

/-- The id a command creates is a new one, and an id. -/
def Op.Fresh (ed : Editor) : Op → Prop
  | .addEntry newId _ => newId ≠ [] ∧ newId ∉ ids ed.entries
  | .addSeparator newId => newId ≠ [] ∧ newId ∉ ids ed.entries
  | .duplicateEntry _ newId => newId ≠ [] ∧ newId ∉ ids ed.entries
  | _ => True

/-- Every id created along a sequence is fresh where it is created. -/
def FreshRun : Editor → List Op → Prop
  | _, [] => True
  | ed, op :: ops => op.Fresh ed ∧ ∀ ed', step ed op = .ok ed' → FreshRun ed' ops

/-- What a command does to the ids of the rows. -/
def IdsChange (ed : Editor) (op : Op) (ed' : Editor) : Prop :=
  match op with
  | .addEntry newId _ => (ids ed'.entries).Perm (newId :: ids ed.entries)
  | .addSeparator newId => (ids ed'.entries).Perm (newId :: ids ed.entries)
  | .duplicateEntry i newId =>
      if i < ed.entries.length then (ids ed'.entries).Perm (newId :: ids ed.entries)
      else (ids ed'.entries).Perm (ids ed.entries)
  | .deleteEntry i =>
      match ed.entries[i]? with
      | some vm => (ids ed.entries).Perm (vm.id :: ids ed'.entries)
      | none => (ids ed'.entries).Perm (ids ed.entries)
  | _ => (ids ed'.entries).Perm (ids ed.entries)

/-! ## The commands, one by one -/

@[simp] theorem nodes_append (a b : List LaunchEntry) : nodes (a ++ b) = nodes a ++ nodes b :=
  List.map_append

@[simp] theorem nodes_cons (e : LaunchEntry) (l : List LaunchEntry) :
    nodes (e :: l) = toNode e :: nodes l := rfl

/-- There is one node for each entry. -/
@[simp] theorem length_nodes (l : List LaunchEntry) : (nodes l).length = l.length :=
  List.length_map _

/-- The ids of the nodes are those of the entries. -/
theorem map_id_nodes (l : List LaunchEntry) : (nodes l).map Node.id = ids l := by
  simp [nodes, ids, toNode, Function.comp_def]

@[simp] theorem commit_entries (ed : Editor) : ed.commit.entries = ed.entries := rfl

/-- Rows whose nodes are a permutation have the same ids. -/
theorem perm_ids {a b : List LaunchEntry} (h : (nodes a).Perm (nodes b)) :
    (ids a).Perm (ids b) := by
  have := h.map Node.id
  rwa [map_id_nodes, map_id_nodes] at this

/-- Appending a root row with a fresh id. -/
theorem append_ok {ed : Editor} (ht : Tree (nodes ed.entries)) {e : LaunchEntry}
    (hp : e.parentId = []) (hne : e.id ≠ []) (hfresh : e.id ∉ ids ed.entries) :
    Tree (nodes (ed.entries ++ [e])) ∧
      (ids (ed.entries ++ [e])).Perm (e.id :: ids ed.entries) := by
  refine ⟨?_, ?_⟩
  · rw [nodes_append]
    apply ht.append_root (n := toNode e) hp hne
    rw [map_id_nodes]
    exact hfresh
  · rw [ids, List.map_append]
    exact List.perm_append_singleton _ _

/-- A delete takes the row out and gives the rows that name it as parent its own parent. -/
theorem deleteEntry_entries {ed : Editor} {pre post : List LaunchEntry} {vm : LaunchEntry}
    (hl : ed.entries = pre ++ vm :: post) :
    (ed.deleteEntry pre.length).entries = (pre ++ post).map fun other =>
      if other.parentId = vm.id then setParentId other vm.parentId else other := by
  have hi : ed.entries[pre.length]? = some vm := by rw [hl]; simp
  unfold Editor.deleteEntry
  rw [hi]
  dsimp only [Editor.commit]
  rw [hl, List.map_append, List.eraseIdx_append_of_length_le (by simp)]
  simp

/-- A child of the row that goes gets its parent. -/
theorem toNode_promote (vm other : LaunchEntry) :
    toNode (if other.parentId = vm.id then setParentId other vm.parentId else other) =
      promoted (toNode vm) (toNode other) := by
  unfold promoted
  split_ifs with h₁ h₂ h₂
  · rfl
  · exact absurd h₁ h₂
  · exact absurd h₂ h₁
  · rfl

/-- A deletion takes one row out and promotes its children. -/
theorem nodes_deleteEntry {ed : Editor} {pre post : List LaunchEntry} {vm : LaunchEntry}
    (hl : ed.entries = pre ++ vm :: post) :
    nodes (ed.deleteEntry pre.length).entries =
      (nodes pre ++ nodes post).map (promoted (toNode vm)) := by
  rw [deleteEntry_entries hl, nodes, List.map_map, ← nodes_append, nodes, List.map_map]
  apply List.map_congr_left
  intro other _
  exact toNode_promote vm other

/-- A deletion keeps the tree well formed and takes one id out. -/
theorem deleteEntry_ok {ed : Editor} (ht : Tree (nodes ed.entries)) (i : ℕ) :
    Tree (nodes (ed.deleteEntry i).entries) ∧ IdsChange ed (.deleteEntry i) (ed.deleteEntry i) := by
  cases hi : ed.entries[i]? with
  | none =>
      have hed : ed.deleteEntry i = ed := by
        unfold Editor.deleteEntry
        rw [hi]
      rw [hed]
      refine ⟨ht, ?_⟩
      simp [IdsChange, hi]
  | some vm =>
      obtain ⟨pre, post, hl, rfl⟩ := split_of_getElem? hi
      have hnodes := nodes_deleteEntry hl
      refine ⟨?_, ?_⟩
      · rw [hnodes]
        apply Tree.promote
        rw [hl, nodes_append, nodes_cons] at ht
        exact ht
      · have hids : ids (ed.deleteEntry pre.length).entries = ids (pre ++ post) := by
          rw [← map_id_nodes, hnodes, List.map_map, ← map_id_nodes, nodes_append]
          exact List.map_congr_left fun n _ => promoted_id _ n
        have hperm : (ids ed.entries).Perm (vm.id :: ids (ed.deleteEntry pre.length).entries) := by
          rw [hids, hl, ids, ids, List.map_append, List.map_append, List.map_cons]
          exact List.perm_middle
        simpa only [IdsChange, hi] using hperm

/-- The end of a subtree is a row from the root on. -/
theorem subtreeEnd_bounds {l : Nodes} {i : ℕ} (hi : i < l.length) :
    i ≤ subtreeEnd l i ∧ subtreeEnd l i < l.length := by
  have hmask : (subtreeMask l i).length = l.length := by
    have hlen : ∀ (ids : List WString) (l : Nodes), (maskFrom ids l).length = l.length := by
      intro ids l
      induction l generalizing ids with
      | nil => rfl
      | cons n l ih =>
          rw [maskFrom]
          split_ifs <;> simp [ih]
    obtain ⟨r, hr⟩ : ∃ r, l[i]? = some r := ⟨l[i], List.getElem?_eq_getElem hi⟩
    unfold subtreeMask
    rw [hr]
    simp only [List.length_append, List.length_replicate, List.length_cons, hlen, List.length_drop]
    omega
  have hfold : ∀ (is : List ℕ) (last : ℕ), (∀ k ∈ is, k < l.length) → i ≤ last →
      last < l.length →
      i ≤ is.foldl (fun last k => if i ≤ k then k else last) last ∧
        is.foldl (fun last k => if i ≤ k then k else last) last < l.length := by
    intro is
    induction is with
    | nil => intro last _ h₁ h₂; exact ⟨h₁, h₂⟩
    | cons k is ih =>
        intro last hlt h₁ h₂
        rw [List.foldl_cons]
        have hk := hlt k List.mem_cons_self
        apply ih _ fun k hk => hlt k (List.mem_cons_of_mem _ hk)
        · split_ifs with h
          · exact h
          · exact h₁
        · split_ifs
          · exact hk
          · exact h₂
  apply hfold _ _ _ (le_refl _) hi
  intro k hk
  have hk' : 0 + k ∈ maskIdx 0 (subtreeMask l i) := by rwa [Nat.zero_add]
  have := (List.getElem?_eq_some_iff.mp (mem_maskIdx_iff.mp hk')).1
  omega

/-- A copy goes through, keeps the tree well formed and adds one id. -/
theorem duplicateEntry_ok {ed : Editor} (ht : Tree (nodes ed.entries)) (i : ℕ) {newId : WString}
    (hne : newId ≠ []) (hfresh : newId ∉ ids ed.entries) :
    ∃ ed', ed.duplicateEntry i newId = .ok ed' ∧ Tree (nodes ed'.entries) ∧
      IdsChange ed (.duplicateEntry i newId) ed' := by
  cases hi : ed.entries[i]? with
  | none =>
      have hlt : ¬i < ed.entries.length := by
        have := List.getElem?_eq_none_iff.mp hi
        omega
      refine ⟨ed, ?_, ht, ?_⟩
      · unfold Editor.duplicateEntry
        rw [hi]
      · simp [IdsChange, hlt]
  | some vm =>
      have hlt : i < ed.entries.length := (List.getElem?_eq_some_iff.mp hi).1
      obtain ⟨h₁, h₂⟩ := subtreeEnd_bounds (l := nodes ed.entries) (i := i) (by simpa using hlt)
      rw [length_nodes] at h₂
      have hat : duplicateInsertIndex (nodes ed.entries) i = subtreeEnd (nodes ed.entries) i + 1 := by
        unfold duplicateInsertIndex
        rw [if_neg (by simpa using hlt)]
      obtain ⟨pre, post, hl, rfl⟩ := split_of_getElem? hi
      obtain ⟨k, hk⟩ : ∃ k, subtreeEnd (nodes ed.entries) pre.length + 1 = pre.length + 1 + k :=
        ⟨subtreeEnd (nodes ed.entries) pre.length - pre.length, by omega⟩
      rw [hk] at hat
      set copy := rowFromModel { modelFromRow vm with id := newId } with hcopy
      have htake : ed.entries.take (pre.length + 1 + k) = pre ++ vm :: post.take k := by
        rw [hl, Nat.add_assoc, List.take_length_add_append, Nat.add_comm 1 k, List.take_succ_cons]
      have hdrop : ed.entries.drop (pre.length + 1 + k) = post.drop k := by
        rw [hl, Nat.add_assoc, List.drop_length_add_append, Nat.add_comm 1 k, List.drop_succ_cons]
      have hentries : pre ++ vm :: post.take k ++ post.drop k = ed.entries := by
        rw [hl, List.append_assoc, List.cons_append, List.take_append_drop]
      have hins : insertAt ed.entries (pre.length + 1 + k) copy =
          some (pre ++ vm :: post.take k ++ copy :: post.drop k) := by
        have hle : pre.length + 1 + k ≤ ed.entries.length := by omega
        rw [insertAt, if_pos hle, insertIdx_eq_append hle, htake, hdrop]
      refine ⟨Editor.commit
        { ed with entries := pre ++ vm :: post.take k ++ copy :: post.drop k }, ?_, ?_, ?_⟩
      · unfold Editor.duplicateEntry
        rw [hi]
        simp only [hat]
        rw [← hcopy, hins]
      · have ht' : Tree (nodes (pre ++ vm :: post.take k ++ post.drop k)) := by
          rw [hentries]
          exact ht
        rw [commit_entries, nodes_append, nodes_append, nodes_cons, nodes_cons]
        rw [nodes_append, nodes_append, nodes_cons] at ht'
        apply ht'.insert_copy (c := toNode copy) rfl hne
        have : nodes pre ++ toNode vm :: nodes (post.take k) ++ nodes (post.drop k) =
            nodes ed.entries := by
          rw [← hentries, nodes_append, nodes_append, nodes_cons]
        rw [this, map_id_nodes]
        exact hfresh
      · have hperm : (ids (pre ++ vm :: post.take k ++ copy :: post.drop k)).Perm
            (newId :: ids ed.entries) := by
          rw [← hentries]
          exact (List.perm_middle.map LaunchEntry.id)
        simp only [IdsChange, if_pos hlt]
        exact hperm

/-- A row takes a parent in front of it. -/
theorem reparent_ok {ed : Editor} (ht : Tree (nodes ed.entries)) {i : ℕ} {parent : Option WString}
    (hp : ∀ p, parent = some p → ∃ pre vm post, ed.entries = pre ++ vm :: post ∧
      i = pre.length ∧ (p = [] ∨ ∃ m ∈ nodes pre, m.id = p ∧ m.separator = false)) :
    Tree (nodes (ed.reparent i parent).entries) ∧
      (ids (ed.reparent i parent).entries).Perm (ids ed.entries) := by
  cases parent with
  | none => exact ⟨ht, List.Perm.refl _⟩
  | some p =>
      obtain ⟨pre, vm, post, hl, rfl, hpar⟩ := hp p rfl
      have hed : (ed.reparent pre.length (some p)).entries = pre ++ setParentId vm p :: post := by
        show ed.entries.modify pre.length _ = _
        rw [hl, modify_split]
      rw [hed]
      refine ⟨?_, ?_⟩
      · rw [hl, nodes_append, nodes_cons] at ht
        rw [nodes_append, nodes_cons]
        exact ht.setParent rfl rfl hpar
      · rw [hl]
        simp [ids, setParentId]

/-- Where a row of the nodes splits the rows. -/
theorem split_nodes {l : List LaunchEntry} {i : ℕ} {n : Node} (h : (nodes l)[i]? = some n) :
    ∃ pre vm post, l = pre ++ vm :: post ∧ i = pre.length ∧ toNode vm = n := by
  rw [nodes, List.getElem?_map] at h
  obtain ⟨vm, hvm, hn⟩ := Option.map_eq_some_iff.mp h
  obtain ⟨pre, post, hl, hi⟩ := split_of_getElem? hvm
  exact ⟨pre, vm, post, hl, hi, hn⟩

/-- Indenting keeps the tree well formed and the ids. -/
theorem indentEntry_ok {ed : Editor} (ht : Tree (nodes ed.entries)) (i : ℕ) :
    Tree (nodes (ed.indentEntry i).entries) ∧
      (ids (ed.indentEntry i).entries).Perm (ids ed.entries) := by
  apply reparent_ok ht
  intro p hp
  have hi : i < (nodes ed.entries).length := by
    unfold indentParent at hp
    split_ifs at hp
    cases hd : (depths (nodes ed.entries))[i]? with
    | none => rw [hd] at hp; cases hp
    | some d =>
        have hlt := (List.getElem?_eq_some_iff.mp hd).1
        rwa [depths, length_depthsFrom] at hlt
  obtain ⟨pre, vm, post, hl, rfl, -⟩ := split_nodes (List.getElem?_eq_getElem hi)
  rw [hl, nodes_append, nodes_cons, ← length_nodes pre] at hp
  obtain ⟨a, m, b, hlev, hid, hsep, -, -⟩ := indentParent_eq_some_iff.mp hp
  obtain ⟨x, y, hpre, -⟩ := leveled_split hlev
  exact ⟨pre, vm, post, hl, rfl, Or.inr ⟨m.1, by rw [hpre]; simp, hid, hsep⟩⟩

theorem outdentEntry_ok {ed : Editor} (ht : Tree (nodes ed.entries)) (i : ℕ) :
    Tree (nodes (ed.outdentEntry i).entries) ∧
      (ids (ed.outdentEntry i).entries).Perm (ids ed.entries) := by
  apply reparent_ok ht
  intro p hp
  unfold outdentParent at hp
  cases hn : (nodes ed.entries)[i]? with
  | none => rw [hn] at hp; cases hp
  | some n =>
      rw [hn] at hp
      obtain ⟨pre, vm, post, hl, rfl, rfl⟩ := split_nodes hn
      refine ⟨pre, vm, post, hl, rfl, ?_⟩
      simp only at hp
      split_ifs at hp with hempty
      cases hf : (nodes ed.entries).find? fun n => n.id = (toNode vm).parentId with
      | none =>
          rw [hf] at hp
          exact Or.inl (Option.some.inj hp).symm
      | some q =>
          rw [hf] at hp
          obtain rfl : q.parentId = p := Option.some.inj hp
          have hql : q ∈ nodes ed.entries := List.mem_of_find?_eq_some hf
          have hqid : q.id = (toNode vm).parentId := by
            simpa using List.find?_some hf
          -- the row found is the parent, in front of the row, and its own parent before that
          have hsplit : nodes ed.entries = nodes pre ++ toNode vm :: nodes post := by
            rw [hl, nodes_append, nodes_cons]
          have hvm : toNode vm ∈ nodes ed.entries := by
            rw [hsplit]
            simp
          obtain ⟨q', hb, hid', -⟩ := ht.parent (toNode vm) hvm (by simpa using hempty)
          obtain rfl : q' = q := ht.eq_of_id hb.mem_left hql (by rw [hid', hqid])
          have hqpre : q' ∈ nodes pre := hb.mem_of_split ht.nodup hsplit
          by_cases hqp : q'.parentId = []
          · exact Or.inl hqp
          · obtain ⟨g, hbg, hg⟩ := ht.parent q' hql hqp
            obtain ⟨a, b, hab⟩ := List.append_of_mem hqpre
            have hsplit' : nodes ed.entries = a ++ q' :: (b ++ toNode vm :: nodes post) := by
              rw [hsplit, hab]
              simp
            have hga : g ∈ a := hbg.mem_of_split ht.nodup hsplit'
            refine Or.inr ⟨g, ?_, hg⟩
            rw [hab]
            exact List.mem_append_left _ hga

/-- A block move of the nodes is one of the rows. -/
theorem exists_rows {move : BlockMove} {l : List LaunchEntry} {l' : Nodes}
    (h : applyBlockMove move (nodes l) = .ok l') :
    ∃ rows, applyBlockMove move l = .ok rows ∧ nodes rows = l' := by
  rw [nodes, applyBlockMove_map] at h
  cases hr : applyBlockMove move l with
  | error e => rw [hr] at h; cases h
  | ok rows =>
      rw [hr] at h
      exact ⟨rows, rfl, Except.ok.inj h⟩

/-- A move up or down goes through, and keeps both. -/
theorem moveEntry_ok {ed : Editor} (ht : Tree (nodes ed.entries)) (i : ℕ) (up : Bool) :
    ∃ ed', ed.moveEntry i up = .ok ed' ∧ Tree (nodes ed'.entries) ∧
      (ids ed'.entries).Perm (ids ed.entries) := by
  unfold Editor.moveEntry
  cases hm : moveAmongSiblings (nodes ed.entries) i up with
  | none => exact ⟨ed, rfl, ht, List.Perm.refl _⟩
  | some move =>
      obtain ⟨l', hok, ht', hperm⟩ := ht.moveAmongSiblings hm
      obtain ⟨rows, hrows, rfl⟩ := exists_rows hok
      refine ⟨Editor.commit { ed with entries := rows }, ?_, ht', perm_ids hperm⟩
      simp only [hrows]
      rfl

/-- The rows a drop leaves once the fix-up is applied. -/
def droppedRows (after : List LaunchEntry) (j oldDepth : ℕ) : Except Fault (List LaunchEntry) :=
  match normalizeAfterDrag (nodes after) j oldDepth with
  | .error e => .error e
  | .ok none => .ok after
  | .ok (some fix) =>
      applyBlockMove fix.move (after.modify j fun head => setParentId head fix.headParentId)

/-- A drop writes its rows back when they are well-formed, and else restores the last ones. -/
theorem normalizeDrop_eq (ed : Editor) (after : List LaunchEntry) (j oldDepth : ℕ) :
    ed.normalizeDrop after j oldDepth = (droppedRows after j oldDepth).map fun rows =>
      if isWellFormed (nodes rows) then Editor.commit { ed with entries := rows }
      else { ed with entries := ed.committed.map rowFromModel } := by
  rw [Editor.normalizeDrop, droppedRows]
  cases normalizeAfterDrag (nodes after) j oldDepth with
  | error e => rfl
  | ok fix =>
      cases fix with
      | none => rfl
      | some fix => rfl

/-- The rows after any drop of a row of a well-formed list. -/
theorem droppedRows_ok {x y a b : List LaunchEntry} {head : LaunchEntry}
    (ht : Tree (nodes (x ++ head :: y))) (hab : a ++ b = x ++ y) (oldDepth : ℕ) :
    ∃ rows, droppedRows (a ++ head :: b) a.length oldDepth = .ok rows ∧ Tree (nodes rows) ∧
      (ids rows).Perm (ids (x ++ head :: y)) := by
  have hab' : nodes a ++ nodes b = nodes x ++ nodes y := by
    rw [← nodes_append, ← nodes_append, hab]
  rw [nodes_append, nodes_cons] at ht
  obtain ⟨fix, l', hfix, hmove, htl, hperm⟩ := ht.normalizeAfterDrag hab' oldDepth
  rw [length_nodes] at hfix
  have hrow : nodes (a ++ setParentId head fix.headParentId :: b) =
      nodes a ++ (toNode head).withParent fix.headParentId :: nodes b := by
    rw [nodes_append, nodes_cons]
    rfl
  rw [← hrow] at hmove
  obtain ⟨rows, hrows, rfl⟩ := exists_rows hmove
  refine ⟨rows, ?_, htl, ?_⟩
  · rw [droppedRows, nodes_append, nodes_cons, hfix]
    simp only [modify_split, hrows]
  · have hids := hperm.map Node.id
    rw [map_id_nodes] at hids
    refine hids.trans ?_
    rw [List.map_append, List.map_cons, map_id_nodes, map_id_nodes, ids, ids, ids,
      List.map_append, List.map_cons]
    exact List.Perm.refl _

/-- Where a row goes when it is dropped: the list before, and the list with the row at `j`. -/
theorem drop_split {entries : List LaunchEntry} {i j : ℕ} {head : LaunchEntry}
    {after : List LaunchEntry} (hi : entries[i]? = some head)
    (hafter : insertAt (entries.eraseIdx i) j head = some after) :
    ∃ x y a b, entries = x ++ head :: y ∧ a ++ b = x ++ y ∧ after = a ++ head :: b ∧
      a.length = j := by
  obtain ⟨x, y, hl, rfl⟩ := split_of_getElem? hi
  have herase : entries.eraseIdx x.length = x ++ y := by
    rw [hl, List.eraseIdx_append_of_length_le (le_refl _)]
    simp
  rw [herase, insertAt] at hafter
  by_cases hj : j ≤ (x ++ y).length
  · rw [if_pos hj, insertIdx_eq_append hj] at hafter
    refine ⟨x, y, (x ++ y).take j, (x ++ y).drop j, hl, List.take_append_drop j _,
      (Option.some.inj hafter).symm, ?_⟩
    rw [List.length_take]
    omega
  · rw [if_neg hj] at hafter
    cases hafter

theorem drag_ok {ed : Editor} (ht : Tree (nodes ed.entries)) (i j : ℕ) :
    ∃ ed', ed.drag i j = .ok ed' ∧ Tree (nodes ed'.entries) ∧
      (ids ed'.entries).Perm (ids ed.entries) := by
  unfold Editor.drag
  cases hi : ed.entries[i]? with
  | none => exact ⟨ed, rfl, ht, List.Perm.refl _⟩
  | some head =>
      simp only
      cases hafter : insertAt (ed.entries.eraseIdx i) j head with
      | none => exact ⟨ed, rfl, ht, List.Perm.refl _⟩
      | some after =>
          by_cases hji : j = i
          · simp only [if_pos hji]
            exact ⟨ed, rfl, ht, List.Perm.refl _⟩
          · simp only [if_neg hji]
            obtain ⟨x, y, a, b, hl, hab, rfl, rfl⟩ := drop_split hi hafter
            obtain ⟨rows, hrows, htr, hperm⟩ :=
              droppedRows_ok (hl ▸ ht) hab ((depths (nodes ed.entries)).getD i 0)
            have hw : isWellFormed (nodes rows) = true := ((tree_iff _).mp htr).1
            refine ⟨Editor.commit { ed with entries := rows }, ?_, htr, ?_⟩
            · rw [normalizeDrop_eq, hrows]
              show Except.ok (if isWellFormed (nodes rows) = true then _ else _) = _
              rw [if_pos hw]
            · rw [commit_entries, hl]
              exact hperm

/-! ## Steps and runs -/

/-- The step lemma. -/
theorem step_ok {ed : Editor} (ht : Tree (nodes ed.entries)) {op : Op} (hfresh : op.Fresh ed) :
    ∃ ed', step ed op = .ok ed' ∧ Tree (nodes ed'.entries) ∧ IdsChange ed op ed' := by
  cases op with
  | addEntry newId profile =>
      obtain ⟨h₁, h₂⟩ := append_ok ht
        (e := rowFromModel { id := newId, profile := profile }) rfl hfresh.1 hfresh.2
      exact ⟨_, rfl, h₁, h₂⟩
  | addSeparator newId =>
      obtain ⟨h₁, h₂⟩ := append_ok ht (e := rowFromModel
        { id := newId, kind := kindSeparatorW, separatorStyle := styleLineW,
          height := kSeparatorHeightDefault, placement := placementInlineW }) rfl hfresh.1 hfresh.2
      exact ⟨_, rfl, h₁, h₂⟩
  | deleteEntry i => exact ⟨_, rfl, deleteEntry_ok ht i⟩
  | duplicateEntry i newId => exact duplicateEntry_ok ht i hfresh.1 hfresh.2
  | indentEntry i => exact ⟨_, rfl, indentEntry_ok ht i⟩
  | outdentEntry i => exact ⟨_, rfl, outdentEntry_ok ht i⟩
  | moveEntry i up => exact moveEntry_ok ht i up
  | drag i j => exact drag_ok ht i j

/-- The run lemma. -/
theorem run_ok {ed : Editor} (ht : Tree (nodes ed.entries)) {ops more : List Op}
    (hfresh : FreshRun ed (ops ++ more)) :
    ∃ ed', run ed ops = .ok ed' ∧ Tree (nodes ed'.entries) ∧ FreshRun ed' more := by
  induction ops generalizing ed with
  | nil => exact ⟨ed, rfl, ht, hfresh⟩
  | cons op ops ih =>
      obtain ⟨hop, hrest⟩ := hfresh
      obtain ⟨ed₁, hstep, ht₁, -⟩ := step_ok ht hop
      obtain ⟨ed', hrun, h⟩ := ih ht₁ (hrest ed₁ hstep)
      refine ⟨ed', ?_, h⟩
      rw [run, hstep]
      exact hrun

/-- **Every sequence of editor commands keeps the startup list well-formed**: after each command
every parent id is empty or names an earlier session row, the ids are distinct and not empty, and
they changed by the one row added, duplicated or deleted, and otherwise not at all. -/
theorem editor_run (ed : Editor) (hw : isWellFormed (nodes ed.entries) = true)
    (hd : (ids ed.entries).Nodup) (hne : [] ∉ ids ed.entries) (ops : List Op) (op : Op)
    (hfresh : FreshRun ed (ops ++ [op])) :
    ∃ ed₁ ed₂, run ed ops = .ok ed₁ ∧ step ed₁ op = .ok ed₂ ∧
      isWellFormed (nodes ed₂.entries) = true ∧ (ids ed₂.entries).Nodup ∧
      [] ∉ ids ed₂.entries ∧ IdsChange ed₁ op ed₂ := by
  have ht : Tree (nodes ed.entries) := (tree_iff _).mpr ⟨hw, by rwa [map_id_nodes],
    by rwa [map_id_nodes]⟩
  obtain ⟨ed₁, hrun, ht₁, hf₁⟩ := run_ok ht hfresh
  obtain ⟨ed₂, hstep, ht₂, hchange⟩ := step_ok ht₁ hf₁.1
  obtain ⟨hw₂, hd₂, hne₂⟩ := (tree_iff _).mp ht₂
  rw [map_id_nodes] at hd₂ hne₂
  exact ⟨ed₁, ed₂, hrun, hstep, hw₂, hd₂, hne₂, hchange⟩

/-- A session with a child: a separator is added, the child outdented, the parent dragged last. -/
theorem editor_run_two_rows :
    ∃ ed₁ ed₂, run ⟨[{ id := L "a" }, { id := L "b", parentId := L "a" }], []⟩
        [.addSeparator (L "s"), .outdentEntry 1] = .ok ed₁ ∧ step ed₁ (.drag 0 2) = .ok ed₂ ∧
      isWellFormed (nodes ed₂.entries) = true ∧ (ids ed₂.entries).Nodup ∧
      [] ∉ ids ed₂.entries ∧ IdsChange ed₁ (.drag 0 2) ed₂ :=
  editor_run ⟨[{ id := L "a" }, { id := L "b", parentId := L "a" }], []⟩ (by decide) (by decide)
    (by decide) [.addSeparator (L "s"), .outdentEntry 1] (.drag 0 2)
    ⟨⟨by decide, by decide⟩, fun _ _ => ⟨trivial, fun _ _ => ⟨trivial, fun _ _ => trivial⟩⟩⟩

end Axan.EntryTree
