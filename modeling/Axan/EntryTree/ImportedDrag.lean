import Axan.EntryTree.Editor
import Axan.LaunchEntryWire.Import

/-!
# Drags after an import

The editor takes the rows of a file as they are, whatever their parent ids. After a drag it checks
the whole list, and puts back the rows last written when the check fails.

* `Editor.importFromToml` — the importer, on the editor.
* `restoreTaken` — a drag ends in the branch that restores; `drag_of_restoreTaken` says what the
  editor is then.
* `fileNodes` — the rows of a file as the structural rules see them.
* `neverRestored_of_file` — **which files make the branch unreachable**: it is, for every sequence
  of commands, when the rows of the file are well-formed with distinct ids; and it is not, when
  they are not well-formed.
-/

namespace Axan.EntryTree

open Axan.Base Axan.LaunchEntryWire

/-- Whether the import succeeds, and the editor after it. Source: `ImportFromToml`, with `_commit` -/
def Editor.importFromToml (ed : Editor) (parse : Bytes → Option Toml.Table) (machine : Machine)
    (fresh : ℕ → WString) (file : Option Bytes) : Bool × Editor :=
  match LaunchEntryWire.importFromToml parse machine fresh file ed.entries with
  | (true, rows) => (true, Editor.commit { ed with entries := rows.map rowFromModel })
  | (false, _) => (false, ed)

/-- The rows once the list view has moved one; `none` when nothing moves. -/
def movedRows (ed : Editor) (i j : ℕ) : Option (List LaunchEntry) :=
  (ed.entries[i]?).bind fun head =>
    (insertAt (ed.entries.eraseIdx i) j head).bind fun after => if j = i then none else some after

/-- The drag of row `i` to `j` moves a row and ends in the branch that restores the last rows
written. Source: `NormalizeAfterDrag`, the check of `IsWellFormed` -/
def restoreTaken (ed : Editor) (i j : ℕ) : Bool :=
  match movedRows ed i j with
  | none => false
  | some after =>
      match droppedRows after j ((depths (nodes ed.entries)).getD i 0) with
      | .error _ => false
      | .ok rows => !isWellFormed (nodes rows)

/-- A drag is the move of the list view and the fix-up. -/
theorem drag_eq (ed : Editor) (i j : ℕ) :
    ed.drag i j =
      match movedRows ed i j with
      | none => .ok ed
      | some after => ed.normalizeDrop after j ((depths (nodes ed.entries)).getD i 0) := by
  rw [Editor.drag, movedRows]
  cases ed.entries[i]? with
  | none => rfl
  | some head =>
      simp only [Option.bind_some]
      cases insertAt (ed.entries.eraseIdx i) j head with
      | none => rfl
      | some after =>
          by_cases hji : j = i
          · simp [hji]
          · simp [hji]

/-- The rows before and after a drag differ by the place of one. -/
theorem movedRows_split {ed : Editor} {i j : ℕ} {after : List LaunchEntry}
    (h : movedRows ed i j = some after) :
    ∃ head x y a b, ed.entries = x ++ head :: y ∧ a ++ b = x ++ y ∧ after = a ++ head :: b ∧
      a.length = j := by
  obtain ⟨head, hi, h⟩ := Option.bind_eq_some_iff.mp h
  obtain ⟨after', hafter, h⟩ := Option.bind_eq_some_iff.mp h
  split at h
  · cases h
  · obtain rfl := Option.some.inj h
    exact ⟨head, drop_split hi hafter⟩

/-- **A drag that moves a row is undone when the branch is taken.** -/
theorem drag_of_restoreTaken {ed : Editor} {i j : ℕ} (h : restoreTaken ed i j = true) :
    ed.drag i j = .ok { ed with entries := ed.committed.map rowFromModel } := by
  rw [restoreTaken] at h
  rw [drag_eq]
  cases hmoved : movedRows ed i j with
  | none =>
      rw [hmoved] at h
      cases h
  | some after =>
      rw [hmoved] at h
      simp only at h ⊢
      rw [normalizeDrop_eq]
      cases hrows : droppedRows after j ((depths (nodes ed.entries)).getD i 0) with
      | error e =>
          rw [hrows] at h
          cases h
      | ok rows =>
          rw [hrows] at h
          have hw : ¬ isWellFormed (nodes rows) = true := by simpa using h
          show Except.ok (if isWellFormed (nodes rows) = true then _ else _) = _
          rw [if_neg hw]

/-- No sequence of commands, each with the ids it draws, leads to a drag that restores. -/
def NeverRestored (ed : Editor) : Prop :=
  ∀ ops ed' i j, FreshRun ed ops → run ed ops = .ok ed' → restoreTaken ed' i j = false

/-! ## Well-formed lists -/

/-- Over a well-formed list the drag is never undone. -/
theorem restoreTaken_of_tree {ed : Editor} (ht : Tree (nodes ed.entries)) (i j : ℕ) :
    restoreTaken ed i j = false := by
  rw [restoreTaken]
  cases hmoved : movedRows ed i j with
  | none => rfl
  | some after =>
      obtain ⟨head, x, y, a, b, hl, hab, rfl, rfl⟩ := movedRows_split hmoved
      obtain ⟨rows, hrows, htr, -⟩ :=
        droppedRows_ok (hl ▸ ht) hab ((depths (nodes ed.entries)).getD i 0)
      simp only [hrows, ((tree_iff _).mp htr).1]
      rfl

/-- Nor is it in any run from there. -/
theorem neverRestored_of_tree {ed : Editor} (ht : Tree (nodes ed.entries)) : NeverRestored ed := by
  intro ops ed' i j hfresh hrun
  rw [← List.append_nil ops] at hfresh
  obtain ⟨ed₁, hrun₁, ht₁, -⟩ := run_ok ht hfresh
  rw [hrun] at hrun₁
  obtain rfl := Except.ok.inj hrun₁
  exact restoreTaken_of_tree ht₁ i j

/-! ## Other lists -/

/-- A row that no other names as its parent changes nothing for them. -/
theorem isWellFormed_cons_root {n : Node} (hp : n.parentId = []) {l : Nodes}
    (h : ∀ m ∈ l, m.parentId ≠ n.id) : isWellFormed (n :: l) = isWellFormed l := by
  apply Bool.eq_iff_iff.mpr
  rw [isWellFormed, wellFormedFrom, isWellFormed, Bool.and_eq_true, wellFormedFrom_iff,
    wellFormedFrom_iff]
  have hlookup : ∀ pre m post, l = pre ++ m :: post →
      ([] ++ [(n.id, n.separator)] ++ flags pre).lookup m.parentId =
        ([] ++ flags pre).lookup m.parentId := by
    intro pre m post hl
    have hne : m.parentId ≠ n.id := h m (by rw [hl]; simp)
    rw [List.nil_append, List.nil_append, List.cons_append, List.nil_append, List.lookup_cons,
      beq_false_of_ne hne]
  constructor
  · rintro ⟨-, hall⟩ pre m post hl
    rw [← hlookup pre m post hl]
    exact hall pre m post hl
  · intro hall
    refine ⟨by simp [hp], fun pre m post hl => ?_⟩
    rw [hlookup pre m post hl]
    exact hall pre m post hl

/-- A round that finds no child of the ids it starts from. -/
theorem closeRound_of_closed {l : Nodes} {s : List WString} {grew : Bool}
    (h : ∀ n ∈ l, n.parentId = [] ∨ n.parentId ∉ s) : closeRound l s grew = (s, grew) := by
  induction l with
  | nil => rfl
  | cons n l ih =>
      have hn : (!n.parentId.isEmpty && s.contains n.parentId && !s.contains n.id) = false := by
        rcases h n List.mem_cons_self with hp | hp
        · simp [hp]
        · simp [hp]
      rw [closeRound, if_neg (Bool.eq_false_iff.mp hn)]
      exact ih fun m hm => h m (List.mem_cons_of_mem _ hm)

/-- A row without children, dropped in front, stays there as a root. -/
theorem normalizeAfterDrag_front {n : Node} {l : Nodes} (hp : n.parentId = [])
    (hchild : ∀ m ∈ l, m.parentId ≠ n.id) (hid : ∀ m ∈ l, m.id ≠ n.id) (oldDepth : ℕ) :
    normalizeAfterDrag (n :: l) 0 oldDepth = .ok (some ⟨⟨[0], 0⟩, []⟩) := by
  have hclose : closeLoop (n :: l) ((n :: l).length + 1) [n.id] = .ok [n.id] := by
    rw [closeLoop, closeRound_of_closed]
    intro m hm
    rcases List.mem_cons.mp hm with rfl | hm
    · exact Or.inl hp
    · exact Or.inr (by simpa using hchild m hm)
  have hout : ∀ m ∈ l, inIds [n.id] m = false := by
    intro m hm
    simpa [inIds] using hid m hm
  have hmask : maskIdx 1 (l.map (inIds [n.id])) = [] := by
    rw [List.eq_nil_iff_forall_not_mem]
    intro k hk
    obtain ⟨i, rfl⟩ := Nat.exists_eq_add_of_le (le_of_mem_maskIdx hk)
    rw [mem_maskIdx_iff, List.getElem?_map, Option.map_eq_some_iff] at hk
    obtain ⟨m, hm, htrue⟩ := hk
    rw [hout m (List.mem_of_getElem? hm)] at htrue
    cases htrue
  have hrest : (l.filter fun m => !inIds [n.id] m) = l :=
    List.filter_eq_self.mpr fun m hm => by simp [hout m hm]
  have hscan := dragScan_eq (show inIds [n.id] n = true by simp [inIds]) [] l
  simp only [List.length_nil, List.map_nil, maskIdx, List.nil_append, hmask, List.filter_nil, hrest,
    anchorOf, if_true] at hscan
  rw [normalizeAfterDrag]
  simp only [List.getElem?_cons_zero, hclose]
  rw [hscan, dragFixup]
  simp only [landingDepth_none]
  rfl

/-- The rows after such a drop. -/
theorem droppedRows_front {e : LaunchEntry} {entries : List LaunchEntry} (hp : e.parentId = [])
    (hchild : ∀ m ∈ nodes entries, m.parentId ≠ e.id) (hid : ∀ m ∈ nodes entries, m.id ≠ e.id)
    (oldDepth : ℕ) : droppedRows (e :: entries) 0 oldDepth = .ok (e :: entries) := by
  have hfix : normalizeAfterDrag (nodes (e :: entries)) 0 oldDepth =
      .ok (some ⟨⟨[0], 0⟩, []⟩) := normalizeAfterDrag_front hp hchild hid oldDepth
  have hself : setParentId e [] = e := by rw [setParentId, ← hp]
  rw [droppedRows, hfix]
  simp [hself, applyBlockMove, pick, removeEach, removeAt, insertRun, insertAt]

/-- An id that occurs nowhere. -/
theorem exists_newId (used : List WString) : ∃ newId : WString, newId ∉ used := by
  obtain ⟨newId, h⟩ := Infinite.exists_notMem_finset used.toFinset
  exact ⟨newId, fun hmem => h (List.mem_toFinset.mpr hmem)⟩

/-- **A list that is not well-formed makes the branch reachable**: add a row and drag it to the
front. -/
theorem exists_restore {ed : Editor} (h : isWellFormed (nodes ed.entries) = false) :
    ¬ NeverRestored ed := by
  intro hnever
  obtain ⟨newId, hnew⟩ :=
    exists_newId ([] :: (ids ed.entries ++ ed.entries.map LaunchEntry.parentId))
  simp only [List.mem_cons, List.mem_append, not_or] at hnew
  obtain ⟨hne, hid, hparent⟩ := hnew
  set e : LaunchEntry := rowFromModel { id := newId, profile := [] } with he
  have hentries : (ed.addEntry newId []).entries = ed.entries ++ [e] := rfl
  have hlen : ed.entries.length ≠ 0 := by
    intro hlen
    rw [List.length_eq_zero_iff.mp hlen] at h
    cases h
  have hmoved : movedRows (ed.addEntry newId []) ed.entries.length 0 = some (e :: ed.entries) := by
    rw [movedRows, hentries, List.getElem?_append_right (le_refl _), Nat.sub_self]
    simp only [List.getElem?_cons_zero, Option.bind_some]
    rw [List.eraseIdx_append_of_length_le (le_refl _), Nat.sub_self]
    simp [insertAt, Ne.symm hlen]
  have hchild : ∀ m ∈ nodes ed.entries, m.parentId ≠ e.id := by
    intro m hm heq
    obtain ⟨r, hr, rfl⟩ := List.mem_map.mp hm
    exact hparent (List.mem_map.mpr ⟨r, hr, heq⟩)
  have hother : ∀ m ∈ nodes ed.entries, m.id ≠ e.id := by
    intro m hm heq
    obtain ⟨r, hr, rfl⟩ := List.mem_map.mp hm
    exact hid (List.mem_map.mpr ⟨r, hr, heq⟩)
  have htaken : restoreTaken (ed.addEntry newId []) ed.entries.length 0 = true := by
    rw [restoreTaken, hmoved]
    simp only [droppedRows_front rfl hchild hother]
    rw [nodes_cons, isWellFormed_cons_root rfl hchild, h]
    rfl
  have hfalse := hnever [.addEntry newId []] (ed.addEntry newId []) ed.entries.length 0
    ⟨⟨hne, hid⟩, fun _ _ => trivial⟩ rfl
  rw [htaken] at hfalse
  cases hfalse

/-! ## Files -/

/-- The rows of a file, as the structural rules see them: the tables of a known kind. -/
def fileNodes (fresh : ℕ → WString) : List Toml.Value → ℕ → Nodes
  | [], _ => []
  | .table t :: vs, drawn =>
      let e := fromTomlTable t
      let id := if e.id.isEmpty then fresh drawn else utf16 e.id
      let rest := fileNodes fresh vs (if e.id.isEmpty then drawn + 1 else drawn)
      if e.knownKind then ⟨id, utf16 e.parentId, e.isSeparator⟩ :: rest else rest
  | _ :: vs, drawn => fileNodes fresh vs drawn

/-- The node of a row that was imported. -/
theorem toNode_importRow (machine : Machine) (e : Entry) (id : WString) :
    toNode (rowFromModel (importRow machine e id)) = ⟨id, utf16 e.parentId, e.isSeparator⟩ := by
  rw [importRow]
  cases hs : e.isSeparator with
  | true => rfl
  | false => rfl

/-- The editor shows the rows of the file. -/
theorem nodes_importRows (machine : Machine) (fresh : ℕ → WString) (vs : List Toml.Value)
    (drawn : ℕ) : nodes ((importRows machine fresh vs drawn).map rowFromModel) =
      fileNodes fresh vs drawn := by
  induction vs generalizing drawn with
  | nil => rfl
  | cons v vs ih =>
      cases v with
      | table t =>
          simp only [importRows, fileNodes]
          by_cases hk : (fromTomlTable t).knownKind = true
          · rw [if_pos hk, if_pos hk, List.map_cons, nodes_cons, toNode_importRow, ih]
          · rw [if_neg hk, if_neg hk, ih]
      | string s => exact ih drawn
      | integer n => exact ih drawn
      | float x => exact ih drawn
      | boolean b => exact ih drawn
      | dateTime text => exact ih drawn
      | array l => exact ih drawn

/-- A text that is not empty has units. -/
theorem utf16_ne_nil {s : List Char} (h : s ≠ []) : utf16 s ≠ [] := by
  intro he
  exact h (eq_of_utf16_eq (by simp) he)

/-- No row of a file is without an id. -/
theorem id_ne_of_mem_fileNodes {fresh : ℕ → WString} (hfresh : ∀ k, fresh k ≠ [])
    {vs : List Toml.Value} {drawn : ℕ} {n : Node} (h : n ∈ fileNodes fresh vs drawn) : n.id ≠ [] := by
  induction vs generalizing drawn with
  | nil => cases h
  | cons v vs ih =>
      cases v with
      | table t =>
          simp only [fileNodes] at h
          by_cases hk : (fromTomlTable t).knownKind = true
          · rw [if_pos hk] at h
            rcases List.mem_cons.mp h with rfl | h
            · by_cases hid : (fromTomlTable t).id.isEmpty = true
              · simp only [if_pos hid]
                exact hfresh drawn
              · simp only [if_neg hid]
                exact utf16_ne_nil (by simpa using hid)
            · exact ih h
          · rw [if_neg hk] at h
            exact ih h
      | string s => exact ih h
      | integer n => exact ih h
      | float x => exact ih h
      | boolean b => exact ih h
      | dateTime text => exact ih h
      | array l => exact ih h

/-- What an accepted file leaves in the editor. -/
theorem nodes_of_accepted {parse : Bytes → Option Toml.Table} {machine : Machine}
    {fresh : ℕ → WString} {file : Bytes} {doc : Toml.Table} {entries : List Toml.Value}
    {ed ed' : Editor} (hdoc : parse file = some doc)
    (htable : doc.lookup tomlTable.toList = some (.array entries))
    (h : ed.importFromToml parse machine fresh (some file) = (true, ed')) :
    nodes ed'.entries = fileNodes fresh entries 0 := by
  have hrows : importDocument machine fresh doc = none ∨
      importDocument machine fresh doc = some (importRows machine fresh entries 0) := by
    rw [importDocument, htable]
    by_cases hversion : ((documentVersion doc).any fun version =>
        decide ((kTomlVersionMax : ℤ) < version)) = true
    · exact Or.inl (if_pos hversion)
    · rw [if_neg hversion]
      by_cases hempty : (importRows machine fresh entries 0).isEmpty = true
      · exact Or.inl (if_pos hempty)
      · exact Or.inr (if_neg hempty)
  rw [Editor.importFromToml, LaunchEntryWire.importFromToml, Option.bind_some, hdoc,
    Option.bind_some] at h
  rcases hrows with hrows | hrows
  · rw [hrows] at h
    cases h
  · rw [hrows] at h
    cases h
    exact nodes_importRows machine fresh entries 0

/-- **Which files make the restoring branch unreachable.** After the import of an accepted file, no
sequence of commands and drags takes the branch if the rows of the file are well-formed with
distinct ids; and some sequence takes it if they are not well-formed. -/
theorem neverRestored_of_file {parse : Bytes → Option Toml.Table} {machine : Machine}
    {fresh : ℕ → WString} (hfresh : ∀ k, fresh k ≠ []) {file : Bytes} {doc : Toml.Table}
    {entries : List Toml.Value} {ed ed' : Editor} (hdoc : parse file = some doc)
    (htable : doc.lookup tomlTable.toList = some (.array entries))
    (h : ed.importFromToml parse machine fresh (some file) = (true, ed')) :
    (isWellFormed (fileNodes fresh entries 0) = true →
        ((fileNodes fresh entries 0).map Node.id).Nodup → NeverRestored ed') ∧
      (isWellFormed (fileNodes fresh entries 0) = false → ¬ NeverRestored ed') := by
  have hnodes := nodes_of_accepted hdoc htable h
  constructor
  · intro hw hd
    apply neverRestored_of_tree
    rw [hnodes, tree_iff]
    refine ⟨hw, hd, fun hmem => ?_⟩
    obtain ⟨n, hn, hid⟩ := List.mem_map.mp hmem
    exact id_ne_of_mem_fileNodes hfresh hn hid
  · intro hw
    apply exists_restore
    rw [hnodes]
    exact hw

/-- Two sessions, as a file. -/
def pairFile (parentId : String) : List Char :=
  ("[[startup-sessions]]\nid = \"a\"\nparent-id = \"" ++ parentId ++
    "\"\n[[startup-sessions]]\nid = \"b\"\n").toList

/-- The tables of the file. -/
def pairTables (parentId : String) : List Toml.Value :=
  [.table [("id".toList, .string "a".toList), ("parent-id".toList, .string parentId.toList)],
    .table [("id".toList, .string "b".toList)]]

/-- The file with an empty parent id is read. -/
theorem parse_pairFile_root : Toml.parseWithReader (utf8 (pairFile "")) =
    some [(tomlTable.toList, .array (pairTables ""))] :=
  Toml.parseWithReader_utf8 _

/-- The file with the id of no row as parent is read. -/
theorem parse_pairFile_gone : Toml.parseWithReader (utf8 (pairFile "gone")) =
    some [(tomlTable.toList, .array (pairTables "gone"))] :=
  Toml.parseWithReader_utf8 _

/-- What was written is read back as it was. -/
theorem restored_eq {rows committed : List LaunchEntry} (h : ∀ m ∈ rows, m.isSeparator = false) :
    (Editor.commit ⟨rows.map rowFromModel, committed⟩).committed.map rowFromModel =
      rows.map rowFromModel := by
  simp only [Editor.commit, List.map_map]
  apply List.map_congr_left
  intro m hm
  have hs : (rowFromModel m).isSeparator = false := h m hm
  simp only [Function.comp_apply, modelFromRow, hs]
  simp [rowFromModel, normalizeSeparatorHeight_idem]

/-- The editor with the rows of the file. -/
def pairEditor (parentId : String) : Editor :=
  Editor.commit ⟨(importRows oneProfile (fun _ => L "{1}") (pairTables parentId) 0).map rowFromModel, []⟩

/-- It is imported as two roots. -/
theorem import_pairFile_root : (⟨[], []⟩ : Editor).importFromToml Toml.parseWithReader oneProfile
    (fun _ => L "{1}") (some (utf8 (pairFile ""))) = (true, pairEditor "") := by
  rw [Editor.importFromToml, LaunchEntryWire.importFromToml, Option.bind_some, parse_pairFile_root]
  rfl

/-- It is imported with a parent that is not there. -/
theorem import_pairFile_gone : (⟨[], []⟩ : Editor).importFromToml Toml.parseWithReader oneProfile
    (fun _ => L "{1}") (some (utf8 (pairFile "gone"))) = (true, pairEditor "gone") := by
  rw [Editor.importFromToml, LaunchEntryWire.importFromToml, Option.bind_some, parse_pairFile_gone]
  rfl

theorem neverRestored_of_file_root : NeverRestored (pairEditor "") :=
  (neverRestored_of_file (fun _ => by decide) parse_pairFile_root List.lookup_cons_self
    import_pairFile_root).1 (by decide) (by decide)

/-- The first session of the file names a parent that is not there. The second one, dragged in
front of it, goes back to where it was. -/
theorem drag_undone_gone :
    (⟨[], []⟩ : Editor).importFromToml Toml.parseWithReader oneProfile (fun _ => L "{1}")
        (some (utf8 (pairFile "gone"))) = (true, pairEditor "gone") ∧
      restoreTaken (pairEditor "gone") 1 0 = true ∧
      (pairEditor "gone").drag 1 0 = .ok (pairEditor "gone") ∧ ¬ NeverRestored (pairEditor "gone") := by
  have hmoved : movedRows (pairEditor "gone") 1 0 =
      some ((pairEditor "gone").entries.rotate 1) := by decide
  have hdropped : droppedRows ((pairEditor "gone").entries.rotate 1) 0 0 =
      .ok ((pairEditor "gone").entries.rotate 1) :=
    droppedRows_front rfl (by decide) (by decide) 0
  have htaken : restoreTaken (pairEditor "gone") 1 0 = true := by
    rw [restoreTaken, hmoved]
    show (match droppedRows ((pairEditor "gone").entries.rotate 1) 0 0 with
      | .error _ => false
      | .ok rows => !isWellFormed (nodes rows)) = true
    rw [hdropped]
    decide
  refine ⟨import_pairFile_gone, htaken, ?_, fun hnever => ?_⟩
  · have hsame : (pairEditor "gone").committed.map rowFromModel = (pairEditor "gone").entries :=
      restored_eq (by decide)
    rw [drag_of_restoreTaken htaken, hsame]
  · have hfalse := hnever [] (pairEditor "gone") 1 0 trivial rfl
    rw [htaken] at hfalse
    cases hfalse

end Axan.EntryTree
