import Axan.Base.TomlFile

/-!
# TOML files of several tables

A file of comments and of tables with distinct plain names is read as the document of its tables.

* `Block` — a table with its name and its lines.
* `readFile_blocks` — the file that is read as blocks behind blanks.
-/

namespace Axan.Base.Toml

/-- A table with its name, and the lines under its header. -/
structure Block where
  name : List Char
  own : List Line
  table : Table

/-- The lines are those of the table, whose keys are distinct, and the name is a plain one. -/
structure Block.Ok (b : Block) : Prop where
  name : '.' ∉ b.name
  own : LinesOf b.own b.table
  keys : (b.table.map Prod.fst).Nodup

/-- The headers of blocks with the lines under them. -/
def blockLines (bs : List Block) : List Line := bs.flatMap fun b => .header false b.name :: b.own

/-- The document of blocks. -/
def blockTables (bs : List Block) : Table := bs.map fun b => (b.name, .table b.table)

/-- The lines of two tables are those of one with the pairs of both. -/
theorem LinesOf.append {xs ys : List Line} {t t' : Table} (h : LinesOf xs t) (h' : LinesOf ys t') :
    LinesOf (xs ++ ys) (t ++ t') := by
  constructor
  · intro x hx
    rcases List.mem_append.mp hx with hx | hx
    · exact h.1 x hx
    · exact h'.1 x hx
  · rw [List.filterMap_append, h.2, h'.2]

variable {bs : List Block}

/-- The lines of blocks are grouped into the blocks. -/
theorem group_blockLines (h : ∀ b ∈ bs, b.Ok) :
    group (blockLines bs ++ [.blank]) = ([], bs.map fun b => ⟨false, b.name, b.table⟩) := by
  induction bs with
  | nil => rfl
  | cons b bs ih =>
      obtain ⟨hhead, hpairs⟩ := (h b List.mem_cons_self).own
      have hrest := ih fun b' hb' => h b' (List.mem_cons_of_mem _ hb')
      rw [blockLines] at hrest
      rw [blockLines, List.flatMap_cons, List.cons_append, List.cons_append, List.append_assoc,
        group, group_append hhead, hrest, hpairs, List.append_nil]
      rfl

/-- Tables with new names are added one behind the other. -/
theorem addFileSections_blocks (h : ∀ b ∈ bs, b.Ok) (hnames : (bs.map Block.name).Nodup) {doc : Table}
    (hnew : ∀ b ∈ bs, doc.lookup b.name = none) :
    addFileSections doc (bs.map fun b => ⟨false, b.name, b.table⟩) =
      some (doc ++ blockTables bs) := by
  induction bs generalizing doc with
  | nil => rw [List.map_nil, addFileSections, blockTables, List.map_nil, List.append_nil]
  | cons b bs ih =>
      obtain ⟨hname, -, hkeys⟩ := h b List.mem_cons_self
      obtain ⟨hfirst, hnames⟩ := List.nodup_cons.mp hnames
      have hadd : addFileSection doc ⟨false, b.name, b.table⟩ =
          some (doc ++ [(b.name, .table b.table)]) := by
        rw [addFileSection, (cutAt_eq_none_iff _).mpr hname]
        simp only [addSection, hkeys, if_true, hnew b List.mem_cons_self, Bool.false_eq_true,
          if_false]
      have hrest : ∀ b' ∈ bs, (doc ++ [(b.name, Value.table b.table)]).lookup b'.name = none := by
        intro b' hb'
        have hne : b'.name ≠ b.name := fun heq => hfirst (heq ▸ List.mem_map_of_mem hb')
        rw [List.lookup_append, hnew b' (List.mem_cons_of_mem _ hb'), Option.none_or,
          List.lookup_cons, beq_eq_false_iff_ne.mpr hne, List.lookup_nil]
      rw [List.map_cons, addFileSections, hadd]
      simp only
      rw [ih (fun b' hb' => h b' (List.mem_cons_of_mem _ hb')) hnames hrest, List.append_assoc]
      rfl

/-- **A file of tables is read as its tables.** -/
theorem readFile_blocks {ls : List (List Char)} {before : List Line} (hls : ∀ l ∈ ls, '\n' ∉ l)
    (hread : ReadAs (ls ++ [[]]) (before ++ (blockLines bs ++ [.blank])))
    (hbefore : ∀ x ∈ before, x = .blank) (h : ∀ b ∈ bs, b.Ok) (hnames : (bs.map Block.name).Nodup) :
    readFile (unlines ls) = some (blockTables bs) := by
  obtain ⟨hblank, hnone⟩ := linesOf_blanks hbefore
  rw [readFile, splitOn_unlines hls, hread.readFileLines]
  simp only
  rw [group_append hblank, hnone, group_blockLines h]
  simp only [List.append_nil, List.isEmpty_nil, if_true]
  rw [addFileSections_blocks h hnames fun _ _ => List.lookup_nil]
  rfl

end Axan.Base.Toml
