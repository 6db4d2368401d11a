import Axan.LinuxToml.Export

/-!
# The keys of a schema in a TOML file

`axan_toml_emit_schema_scalars` writes a line for each key of a schema, and
`axan_toml_import_schema_scalars` reads the table of such lines.

* `emitScalar_spec`, `emitSchemaScalars_spec` — the lines are read as the pairs of `schemaTable`.
  A value that is not set is a comment.
* `written_of_plain` — the literal of a value stands for exactly the value.
* `scalars_restored` — **the table of an export restores every value, over whatever was there
  before**, and importing it again changes nothing.
-/

namespace Axan.LinuxToml

open Axan.Base Axan.Base.Settings

section Format

variable (print : Variant → Text) {S : Schema} {skipKeys : List Text}

/-! ### Lines -/

/-- The value has a literal, or it has none and its line is a comment. -/
def Writable (v : Variant) : Prop := formatVariant print v = [] ∨ ∃ x, written print v = some x

/-- The line of a key. -/
def scalarLine (k : KeySpec) (v : Variant) : Toml.Line :=
  match written print v with
  | some x => .pair k.name x
  | none => .blank

/-- The comment behind a key. -/
def modified (print : Variant → Text) (k : KeySpec) (v : Variant) : Text :=
  if v = k.default then []
  else "  # modified (default: ".toList ++ defStr print k ++ ")".toList

/-- The table that is written. -/
def schemaTable (skipKeys : List Text) (settings : Store S) : Toml.Table :=
  (exportKeys S skipKeys).filterMap fun k =>
    (written print (settings.value k.name)).map fun x => (k.name, x)

variable {print} {k : KeySpec} {v : Variant}

/-- A type may stand in a comment. -/
theorem commentChar_typeString (t : VariantType) :
    (typeString t).toList.all Toml.commentChar = true := by
  cases t with
  | integer t => cases t <;> decide
  | stringTuples width =>
      have hwidth : (List.replicate width 's').all Toml.commentChar = true := by
        rw [List.all_eq_true]
        intro c hc
        rw [(List.mem_replicate.mp hc).2]
        rfl
      simp only [typeString, String.toList_append, String.toList_ofList, List.all_append, hwidth]
      decide
  | _ => decide

theorem commentChar_defStr (hdef : Writable print k.default) :
    (defStr print k).all Toml.commentChar = true := by
  unfold defStr
  rcases hdef with hnil | ⟨x, hx⟩
  · rw [hnil]
    decide
  · rw [if_neg (by simpa using formatVariant_ne_nil hx)]
    exact commentChar_formatVariant hx

/-- The note on a changed value is a comment. -/
theorem modified_spec (hdef : Writable print k.default) (v : Variant) :
    Toml.isTail (modified print k v) = true ∧ (∀ c ∈ (modified print k v).head?, c = ' ') ∧
      (modified print k v).all Toml.commentChar = true := by
  have hcomment := commentChar_defStr hdef
  unfold modified
  split_ifs
  · exact ⟨rfl, by simp, rfl⟩
  · have hsplit : "  # modified (default: ".toList ++ defStr print k ++ ")".toList =
        List.replicate 2 ' ' ++ '#' :: (" modified (default: ".toList ++ defStr print k ++
          ")".toList) := by simp
    have hall : (" modified (default: ".toList ++ defStr print k ++ ")".toList).all
        Toml.commentChar = true := by
      rw [List.all_append, List.all_append, hcomment]
      decide
    rw [hsplit]
    refine ⟨Toml.isTail_comment hall 2, by simp, ?_⟩
    rw [List.all_append, List.all_cons, hall]
    decide

/-- A value that is set has a line of its own. -/
theorem emitScalar_of_written {x : Toml.Value} (hx : written print v = some x) (width : ℕ) :
    emitScalar print width k v =
      padRight width k.name ++ " = ".toList ++ (formatVariant print v ++ modified print k v) := by
  have hne : (formatVariant print v).isEmpty = false := by simpa using formatVariant_ne_nil hx
  simp only [emitScalar, hne, modified, List.append_assoc]
  rfl

/-- One that is not has a comment. -/
theorem emitScalar_of_unset (hnil : formatVariant print v = []) (width : ℕ) :
    emitScalar print width k v = '#' :: (" ".toList ++ padRight width k.name ++
      (" = ?  # unset (type: ".toList ++ ((typeString k.type).toList ++ ")".toList))) := by
  simp [emitScalar, hnil]

/-- Such a value is not written. -/
theorem written_of_unset (hnil : formatVariant print v = []) : written print v = none := by
  cases hx : written print v with
  | none => rfl
  | some x => exact absurd hnil (formatVariant_ne_nil hx)

/-- The line of a key is read back as its value. -/
theorem emitScalar_spec (hdef : Writable print k.default) (hv : Writable print v)
    (hname : k.name.all Toml.bareKeyChar = true) (hne : k.name ≠ []) (width : ℕ) :
    Toml.readFileLine (emitScalar print width k v) = some (scalarLine print k v) ∧
      (emitScalar print width k v).all Toml.commentChar = true := by
  have hpad := commentChar_padRight hname width
  rcases hv with hnil | ⟨x, hx⟩
  · have hall : (" ".toList ++ padRight width k.name ++ (" = ?  # unset (type: ".toList ++
        ((typeString k.type).toList ++ ")".toList))).all Toml.commentChar = true := by
      rw [List.all_append, List.all_append, List.all_append, List.all_append, hpad,
        commentChar_typeString]
      decide
    rw [emitScalar_of_unset hnil, scalarLine, written_of_unset hnil]
    refine ⟨Toml.readFileLine_comment hall, ?_⟩
    rw [List.all_cons, hall]
    decide
  · obtain ⟨htail, hhead, hcomment⟩ := modified_spec hdef v
    rw [emitScalar_of_written hx]
    constructor
    · rw [scalarLine, hx]
      exact readFileLine_padRight width hname hne (readValueRest_formatVariant hx hhead) htail
    · rw [List.all_append, List.all_append, List.all_append, hpad, commentChar_formatVariant hx,
        hcomment]
      decide

/-! ### The table -/

/-- The keys are exported in another order. -/
theorem exportKeys_perm (S : Schema) (skipKeys : List Text) :
    (exportKeys S skipKeys).Perm (S.keys.filter fun k => k.name ∉ skipKeys) :=
  (List.mergeSort_perm _ _).filter _

/-- None is left out but those to skip. -/
theorem mem_exportKeys {S : Schema} {skipKeys : List Text} :
    k ∈ exportKeys S skipKeys ↔ k ∈ S.keys ∧ k.name ∉ skipKeys := by
  rw [(exportKeys_perm S skipKeys).mem_iff, List.mem_filter, decide_eq_true_eq]

theorem nodup_exportKeys (S : Schema) (skipKeys : List Text) :
    ((exportKeys S skipKeys).map KeySpec.name).Nodup := by
  rw [((exportKeys_perm S skipKeys).map _).nodup_iff]
  exact S.nodup.sublist (List.filter_sublist.map _)

section Pairs

variable {f : KeySpec → Option Toml.Value} {keys : List KeySpec}

/-- The pairs keep the order of their keys. -/
theorem fst_pairs_sublist :
    ((keys.filterMap fun k => (f k).map fun x => (k.name, x)).map Prod.fst).Sublist
      (keys.map KeySpec.name) := by
  induction keys with
  | nil => exact List.Sublist.refl _
  | cons k keys ih =>
      cases hk : f k with
      | none =>
          rw [List.filterMap_cons_none (by rw [hk]; rfl)]
          exact ih.cons _
      | some x =>
          rw [List.filterMap_cons_some (by rw [hk]; rfl)]
          exact ih.cons_cons _

/-- Each key is looked up to its own value. -/
theorem lookup_pairs (hnodup : (keys.map KeySpec.name).Nodup) (hk : k ∈ keys) :
    (keys.filterMap fun k => (f k).map fun x => (k.name, x)).lookup k.name = f k := by
  induction keys with
  | nil => cases hk
  | cons k' keys ih =>
      obtain ⟨hnew, hrest⟩ := List.nodup_cons.mp hnodup
      rcases List.mem_cons.mp hk with rfl | hk
      · cases hfk : f k with
        | none =>
            rw [List.filterMap_cons_none (by rw [hfk]; rfl)]
            exact lookup_eq_none fun hmem => hnew (fst_pairs_sublist.subset hmem)
        | some x =>
            rw [List.filterMap_cons_some (by rw [hfk]; rfl)]
            exact List.lookup_cons_self
      · have hne : k.name ≠ k'.name := fun heq => hnew (heq ▸ List.mem_map_of_mem hk)
        cases hfk : f k' with
        | none =>
            rw [List.filterMap_cons_none (by rw [hfk]; rfl)]
            exact ih hrest hk
        | some x =>
            rw [List.filterMap_cons_some (by rw [hfk]; rfl), lookup_cons_of_ne hne]
            exact ih hrest hk

end Pairs

section Table

variable {settings : Store S}

/-- A key of the table is a key of the schema. -/
theorem mem_fst_schemaTable {key : Text}
    (h : key ∈ (schemaTable print skipKeys settings).map Prod.fst) :
    ∃ k ∈ S.keys, k.name ∉ skipKeys ∧ k.name = key := by
  obtain ⟨k, hk, rfl⟩ := List.mem_map.mp (fst_pairs_sublist.subset h)
  obtain ⟨hmem, hskip⟩ := mem_exportKeys.mp hk
  exact ⟨k, hmem, hskip, rfl⟩

/-- No key is in the table twice. -/
theorem nodup_schemaTable : ((schemaTable print skipKeys settings).map Prod.fst).Nodup :=
  (nodup_exportKeys _ _).sublist fst_pairs_sublist

/-- Each has the value that is written. -/
theorem lookup_schemaTable (hk : k ∈ S.keys) (hskip : k.name ∉ skipKeys) :
    (schemaTable print skipKeys settings).lookup k.name = written print (settings.value k.name) :=
  lookup_pairs (nodup_exportKeys _ _) (mem_exportKeys.mpr ⟨hk, hskip⟩)

/-- A key that is written: its name is one of TOML, and its default and its value can be written. -/
structure KeyWritable (print : Variant → Text) (settings : Store S) (k : KeySpec) : Prop where
  bare : k.name.all Toml.bareKeyChar = true
  nonempty : k.name ≠ []
  default : Writable print k.default
  value : Writable print (settings.value k.name)

/-- The lines of a schema are read back one by one. -/
theorem emitSchemaScalars_spec
    (h : ∀ k ∈ S.keys, k.name ∉ skipKeys → KeyWritable print settings k) :
    Toml.ReadAs (emitSchemaScalars print skipKeys settings)
        ((exportKeys S skipKeys).map fun k => scalarLine print k (settings.value k.name)) ∧
      ∀ l ∈ emitSchemaScalars print skipKeys settings, l.all Toml.commentChar = true := by
  have hline : ∀ k ∈ exportKeys S skipKeys, ∀ width,
      Toml.readFileLine (emitScalar print width k (settings.value k.name)) =
          some (scalarLine print k (settings.value k.name)) ∧
        (emitScalar print width k (settings.value k.name)).all Toml.commentChar = true := by
    intro k hk width
    obtain ⟨hmem, hskip⟩ := mem_exportKeys.mp hk
    obtain ⟨hbare, hne, hdef, hvalue⟩ := h k hmem hskip
    exact emitScalar_spec hdef hvalue hbare hne width
  constructor
  · exact Toml.readAs_map fun k hk => (hline k hk _).1
  · intro l hl
    obtain ⟨k, hk, rfl⟩ := List.mem_map.mp hl
    exact (hline k hk _).2

/-- They are the lines of its table. -/
theorem linesOf_scalarLines (print : Variant → Text) (skipKeys : List Text) (settings : Store S) :
    Toml.LinesOf ((exportKeys S skipKeys).map fun k =>
      scalarLine print k (settings.value k.name)) (schemaTable print skipKeys settings) := by
  constructor
  · intro x hx
    obtain ⟨k, -, rfl⟩ := List.mem_map.mp hx
    unfold scalarLine
    split <;> rfl
  · rw [List.filterMap_map, schemaTable]
    apply List.filterMap_congr
    intro k _
    simp only [Function.comp_apply, scalarLine]
    cases written print (settings.value k.name) <;> rfl

end Table

/-! ### Values -/

/-- The types whose values are restored. -/
def isPlain : VariantType → Bool
  | .boolean => true
  | .integer .int32 => true
  | .integer .uint32 => true
  | .string => true
  | .stringArray => true
  | .maybeString => true
  | .maybeBoolean => true
  | _ => false

/-- Is the value set? -/
def isSet : Variant → Bool
  | .maybeString none => false
  | .maybeBoolean none => false
  | _ => true

/-- What is written is set. -/
theorem isSet_of_written {x : Toml.Value} (h : written print v = some x) : isSet v = true := by
  cases v with
  | maybeString s =>
      cases s with
      | none => cases h
      | some s => rfl
  | maybeBoolean b =>
      cases b with
      | none => cases h
      | some b => rfl
  | _ => rfl

/-- Only a maybe key can be unset. -/
theorem eq_of_not_isSet (h : isSet v = false) : v = .maybeString none ∨ v = .maybeBoolean none := by
  cases v with
  | maybeString s =>
      cases s with
      | none => exact Or.inl rfl
      | some s => cases h
  | maybeBoolean b =>
      cases b with
      | none => exact Or.inr rfl
      | some b => cases h
  | _ => cases h

/-- A maybe Boolean has the type of one. -/
theorem type_of_maybeBoolean {t : VariantType} {b : Option Bool}
    (h : (Variant.maybeBoolean b).hasType t = true) : t = .maybeBoolean := by
  cases t with
  | maybeBoolean => rfl
  | _ => cases h

/-- The integers of the keys are read as themselves. -/
theorem natAbs_lt_of_plain {t : VariantType} (ht : isPlain t = true) {t' : IntType} {n : ℤ}
    (hv : (Variant.integer t' n).hasType t = true) : n.natAbs < 2 ^ 63 := by
  cases t with
  | integer t =>
      simp only [Variant.hasType, Bool.and_eq_true, decide_eq_true_eq] at hv
      obtain ⟨⟨rfl, hlo⟩, hhi⟩ := hv
      cases t' with
      | int32 =>
          simp only [IntType.lo, IntType.hi] at hlo hhi
          omega
      | uint32 =>
          simp only [IntType.lo, IntType.hi] at hlo hhi
          omega
      | int64 => cases ht
      | uint64 => cases ht
  | _ => cases hv

/-- The literal of a value stands for exactly the value. -/
theorem written_of_plain (print : Variant → Text) {t : VariantType} (ht : isPlain t = true)
    (hv : v.hasType t = true) (hset : isSet v = true) :
    ∃ x, written print v = some x ∧ Exact x v := by
  cases v with
  | boolean b => cases b <;> exact ⟨_, rfl, rfl⟩
  | integer t' n => exact ⟨_, readWord_printInteger (natAbs_lt_of_plain ht hv), rfl⟩
  | string s => exact ⟨_, rfl, rfl⟩
  | maybeString s =>
      cases s with
      | none => cases hset
      | some s => exact ⟨_, rfl, rfl⟩
  | maybeBoolean b =>
      cases b with
      | none => cases hset
      | some b => cases b <;> exact ⟨_, rfl, rfl⟩
  | stringArray l => exact ⟨_, rfl, rfl⟩
  | double x =>
      cases t with
      | double => cases ht
      | _ => cases hv
  | stringTuples rows =>
      cases t with
      | stringTuples width => cases ht
      | _ => cases hv
  | other text =>
      cases t with
      | other => cases ht
      | _ => cases hv

/-- A plain value can be written. -/
theorem writable_of_plain (print : Variant → Text) {t : VariantType} (ht : isPlain t = true)
    (hv : v.hasType t = true) : Writable print v := by
  cases hset : isSet v with
  | true =>
      obtain ⟨x, hx, -⟩ := written_of_plain print ht hv hset
      exact Or.inr ⟨x, hx⟩
  | false =>
      left
      rcases eq_of_not_isSet hset with rfl | rfl <;> rfl

/-- What is written for a value is read as the value. -/
theorem tomlToVariant_of_plain {t : VariantType} (ht : isPlain t = true) (hv : v.hasType t = true)
    {x : Toml.Value} (hx : written print v = some x) : tomlToVariant x t = some v := by
  obtain ⟨y, hy, hexact⟩ := written_of_plain print ht hv (isSet_of_written hx)
  obtain rfl := Option.some.inj (hx.symm.trans hy)
  apply tomlToVariant_of_exact hv hexact
  rintro width rfl
  cases ht

/-! ### Restoring the values -/

/-- A key of a schema: a bare name, one of the types, and a default of the type. -/
structure KeyPlain (k : KeySpec) : Prop where
  bare : k.name.all Toml.bareKeyChar = true
  nonempty : k.name ≠ []
  type : isPlain k.type = true
  default : k.default.hasType k.type = true

/-- What the import of a table comes to: every key that is not left out has the value of
`settings`, the others keep theirs, and the same table once more changes nothing. -/
structure Restores (skipKeys : List Text) (tbl : Toml.Table) (settings : Store S)
    (before : Delayed S) (changedKeys : List Text) : Prop where
  ok : (importSchemaScalars skipKeys tbl before changedKeys).error = none
  restored : ∀ k ∈ S.keys, k.name ∉ skipKeys →
    (importSchemaScalars skipKeys tbl before changedKeys).settings.getValue k.name =
      settings.value k.name
  kept : ∀ k ∈ S.keys, k.name ∈ skipKeys →
    (importSchemaScalars skipKeys tbl before changedKeys).settings.getValue k.name =
      before.getValue k.name
  again : ∀ d : Delayed S,
    d.current = (importSchemaScalars skipKeys tbl before changedKeys).settings.current →
    importSchemaScalars skipKeys tbl d [] = ⟨d, [], none⟩

section Restore

variable (hplain : ∀ k ∈ S.keys, k.name ∉ skipKeys → KeyPlain k) (settings : Store S)

include hplain

/-- So can the key of a plain schema. -/
theorem keyWritable_of_plain (print : Variant → Text) :
    ∀ k ∈ S.keys, k.name ∉ skipKeys → KeyWritable print settings k := by
  intro k hk hskip
  obtain ⟨hbare, hne, ht, hdef⟩ := hplain k hk hskip
  exact
    { bare := hbare
      nonempty := hne
      default := writable_of_plain print ht hdef
      value := writable_of_plain print ht (Bool.and_eq_true_iff.mp (settings.accepted k hk)).1 }

/-- No key of the table has a NUL. -/
theorem nulFree_schemaTable (print : Variant → Text) :
    ∀ key ∈ (schemaTable print skipKeys settings).map Prod.fst, nulFree key = true := by
  intro key hkey
  obtain ⟨k, hk, hskip, rfl⟩ := mem_fst_schemaTable hkey
  exact nulFree_of_all (by decide) (hplain k hk hskip).bare

section Parsed

-- the table that a parser makes of the lines
variable {tbl : Toml.Table} (htbl : Toml.MapOf (schemaTable print skipKeys settings) tbl)

include htbl

/-- The keys that are read are those that were written, and so none has a NUL. -/
theorem unaliased_of_mapOf : Unaliased S skipKeys tbl :=
  unaliased_of_nulFree fun _ hkey => nulFree_schemaTable hplain settings print _ (htbl.mem_fst hkey)

/-- What the import reads was written, and is the value. -/
theorem tomlToVariant_of_read {x : Toml.Value} (h : Read S skipKeys tbl k x) :
    isSet (settings.value k.name) = true ∧
      tomlToVariant x k.type = some (settings.value k.name) := by
  obtain ⟨hk, hskip, hlookup⟩ := h
  obtain ⟨y, hy, hsame⟩ := htbl.same.exists_lookup hlookup
  rw [lookup_schemaTable hk hskip] at hy
  rw [← tomlToVariant_same hsame]
  exact ⟨isSet_of_written hy, tomlToVariant_of_plain (hplain k hk hskip).type
    (Bool.and_eq_true_iff.mp (settings.accepted k hk)).1 hy⟩

/-- A value that is set is read. -/
theorem exists_read_of_isSet (hk : k ∈ S.keys) (hskip : k.name ∉ skipKeys)
    (hset : isSet (settings.value k.name) = true) : ∃ x, Read S skipKeys tbl k x := by
  obtain ⟨y, hy, -⟩ := written_of_plain print (hplain k hk hskip).type
    (Bool.and_eq_true_iff.mp (settings.accepted k hk)).1 hset
  obtain ⟨x, hx, -⟩ := htbl.same.lookup_some ((lookup_schemaTable hk hskip).trans hy)
  exact ⟨x, hk, hskip, hx⟩

/-- A table of the schema is imported without an error. -/
theorem importSchemaScalars_mapOf_error (before : Delayed S) (changedKeys : List Text) :
    (importSchemaScalars skipKeys tbl before changedKeys).error = none := by
  refine (importSchemaScalars_error_iff htbl.nodup (unaliased_of_mapOf hplain settings htbl) _ _).mpr
    fun k x h => ?_
  rw [(tomlToVariant_of_read hplain settings htbl h).2]
  rfl

end Parsed

variable (hset : ∀ k ∈ S.keys, k.name ∉ skipKeys → isSet (settings.value k.name) = true)

include hset

/-- And it restores the settings it was written from. -/
theorem restores_of_mapOf {tbl : Toml.Table}
    (htbl : Toml.MapOf (schemaTable print skipKeys settings) tbl) (before : Delayed S)
    (changedKeys : List Text) : Restores skipKeys tbl settings before changedKeys := by
  have halias := unaliased_of_mapOf hplain settings htbl
  have hread {k : KeySpec} {x : Toml.Value} (h : Read S skipKeys tbl k x) :=
    (tomlToVariant_of_read hplain settings htbl h).2
  have hok := importSchemaScalars_mapOf_error hplain settings htbl before changedKeys
  have hrestored : ∀ k ∈ S.keys, k.name ∉ skipKeys →
      (importSchemaScalars skipKeys tbl before changedKeys).settings.getValue k.name =
        settings.value k.name := by
    intro k hk hskip
    obtain ⟨x, hpair⟩ := exists_read_of_isSet hplain settings htbl hk hskip (hset k hk hskip)
    rw [(importSchemaScalars_read htbl.nodup halias hpair (hread hpair) _ _ hok).1,
      if_pos (settings.accepted k hk)]
  refine ⟨hok, hrestored, ?_, ?_⟩
  · intro k hk hskip
    refine (importSchemaScalars_unread htbl.nodup halias ?_ _ _ hok).1
    rintro k' x ⟨-, hskip', -⟩ heq
    exact hskip' (heq ▸ hskip)
  · intro d hd
    apply importSchemaScalars_current htbl.nodup halias
    intro k x h
    rw [hread h, Delayed.getValue, hd]
    exact congrArg some (hrestored k h.1 h.2.1).symm

/-- **An export restores every value.** A parser of TOML reads the file of a table as one table, and
its import brings the values back over any state; importing it again, over what the first import
left, reports no key. -/
theorem scalars_restored (print : Variant → Text) {name : Text}
    (hname : name.all Toml.bareKeyChar = true) (hne : name ≠ []) {parse : Bytes → Parsed}
    (hparse : Toml.AgreesWithFileReader TomlFile.root parse) :
    ∃ file tbl, parse (utf8 (Toml.unlines
        (('[' :: (name ++ [']'])) :: emitSchemaScalars print skipKeys settings))) = .ok file ∧
      file.root.lookup name = some (.table tbl) ∧
      (∀ key, key ≠ name → file.root.lookup key = none) ∧
      ∀ (before : Delayed S) (changedKeys : List Text),
        Restores skipKeys tbl settings before changedKeys := by
  have hwritable := keyWritable_of_plain hplain settings print
  obtain ⟨hlines, hcomment⟩ := emitSchemaScalars_spec hwritable
  have hbare := Toml.commentChar_bareKey hname
  have hplainLines : ∀ l ∈ ('[' :: (name ++ [']'])) :: emitSchemaScalars print skipKeys settings,
      '\n' ∉ l := by
    intro l hl
    apply Toml.not_mem_of_all (p := Toml.commentChar) (by decide)
    rcases List.mem_cons.mp hl with rfl | hl
    · rw [List.all_cons, List.all_append, hbare]
      decide
    · exact hcomment l hl
  have hread := Toml.readFile_table (Toml.not_mem_of_all (by decide) hname) hplainLines
    (List.Forall₂.cons (Toml.readFileLine_header hname hne)
      (hlines.append (.cons rfl .nil)))
    (linesOf_scalarLines print skipKeys settings) nodup_schemaTable
  obtain ⟨file, hfile, hroot⟩ := hparse _ _ hread
  obtain ⟨v, hv, hsame⟩ := hroot.lookup_some List.lookup_cons_self
  obtain ⟨tbl, rfl, htbl⟩ := hsame.exists_table
  refine ⟨file, tbl, hfile, hv, fun key hkey => hroot.lookup_none ?_,
    restores_of_mapOf hplain settings hset ⟨htbl, file.distinct _ _ hv⟩⟩
  rw [lookup_cons_of_ne hkey, List.lookup_nil]

end Restore

end Format

/-! ### The settings with a header bar -/

def kHeaderbar : Text := "headerbar".toList

/-- The header bar is a key of the settings. -/
theorem headerbar_mem : maybeFlag "headerbar" ∈ settingsSchema.keys := by
  simp [settingsSchema]

/-- All keys of the settings are plain. -/
theorem settings_plain : ∀ k ∈ settingsSchema.keys, KeyPlain k := by
  have hall : ∀ k ∈ settingsSchema.keys, (k.name.all Toml.bareKeyChar = true ∧ k.name ≠ []) ∧
      isPlain k.type = true ∧ k.default.hasType k.type = true := by decide
  intro k hk
  obtain ⟨⟨hbare, hne⟩, ht, hdef⟩ := hall k hk
  exact ⟨hbare, hne, ht, hdef⟩

/-- The settings at their defaults, with a header bar. -/
def headerbarSettings : Store settingsSchema :=
  (Store.ofDefaults _ settingsSchema_defaults).setValue kHeaderbar (.maybeBoolean (some true))

/-- In the witness all of them are set. -/
theorem headerbarSettings_set :
    ∀ k ∈ settingsSchema.keys, isSet (headerbarSettings.value k.name) = true := by
  intro k hk
  by_cases hname : k.name = kHeaderbar
  · have hvalue : headerbarSettings.value kHeaderbar = .maybeBoolean (some true) :=
      Store.setValue_self _ headerbar_mem (.maybeBoolean (some true))
    rw [hname, hvalue]
    rfl
  · have hdefault : ∀ k ∈ settingsSchema.keys, k.name ≠ kHeaderbar → isSet k.default = true := by
      decide
    rw [headerbarSettings, Store.setValue_of_ne _ _ hname, Store.ofDefaults_value _ hk]
    exact hdefault k hk hname

/-- The settings with a header bar, imported over the defaults. -/
theorem headerbarSettings_restored :
    ∃ file tbl, parseFile (utf8 (Toml.unlines (('[' :: ("settings".toList ++ [']'])) ::
        emitSchemaScalars (fun _ => []) [] headerbarSettings))) = .ok file ∧
      file.root.lookup "settings".toList = some (.table tbl) ∧
      (∀ key, key ≠ "settings".toList → file.root.lookup key = none) ∧
      Restores [] tbl headerbarSettings (.delay Dconf.fresh.settings) [] := by
  have hname : "settings".toList.all Toml.bareKeyChar = true ∧ "settings".toList ≠ [] := by decide
  obtain ⟨file, tbl, hfile, hroot, hother, hrestores⟩ :=
    scalars_restored (fun k hk _ => settings_plain k hk) headerbarSettings
      (fun k hk _ => headerbarSettings_set k hk) (fun _ => []) hname.1 hname.2
      agreesWithFileReader_parseFile
  exact ⟨file, tbl, hfile, hroot, hother, hrestores _ _⟩

end Axan.LinuxToml
