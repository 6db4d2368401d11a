import Axan.Base.Double
import Axan.Base.Pairs
import Axan.Base.Toml

/-!
# TOML documents

The values of a TOML document, and a reader for a part of TOML 1.0: lines with a comment, a table
header `[name]`, an array-of-tables header `[[name]]` or a pair `key = value`, where keys are bare
and values are basic strings, decimal integers and floats, booleans and arrays of basic strings
on one line. The part has no pairs in front of the first header.

* `Value`, `Table` — what a parser returns; `SameValue`, `SameTable`, `MapOf` — the same up to the
  order of keys, as a parser may keep its tables in another order than the file has (`toml::table`
  is sorted).
* `readLine`, `group`, `readDocument` — the reader. It refuses what is not in the part, and what
  TOML forbids in it: a key given twice, a table given twice, a table and an array of one name.
* `readLine_pair`, `readLine_header`, `splitOn_unlines`, `group_section` — how the reader acts on
  text that is put together line by line.
* `AgreesWithReader` — what is assumed of a parser of all of TOML.
-/

namespace Axan.Base.Toml

/-! ## Values -/

/-- A TOML value. -/
inductive Value where
  | string (s : List Char)
  | integer (n : ℤ)
  | float (x : Double)
  | boolean (b : Bool)
  /-- Dates and times, as they are written. -/
  | dateTime (text : List Char)
  | array (vs : List Value)
  | table (kvs : List (List Char × Value))

/-- The pairs of a table, in the order of the file. -/
abbrev Table := List (List Char × Value)

/-- The same value, when tables are maps. -/
inductive SameValue : Value → Value → Prop where
  | refl (v : Value) : SameValue v v
  | array {vs ws : List Value} (h : List.Forall₂ SameValue vs ws) : SameValue (.array vs) (.array ws)
  | table {t u : Table} (h : ∀ key, Option.Rel SameValue (t.lookup key) (u.lookup key)) :
      SameValue (.table t) (.table u)

/-- The same table, as a map. -/
def SameTable (t u : Table) : Prop := ∀ key, Option.Rel SameValue (t.lookup key) (u.lookup key)

/-- A value that is there or not is the same as itself. -/
theorem sameValue_optionRefl (v : Option Value) : Option.Rel SameValue v v := by
  cases v with
  | none => exact .none
  | some v => exact .some (.refl v)

/-- A table is the same as itself. -/
theorem SameTable.refl (t : Table) : SameTable t t := fun key => sameValue_optionRefl (t.lookup key)

/-- So is a list of values. -/
theorem SameValue.forall₂_refl (vs : List Value) : List.Forall₂ SameValue vs vs :=
  List.forall₂_same.mpr fun v _ => .refl v

/-- What is the same as an array is an array of the same values. -/
theorem SameValue.exists_array {vs : List Value} {w : Value} (h : SameValue (.array vs) w) :
    ∃ ws, w = .array ws ∧ List.Forall₂ SameValue vs ws := by
  cases h with
  | refl => exact ⟨vs, rfl, SameValue.forall₂_refl vs⟩
  | array h => exact ⟨_, rfl, h⟩

/-- What is the same as a table is the same table. -/
theorem SameValue.exists_table {t : Table} {w : Value} (h : SameValue (.table t) w) :
    ∃ u, w = .table u ∧ SameTable t u := by
  cases h with
  | refl => exact ⟨t, rfl, SameTable.refl t⟩
  | table h => exact ⟨_, rfl, h⟩

section Same

variable {t u : Table} {key : List Char}

/-- A key has the same value in both. -/
theorem SameTable.lookup_some (h : SameTable t u) {v : Value} (hv : t.lookup key = some v) :
    ∃ w, u.lookup key = some w ∧ SameValue v w := by
  have hkey := h key
  rw [hv] at hkey
  cases hw : u.lookup key with
  | none =>
      rw [hw] at hkey
      cases hkey
  | some w =>
      rw [hw] at hkey
      cases hkey with
      | some hsame => exact ⟨w, rfl, hsame⟩

/-- A key that the second table has is one of the first. -/
theorem SameTable.exists_lookup (h : SameTable t u) {w : Value} (hw : u.lookup key = some w) :
    ∃ v, t.lookup key = some v ∧ SameValue v w := by
  have hkey := h key
  rw [hw] at hkey
  cases hv : t.lookup key with
  | none =>
      rw [hv] at hkey
      cases hkey
  | some v =>
      rw [hv] at hkey
      cases hkey with
      | some hsame => exact ⟨v, rfl, hsame⟩

/-- The same table has no other keys. -/
theorem SameTable.lookup_none (h : SameTable t u) (hv : t.lookup key = none) :
    u.lookup key = none := by
  cases hw : u.lookup key with
  | none => rfl
  | some w =>
      obtain ⟨v, hv', -⟩ := h.exists_lookup hw
      rw [hv] at hv'
      cases hv'

/-- `u` is `t` as a map: it has the same values, and each key once. -/
structure MapOf (t u : Table) : Prop where
  same : SameTable t u
  nodup : (u.map Prod.fst).Nodup

/-- A map has no other keys. -/
theorem MapOf.mem_fst (h : MapOf t u) (hkey : key ∈ u.map Prod.fst) : key ∈ t.map Prod.fst := by
  obtain ⟨⟨key, w⟩, hmem, rfl⟩ := List.mem_map.mp hkey
  obtain ⟨v, hv, -⟩ := h.same.exists_lookup (lookup_of_mem h.nodup hmem)
  exact List.mem_map.mpr ⟨_, mem_of_lookup hv, rfl⟩

end Same

/-! ## The reader -/

/-- `unquoted-key = 1*( ALPHA / DIGIT / %x2D / %x5F )` -/
def bareKeyChar (c : Char) : Bool := c.isAlphanum || c = '-' || c = '_'

/-- `non-eol = %x09 / %x20-7E / non-ascii` -/
def commentChar (c : Char) : Bool := c = '\t' || (0x20 ≤ c.toNat && c.toNat ≠ 0x7F)

/-- The number decimal digits stand for. -/
def decimal (ds : List Char) : ℕ := ds.foldl (fun n d => 10 * n + (d.toNat - 0x30)) 0

/-- Digits without a leading zero. -/
def isDecimal (ds : List Char) : Bool :=
  !ds.isEmpty && ds.all Char.isDigit && (ds.length = 1 || ds.head? ≠ some '0')

/-- An integer of 64 bits. -/
def readInteger (t : List Char) : Option ℤ :=
  if isDecimal t && decimal t < 2 ^ 63 then some (decimal t) else none

/-- The length of the longest number in the part; parsers bound it (`max_history_length`). -/
def maxNumberLength : ℕ := 128

/-- A float with a fraction and no exponent. -/
def readFloat (t : List Char) : Option Double :=
  match cutAt '.' t with
  | none => none
  | some (whole, frac) =>
      if isDecimal whole && !frac.isEmpty && frac.all Char.isDigit && t.length ≤ maxNumberLength then
        some (Double.ofRat (decimal (whole ++ frac) / 10 ^ frac.length))
      else none

/-- A number. -/
def readNumber (t : List Char) : Option Value :=
  ((readInteger t).map .integer).or ((readFloat t).map .float)

/-- The texts of basic strings separated by `, ` and closed by `]`, at most `n` of them. -/
def readStrings : ℕ → List Char → Option (List (List Char))
  | 0, _ => none
  | _ + 1, [] => none
  | n + 1, c :: t =>
      if c = '"' then
        match readBody .plain t with
        | none => none
        | some (v, rest) =>
            if rest = [']'] then some [v]
            else if rest.take 2 = [',', ' '] then (readStrings n (rest.drop 2)).map (v :: ·)
            else none
      else none

/-- The value a text stands for. -/
def readValue : List Char → Option Value
  | [] => none
  | c :: t =>
      if c = '"' then
        match readBody .plain t with
        | some (v, []) => some (.string v)
        | _ => none
      else if c = '[' then
        if t = [']'] then some (.array [])
        else (readStrings t.length t).map fun vs => .array (vs.map .string)
      else if c :: t = "true".toList then some (.boolean true)
      else if c :: t = "false".toList then some (.boolean false)
      else readNumber (c :: t)

/-- A line of the file. -/
inductive Line where
  | blank
  | header (array : Bool) (name : List Char)
  | pair (key : List Char) (value : Value)

/-- Is the line blank? -/
def Line.isBlank : Line → Bool
  | .blank => true
  | _ => false

/-- A bare key up to the end of a header. -/
def readName (close t : List Char) : Option (List Char) :=
  if !(t.takeWhile bareKeyChar).isEmpty && t.dropWhile bareKeyChar = close then
    some (t.takeWhile bareKeyChar)
  else none

/-- A header without its first bracket. -/
def readHeader : List Char → Option Line
  | [] => none
  | c :: t =>
      if c = '[' then (readName [']', ']'] t).map (.header true)
      else (readName [']'] (c :: t)).map (.header false)

/-- `keyval = key keyval-sep val` -/
def readPair (l : List Char) : Option Line :=
  match (l.dropWhile bareKeyChar).dropWhile (· = ' ') with
  | [] => none
  | c :: t =>
      if c = '=' && !(l.takeWhile bareKeyChar).isEmpty then
        (readValue (t.dropWhile (· = ' '))).map (.pair (l.takeWhile bareKeyChar))
      else none

/-- One line. -/
def readLine : List Char → Option Line
  | [] => some .blank
  | c :: t =>
      if c = '#' then if t.all commentChar then some .blank else none
      else if c = '[' then readHeader t
      else readPair (c :: t)

/-- All lines. -/
def readLines : List (List Char) → Option (List Line)
  | [] => some []
  | l :: ls =>
      match readLine l with
      | none => none
      | some x => (readLines ls).map (x :: ·)

/-- A header with the pairs under it. -/
structure Section where
  array : Bool
  name : List Char
  pairs : Table

/-- The pairs in front of the first header, and the sections. -/
def group : List Line → Table × List Section
  | [] => ([], [])
  | .blank :: ls => group ls
  | .pair k v :: ls => ((k, v) :: (group ls).1, (group ls).2)
  | .header array name :: ls => ([], ⟨array, name, (group ls).1⟩ :: (group ls).2)

/-- Is the value a table? -/
def Value.isTable : Value → Bool
  | .table _ => true
  | _ => false

/-- An array that headers have made: the arrays of values in the part hold no tables. -/
def isTableArray (vs : List Value) : Bool := !vs.isEmpty && vs.all Value.isTable

/-- Add a section to the document. -/
def addSection (doc : Table) (s : Section) : Option Table :=
  if (s.pairs.map Prod.fst).Nodup then
    match doc.lookup s.name with
    | none =>
        if s.array then some (doc ++ [(s.name, .array [.table s.pairs])])
        else some (doc ++ [(s.name, .table s.pairs)])
    | some (.array vs) =>
        if s.array && isTableArray vs then
          some (doc.map fun kv =>
            if kv.1 = s.name then (kv.1, .array (vs ++ [.table s.pairs])) else kv)
        else none
    | some _ => none
  else none

/-- Add sections one after another. -/
def addSections : Table → List Section → Option Table
  | doc, [] => some doc
  | doc, s :: ss =>
      match addSection doc s with
      | none => none
      | some doc' => addSections doc' ss

/-- The document a text stands for, when it is in the part. -/
def readDocument (t : List Char) : Option Table :=
  match readLines (t.splitOn '\n') with
  | none => none
  | some ls => if (group ls).1.isEmpty then addSections [] (group ls).2 else none

/-- A parser that reads the UTF-8 form of every text of the part as the reader does, up to the order
of keys. -/
def AgreesWithReader (parse : Bytes → Option Table) : Prop :=
  ∀ t doc, readDocument t = some doc → ∃ doc', parse (utf8 t) = some doc' ∧ SameTable doc doc'

/-- The reader itself, on bytes. -/
def parseWithReader (b : Bytes) : Option Table :=
  match utf8Decode b with
  | none => none
  | some t => readDocument t

theorem parseWithReader_utf8 (t : List Char) : parseWithReader (utf8 t) = readDocument t := by
  rw [parseWithReader, utf8Decode_utf8]

/-- The reader agrees with itself. -/
theorem agreesWithReader_parseWithReader : AgreesWithReader parseWithReader :=
  fun t doc h => ⟨doc, (parseWithReader_utf8 t).trans h, SameTable.refl doc⟩

/-! ## Reading what is written line by line -/

/-- Lines as one text. -/
def unlines (ls : List (List Char)) : List Char := ls.flatMap fun l => l ++ ['\n']

/-- Lines are written one after the other. -/
theorem unlines_append (ls ls' : List (List Char)) :
    unlines (ls ++ ls') = unlines ls ++ unlines ls' := List.flatMap_append

/-- The text of lines is split into them. -/
theorem splitOn_unlines {ls : List (List Char)} (h : ∀ l ∈ ls, '\n' ∉ l) :
    (unlines ls).splitOn '\n' = ls ++ [[]] := by
  induction ls with
  | nil => rfl
  | cons l ls ih =>
      have hrest := ih fun l' hl' => h l' (List.mem_cons_of_mem _ hl')
      rw [unlines, List.flatMap_cons, List.append_assoc, List.singleton_append,
        List.splitOn_append_cons_self_of_not_mem (h l List.mem_cons_self)]
      exact congrArg _ hrest

/-- Lines are read part by part. -/
theorem readLines_append {ls ls' : List (List Char)} {xs xs' : List Line}
    (h : readLines ls = some xs) (h' : readLines ls' = some xs') :
    readLines (ls ++ ls') = some (xs ++ xs') := by
  induction ls generalizing xs with
  | nil =>
      cases h
      exact h'
  | cons l ls ih =>
      rw [readLines] at h
      rw [List.cons_append, readLines]
      cases hl : readLine l with
      | none =>
          rw [hl] at h
          cases h
      | some x =>
          rw [hl] at h
          obtain ⟨ys, hys, rfl⟩ := Option.map_eq_some_iff.mp h
          simp only [ih hys, Option.map_some, List.cons_append]

/-- Lines that are read one by one. -/
theorem readLines_map {α : Type} {l : List α} {f : α → List Char} {g : α → Line}
    (h : ∀ a ∈ l, readLine (f a) = some (g a)) : readLines (l.map f) = some (l.map g) := by
  induction l with
  | nil => rfl
  | cons a l ih =>
      rw [List.map_cons, readLines, h a List.mem_cons_self]
      simp only [ih fun b hb => h b (List.mem_cons_of_mem _ hb), Option.map_some, List.map_cons]

/-- A basic string is read as a string. -/
theorem readValue_basicString {t v : List Char} (h : BasicString t v) :
    readValue t = some (.string v) := by
  obtain ⟨body, rfl, hb⟩ := h
  rw [readValue, if_pos rfl, readBody_of_body hb []]

/-- The strings of an array are read in their order. -/
theorem readStrings_eq {ts vs : List (List Char)} (h : List.Forall₂ BasicString ts vs)
    (hne : ts ≠ []) {n : ℕ} (hn : ts.length ≤ n) :
    readStrings n ([',', ' '].intercalate ts ++ [']']) = some vs := by
  induction h generalizing n with
  | nil => exact absurd rfl hne
  | @cons t v ts vs ht hrest ih =>
      obtain ⟨body, rfl, hb⟩ := ht
      obtain ⟨n, rfl⟩ : ∃ k, n = k + 1 := ⟨n - 1, by simp at hn; omega⟩
      cases ts with
      | nil =>
          cases hrest
          rw [List.intercalate_singleton, List.cons_append, readStrings, if_pos rfl,
            List.append_assoc, List.singleton_append, readBody_of_body hb]
          rfl
      | cons t' ts =>
          have hlen : (t' :: ts).length ≤ n := by simpa using hn
          have htext : [',', ' '].intercalate (('"' :: (body ++ ['"'])) :: t' :: ts) ++ [']'] =
              '"' :: (body ++ '"' :: ',' :: ' ' :: ([',', ' '].intercalate (t' :: ts) ++ [']'])) := by
            rw [List.intercalate_cons_cons]
            simp
          have hmore := ih (by simp) hlen
          rw [htext, readStrings, if_pos rfl, readBody_of_body hb]
          simp [hmore]

/-- Every string has a character in the array. -/
theorem length_le_intercalate (ts : List (List Char)) :
    ts.length ≤ ([',', ' '].intercalate ts ++ [']']).length := by
  induction ts with
  | nil => simp
  | cons t ts ih =>
      cases ts with
      | nil => simp
      | cons t' ts =>
          rw [List.intercalate_cons_cons]
          simp only [List.length_append, List.length_cons, List.length_nil] at ih ⊢
          omega

/-- An array of basic strings. -/
theorem readValue_strings {ts vs : List (List Char)} (h : List.Forall₂ BasicString ts vs)
    (hne : ts ≠ []) :
    readValue ('[' :: ([',', ' '].intercalate ts ++ [']'])) = some (.array (vs.map .string)) := by
  have hread := readStrings_eq h hne (length_le_intercalate ts)
  have hopen : [',', ' '].intercalate ts ++ [']'] ≠ [']'] := by
    intro he
    rw [he] at hread
    cases hread
  rw [readValue, if_neg (by decide), if_pos rfl, if_neg hopen, hread]
  rfl

/-- A line that is blank. -/
theorem eq_blank_of_isBlank {x : Option Line} (h : x.any Line.isBlank = true) :
    x = some .blank := by
  match x, h with
  | some .blank, _ => rfl

/-- Blank lines in front of a group do not matter. -/
theorem group_blanks (n : ℕ) (ls : List Line) :
    group (List.replicate n .blank ++ ls) = group ls := by
  induction n with
  | zero => rfl
  | succ n ih =>
      rw [List.replicate_succ, List.cons_append, group, ih]

/-- A run ends at the first other character. -/
theorem takeWhile_append_cons {p : Char → Bool} {k t : List Char} {c : Char}
    (hk : k.all p = true) (hc : p c = false) :
    (k ++ c :: t).takeWhile p = k ∧ (k ++ c :: t).dropWhile p = c :: t := by
  rw [List.all_eq_true] at hk
  constructor
  · rw [List.takeWhile_append_of_pos hk, List.takeWhile_cons_of_neg (by simp [hc]), List.append_nil]
  · rw [List.dropWhile_append_of_pos hk, List.dropWhile_cons_of_neg (by simp [hc])]

/-- The spaces end where the text starts. -/
theorem dropWhile_spaces {n : ℕ} {t : List Char} (h : t.head? ≠ some ' ') :
    (List.replicate n ' ' ++ t).dropWhile (· = ' ') = t := by
  have hspaces : ∀ c ∈ List.replicate n ' ', decide (c = ' ') = true := by
    intro c hc
    rw [(List.mem_replicate.mp hc).2]
    rfl
  rw [List.dropWhile_append_of_pos hspaces]
  cases t with
  | nil => rfl
  | cons c t =>
      apply List.dropWhile_cons_of_neg
      simpa using h

/-- A key and a value, with spaces around the sign, are a pair. -/
theorem readPair_eq {k rhs : List Char} {v : Value} (n m : ℕ) (hk : k.all bareKeyChar = true)
    (hne : k ≠ []) (hrhs : rhs.head? ≠ some ' ') (hv : readValue rhs = some v) :
    readPair (k ++ (List.replicate n ' ' ++ '=' :: (List.replicate m ' ' ++ rhs))) =
      some (.pair k v) := by
  have hsplit : (k ++ (List.replicate n ' ' ++ '=' :: (List.replicate m ' ' ++ rhs))).takeWhile
      bareKeyChar = k ∧ (k ++ (List.replicate n ' ' ++ '=' :: (List.replicate m ' ' ++ rhs))).dropWhile
      bareKeyChar = List.replicate n ' ' ++ '=' :: (List.replicate m ' ' ++ rhs) := by
    cases n with
    | zero => exact takeWhile_append_cons hk rfl
    | succ n => exact takeWhile_append_cons hk rfl
  have hkey : k.isEmpty = false := by simpa using hne
  rw [readPair, hsplit.1, hsplit.2, dropWhile_spaces (by simp)]
  simp [hkey, dropWhile_spaces hrhs, hv]

/-- A pair with blanks around the equals sign. -/
theorem readLine_pair {k rhs : List Char} {v : Value} (n m : ℕ) (hk : k.all bareKeyChar = true)
    (hne : k ≠ []) (hrhs : rhs.head? ≠ some ' ') (hv : readValue rhs = some v) :
    readLine (k ++ (List.replicate n ' ' ++ '=' :: (List.replicate m ' ' ++ rhs))) =
      some (.pair k v) := by
  have hpair := readPair_eq n m hk hne hrhs hv
  cases k with
  | nil => exact absurd rfl hne
  | cons c k =>
      have hc : bareKeyChar c = true := by
        rw [List.all_cons, Bool.and_eq_true] at hk
        exact hk.1
      have h₁ : c ≠ '#' := by rintro rfl; exact absurd hc (by decide)
      have h₂ : c ≠ '[' := by rintro rfl; exact absurd hc (by decide)
      rw [List.cons_append, readLine, if_neg h₁, if_neg h₂]
      exact hpair

/-- A bare name is read up to its closing character. -/
theorem readName_eq {k close : List Char} {c : Char} (hk : k.all bareKeyChar = true) (hne : k ≠ [])
    (hc : bareKeyChar c = false) : readName (c :: close) (k ++ c :: close) = some k := by
  obtain ⟨htake, hdrop⟩ := takeWhile_append_cons (t := close) hk hc
  have hkey : k.isEmpty = false := by simpa using hne
  rw [readName, htake, hdrop]
  simp [hkey]

/-- A table header. -/
theorem readLine_table {k : List Char} (hk : k.all bareKeyChar = true) (hne : k ≠ []) :
    readLine ('[' :: (k ++ [']'])) = some (.header false k) := by
  have hname : readName [']'] (k ++ [']']) = some k := readName_eq hk hne rfl
  cases k with
  | nil => exact absurd rfl hne
  | cons c k =>
      have hc : c ≠ '[' := by
        rintro rfl
        rw [List.all_cons, Bool.and_eq_true] at hk
        exact absurd hk.1 (by decide)
      rw [List.cons_append] at hname
      rw [readLine, if_neg (by decide), if_pos rfl, List.cons_append, readHeader, if_neg hc, hname]
      rfl

/-- An array-of-tables header. -/
theorem readLine_arrayTable {k : List Char} (hk : k.all bareKeyChar = true) (hne : k ≠ []) :
    readLine ('[' :: '[' :: (k ++ [']', ']'])) = some (.header true k) := by
  have hname : readName [']', ']'] (k ++ [']', ']']) = some k := readName_eq hk hne rfl
  rw [readLine, if_neg (by decide), if_pos rfl, readHeader, if_pos rfl, hname]
  rfl

/-- The lines of a section. -/
def sectionLines (s : Section) : List Line :=
  .header s.array s.name :: (s.pairs.map (fun kv => .pair kv.1 kv.2) ++ [.blank])

/-- Pairs in front of a group are those of the root. -/
theorem group_pairs (pairs : Table) {ls : List Line} (h : (group ls).1 = []) :
    group (pairs.map (fun kv => Line.pair kv.1 kv.2) ++ .blank :: ls) = (pairs, (group ls).2) := by
  induction pairs with
  | nil => exact Prod.ext h rfl
  | cons kv pairs ih =>
      rw [List.map_cons, List.cons_append, group, ih]

/-- A section, in front of others. -/
theorem group_section (s : Section) {ls : List Line} (h : (group ls).1 = []) :
    group (sectionLines s ++ ls) = ([], s :: (group ls).2) := by
  rw [sectionLines, List.cons_append, List.append_assoc, List.singleton_append, group,
    group_pairs s.pairs h]

/-- Every section is one of the groups. -/
theorem group_sections (ss : List Section) {ls : List Line} (h : (group ls).1 = []) :
    group (ss.flatMap sectionLines ++ ls) = ([], ss ++ (group ls).2) := by
  induction ss with
  | nil => exact Prod.ext h rfl
  | cons s ss ih =>
      rw [List.flatMap_cons, List.append_assoc, group_section s (by rw [ih]), ih]
      rfl

/-- A new key at the end is found. -/
theorem lookup_append_self {doc : Table} {k : List Char} (h : doc.lookup k = none) (v : Value) :
    (doc ++ [(k, v)]).lookup k = some v := by
  rw [List.lookup_append, h]
  simp

/-- Replacing a key that is not there changes nothing. -/
theorem map_of_lookup {doc : Table} {k : List Char} (h : doc.lookup k = none) (v : Value) :
    (doc.map fun kv => if kv.1 = k then (kv.1, v) else kv) = doc := by
  induction doc with
  | nil => rfl
  | cons kv doc ih =>
      rw [List.lookup_cons] at h
      have hne : ¬ k = kv.1 := by
        rintro rfl
        simp at h
      rw [beq_false_of_ne hne] at h
      rw [List.map_cons, if_neg (Ne.symm hne), ih h]

/-- An array that headers made can take another table. -/
theorem isTableArray_append {vs : List Value} (h : isTableArray vs = true) (t : Table) :
    isTableArray (vs ++ [.table t]) = true := by
  rw [isTableArray, Bool.and_eq_true] at h
  rw [isTableArray, List.all_append, h.2]
  simp [Value.isTable]

/-- The tables of an array go behind those that it has. -/
theorem addSections_more {doc : Table} {k : List Char} (h : doc.lookup k = none)
    {ts : List Table} (hts : ∀ t ∈ ts, (t.map Prod.fst).Nodup) {vs : List Value}
    (hvs : isTableArray vs = true) :
    addSections (doc ++ [(k, .array vs)]) (ts.map fun t => ⟨true, k, t⟩) =
      some (doc ++ [(k, .array (vs ++ ts.map .table))]) := by
  induction ts generalizing vs with
  | nil => simp [addSections]
  | cons t ts ih =>
      have hadd : addSection (doc ++ [(k, .array vs)]) ⟨true, k, t⟩ =
          some (doc ++ [(k, .array (vs ++ [.table t]))]) := by
        rw [addSection, if_pos (hts t List.mem_cons_self), lookup_append_self h]
        simp [map_of_lookup h, hvs]
      rw [List.map_cons, addSections, hadd]
      simp only
      rw [ih (fun t' ht' => hts t' (List.mem_cons_of_mem _ ht')) (isTableArray_append hvs t),
        List.append_assoc]
      rfl

/-- The tables of an array, behind the rest of the document. -/
theorem addSections_array {doc : Table} {k : List Char} (h : doc.lookup k = none)
    {ts : List Table} (hne : ts ≠ []) (hts : ∀ t ∈ ts, (t.map Prod.fst).Nodup) :
    addSections doc (ts.map fun t => ⟨true, k, t⟩) =
      some (doc ++ [(k, .array (ts.map .table))]) := by
  cases ts with
  | nil => exact absurd rfl hne
  | cons t ts =>
      have hadd : addSection doc ⟨true, k, t⟩ = some (doc ++ [(k, .array [.table t])]) := by
        rw [addSection, if_pos (hts t List.mem_cons_self), h]
        rfl
      rw [List.map_cons, addSections, hadd]
      exact addSections_more h (fun t' ht' => hts t' (List.mem_cons_of_mem _ ht')) rfl

end Axan.Base.Toml
