import Axan.Base.TomlSorted
import Axan.LinuxToml.Atomic

/-!
# The TOML export of a profile

What `axan_profile_toml_export` writes: a header of comments, the table `[profile]` with a line for
each key in the order of `strcmp`, and a table for each launch entry. The text is written line by
line; keys and blanks are ASCII, so that a width in bytes is one in characters.

* `tomlQuoteString`, `formatVariant`, `emitSchemaScalars` — the part that the three exports share
  (`axan-toml.cc`).
* `quote`, `writeLaunchEntry`, `profileTomlExport` — the export of a profile (`profile-toml.cc`).
* `basicString_tomlQuoteString`, `basicString_quote` — what is quoted can be read. The second
  needs a text of characters that `quote` knows (`quotable`).
* `written`, `readValueRest_formatVariant` — the value that a literal stands for.
-/

namespace Axan.LinuxToml

open Axan.Base Axan.Base.Settings

/-! ### Quoting -/

/-- Four upper-case hexadecimal digits (`%04X`). -/
def hex4 (n : ℕ) : Text :=
  [n / 4096, n / 256, n / 16, n].map fun d => "0123456789ABCDEF".toList.getD (d % 16) '0'

/-- One character. No byte of a longer UTF-8 sequence is one that the loop escapes.
Source: `toml_quote_string`, the `switch` -/
def tomlQuoteChar (c : Char) : Text :=
  if c = '"' then ['\\', '"']
  else if c = '\\' then ['\\', '\\']
  else if c = Char.ofNat 8 then ['\\', 'b']
  else if c = '\t' then ['\\', 't']
  else if c = '\n' then ['\\', 'n']
  else if c = Char.ofNat 12 then ['\\', 'f']
  else if c = '\r' then ['\\', 'r']
  else if c.toNat < 0x20 || c.toNat = 0x7F then '\\' :: 'u' :: hex4 c.toNat
  else [c]

/-- Source: `toml_quote_string` -/
def tomlQuoteString (s : Text) : Text := '"' :: (s.flatMap tomlQuoteChar ++ ['"'])

/-- One character. Source: `quote`, the loop -/
def quoteChar (c : Char) : Text :=
  if c = '"' || c = '\\' then ['\\', c]
  else if c = '\n' then ['\\', 'n']
  else if c = '\t' then ['\\', 't']
  else [c]

/-- Source: `quote` -/
def quote (s : Text) : Text := '"' :: (s.flatMap quoteChar ++ ['"'])

/-! ### Numbers -/

/-- An integer in decimal. Source: `g_variant_print` -/
def printInteger (n : ℤ) : Text :=
  if n < 0 then '-' :: Nat.toDigits 10 n.natAbs else Nat.toDigits 10 n.natAbs

/-- Seventeen digits of a positive number, and the exponent of the first. -/
def significant (q : ℚ) : ℕ × ℤ :=
  let e := Int.log 10 q
  let n := (roundEven (q * 10 ^ (16 - e))).toNat
  if n < 10 ^ 17 then (n, e) else (10 ^ 16, e + 1)

/-- Digits with a fraction behind them, without the zeros at its end. -/
def withFraction (whole frac : Text) : Text :=
  if (frac.rdropWhile (· = '0')).isEmpty then whole
  else whole ++ '.' :: frac.rdropWhile (· = '0')

/-- `%.17g` of a positive number. -/
def printPositive (q : ℚ) : Text :=
  let ds := Nat.toDigits 10 (significant q).1
  let e := (significant q).2
  if 0 ≤ e ∧ e < 17 then withFraction (ds.take (e.toNat + 1)) (ds.drop (e.toNat + 1))
  else if -4 ≤ e ∧ e < 0 then withFraction ['0'] (List.replicate (-e - 1).toNat '0' ++ ds)
  else
    let exponent := Nat.toDigits 10 e.natAbs
    withFraction (ds.take 1) (ds.drop 1) ++ 'e' :: (if e < 0 then '-' else '+') ::
      (List.replicate (2 - exponent.length) '0' ++ exponent)

/-- Source: `g_ascii_dtostr` -/
def asciiDtostr : Double → Text
  | .nan => "nan".toList
  | .inf negative => if negative then "-inf".toList else "inf".toList
  | .finite q =>
      if q = 0 then ['0'] else if q < 0 then '-' :: printPositive (-q) else printPositive q

/-- A number that TOML takes for a float. -/
def formatDouble (x : Double) : Text :=
  let buf := asciiDtostr x
  if '.' ∉ buf && 'e' ∉ buf && 'E' ∉ buf && 'n' ∉ buf then buf ++ ['.', '0'] else buf

/-! ### Values -/

section Format

-- `print` is `g_variant_print`, for the values of other types
variable (print : Variant → Text)

/-- The TOML literal of a value, empty when it is unset. Source: `format_variant` -/
def formatVariant : Variant → Text
  | .boolean b => if b then "true".toList else "false".toList
  | .integer _ n => printInteger n
  | .double x => formatDouble x
  | .string s => tomlQuoteString s
  | .maybeString none => []
  | .maybeString (some s) => tomlQuoteString s
  | .maybeBoolean none => []
  | .maybeBoolean (some b) => if b then "true".toList else "false".toList
  | .stringArray l => '[' :: ([',', ' '].intercalate (l.map tomlQuoteString) ++ [']'])
  | v => tomlQuoteString (print v)

/-! ### The keys of a schema -/

/-- Blanks behind a text (`%-*s`). -/
def padRight (width : ℕ) (s : Text) : Text := s ++ List.replicate (width - s.length) ' '

/-- Source: `axan_toml_emit_header` -/
def emitHeader (toolArgs : String) : List Text :=
  [ "# axan TOML export".toList,
    "# Re-import with: axan --import-".toList ++ toolArgs.toList ++ " <this-file>".toList,
    "# Every key is written explicitly. Lines without a comment match".toList,
    "# the gschema default; `# modified (default: X)` flags edits.".toList,
    "#".toList,
    "# Sparse imports are honored: omit a key to leave it untouched.".toList,
    [] ]

/-- The default of a key, in a comment. -/
def defStr (k : KeySpec) : Text :=
  if (formatVariant print k.default).isEmpty then "<unset>".toList else formatVariant print k.default

/-- One key: a comment when it is unset. Source: `axan_toml_emit_schema_scalars`, the loop -/
def emitScalar (maxKeyW : ℕ) (k : KeySpec) (current : Variant) : Text :=
  let currentStr := formatVariant print current
  if currentStr.isEmpty then
    "# ".toList ++ padRight maxKeyW k.name ++ " = ?  # unset (type: ".toList ++
      (typeString k.type).toList ++ ")".toList
  else
    padRight maxKeyW k.name ++ " = ".toList ++ currentStr ++
      (if current = k.default then []
        else "  # modified (default: ".toList ++ defStr print k ++ ")".toList)

/-- The keys that are written, in the order of `strcmp`. -/
def exportKeys (S : Schema) (skipKeys : List Text) : List KeySpec :=
  (S.keys.mergeSort fun a b => a.name ≤ b.name).filter fun k => k.name ∉ skipKeys

/-- Source: `axan_toml_emit_schema_scalars` -/
def emitSchemaScalars {S : Schema} (skipKeys : List Text) (settings : Store S) : List Text :=
  let keys := exportKeys S skipKeys
  let maxKeyW := (keys.map fun k => k.name.length).foldl max 0
  keys.map fun k => emitScalar print maxKeyW k (settings.value k.name)

/-! ### Profiles -/

/-- A field of a launch entry. -/
def entryLine (entry : List Text) (i : ℕ) : Text :=
  padRight 12 (kLaunchEntryFields.getD i []) ++ " = ".toList ++ quote (entry.getD i [])

/-- Is the field written? The first six always, a color when it is not empty, and a color target
when it is not the default. -/
def entryFieldWritten (entry : List Text) (i : ℕ) : Bool :=
  if i < 6 then true
  else if i = 6 then !(entry.getD 6 []).isEmpty
  else !(entry.getD 7 []).isEmpty && entry.getD 7 [] ≠ "both".toList

/-- Source: `write_launch_entry` -/
def writeLaunchEntry (entry : List Text) : List Text :=
  "[[profile.default-launch-entries]]".toList ::
    (((List.range 8).filter (entryFieldWritten entry)).map (entryLine entry) ++ [[]])

/-- The launch entries of a profile. -/
def launchEntryRows (profile : Store profileSchema) : List (List Text) :=
  match profile.value kLaunchEntriesKey with
  | .stringTuples rows => rows
  | _ => []

/-- The line of the identity. -/
def uuidLine (uuid : Text) : Text :=
  padRight 9 kUuidKey ++ " = ".toList ++ quote uuid ++
    "  # identity — re-import overwrites this UUID".toList

/-- The lines of the file. -/
def profileLines (uuid : Text) (profile : Store profileSchema) : List Text :=
  emitHeader "profile" ++ ("[profile]".toList :: uuidLine uuid ::
    (emitSchemaScalars print [kLaunchEntriesKey] profile ++ ([] ::
      if (launchEntryRows profile).isEmpty then ["# (no startup launch entries)".toList]
      else (launchEntryRows profile).flatMap writeLaunchEntry)))

/-- The text of the file; there is none for an empty UUID. Source: `axan_profile_toml_export` -/
def profileTomlExport (uuid : Text) (profile : Store profileSchema) : Option Text :=
  if uuid.isEmpty then none else some (Toml.unlines (profileLines print uuid profile))

end Format

/-! ### Reading quoted texts -/

/-- A text without control characters. -/
def controlFree (s : Text) : Bool := s.all fun c => 0x20 ≤ c.toNat && c.toNat ≠ 0x7F

/-- No control character, or one of the two that `quote` escapes. -/
def quotableChar (c : Char) : Bool := c = '\n' || c = '\t' || (0x20 ≤ c.toNat && c.toNat ≠ 0x7F)

/-- A text that `quote` writes as a string of TOML. -/
def quotable (s : Text) : Bool := s.all quotableChar

/-- Without control characters a string is quotable. -/
theorem quotable_of_controlFree {s : Text} (h : controlFree s = true) : quotable s = true := by
  rw [controlFree, List.all_eq_true] at h
  rw [quotable, List.all_eq_true]
  intro c hc
  rw [quotableChar, h c hc, Bool.or_true]

/-- Four hexadecimal digits are read back. -/
theorem hexNumber_hex4 {n : ℕ} (h : n < 65536) : Toml.hexNumber 0 (hex4 n) = some n := by
  have hdigit : ∀ k < 16, Toml.hexVal ("0123456789ABCDEF".toList.getD k '0') = some k := by decide
  simp only [hex4, List.map_cons, List.map_nil, Toml.hexNumber, hdigit _ (Nat.mod_lt _ (by decide))]
  congr 1
  omega

/-- A character that needs no escape. -/
theorem basicUnescaped_of {c : Char} (hquote : c ≠ '"') (hback : c ≠ '\\') (hlow : 0x20 ≤ c.toNat)
    (hdel : c.toNat ≠ 0x7F) : Toml.basicUnescaped c = true := by
  have hq : c.toNat ≠ 0x22 := fun h => hquote (by rw [← Char.ofNat_toNat c, h])
  have hb : c.toNat ≠ 0x5C := fun h => hback (by rw [← Char.ofNat_toNat c, h])
  simp only [Toml.basicUnescaped, Bool.or_eq_true, Bool.and_eq_true, decide_eq_true_eq]
  by_cases hs : c.toNat = 0x20
  · have hspace : c = ' ' := by rw [← Char.ofNat_toNat c, hs]
    exact Or.inl (Or.inl (Or.inl (Or.inl (Or.inr hspace))))
  · have : c.toNat = 0x21 ∨ (0x23 ≤ c.toNat ∧ c.toNat ≤ 0x5B) ∨
        (0x5D ≤ c.toNat ∧ c.toNat ≤ 0x7E) ∨ 0x80 ≤ c.toNat := by omega
    tauto

/-- One more quoted character of a body. -/
theorem body_tomlQuoteChar_append (c : Char) {t v : Text} (h : Toml.Body t v) :
    Toml.Body (tomlQuoteChar c ++ t) (c :: v) := by
  unfold tomlQuoteChar
  split_ifs with h₁ h₂ h₃ h₄ h₅ h₆ h₇ h₈
  · exact Toml.Body.escaped (by rw [h₁]; rfl) h
  · exact Toml.Body.escaped (by rw [h₂]; rfl) h
  · exact Toml.Body.escaped (by rw [h₃]; rfl) h
  · exact Toml.Body.escaped (by rw [h₄]; rfl) h
  · exact Toml.Body.escaped (by rw [h₅]; rfl) h
  · exact Toml.Body.escaped (by rw [h₆]; rfl) h
  · exact Toml.Body.escaped (by rw [h₇]; rfl) h
  · -- another control character: four digits
    have hsmall : c.toNat < 0x80 := by
      simp only [Bool.or_eq_true, decide_eq_true_eq] at h₈
      omega
    refine Toml.Body.unicode4 rfl (hexNumber_hex4 (by omega)) ?_ h
    have hv : c.toNat.isValidChar := Or.inl (by omega)
    rw [Toml.scalar, if_pos hv, Char.ofNat_toNat]
  · simp only [Bool.or_eq_true, decide_eq_true_eq, not_or] at h₈
    exact Toml.Body.unescaped (basicUnescaped_of h₁ h₂ (by omega) h₈.2) h

/-- What is quoted stands for itself. -/
theorem basicString_tomlQuoteString (s : Text) : Toml.BasicString (tomlQuoteString s) s := by
  refine ⟨_, rfl, ?_⟩
  induction s with
  | nil => exact Toml.Body.nil
  | cons c s ih =>
      rw [List.flatMap_cons]
      exact body_tomlQuoteChar_append c ih

/-- The same for the quotes of a quotable character. -/
theorem body_quoteChar_append {c : Char} (hc : quotableChar c = true) {t v : Text}
    (h : Toml.Body t v) : Toml.Body (quoteChar c ++ t) (c :: v) := by
  unfold quoteChar
  split_ifs with h₁ h₂ h₃
  · refine Toml.Body.escaped ?_ h
    rcases Bool.or_eq_true_iff.mp h₁ with h₁ | h₁ <;> rw [of_decide_eq_true h₁] <;> rfl
  · exact Toml.Body.escaped (by rw [h₂]; rfl) h
  · exact Toml.Body.escaped (by rw [h₃]; rfl) h
  · simp only [Bool.or_eq_true, decide_eq_true_eq, not_or] at h₁
    simp only [quotableChar, h₂, h₃, decide_false, Bool.false_or, Bool.and_eq_true,
      decide_eq_true_eq] at hc
    exact Toml.Body.unescaped (basicUnescaped_of h₁.1 h₁.2 hc.1 hc.2) h

/-- What `quote` writes stands for itself. -/
theorem basicString_quote {s : Text} (h : quotable s = true) : Toml.BasicString (quote s) s := by
  refine ⟨_, rfl, ?_⟩
  induction s with
  | nil => exact Toml.Body.nil
  | cons c s ih =>
      rw [quotable, List.all_cons, Bool.and_eq_true] at h
      rw [List.flatMap_cons]
      exact body_quoteChar_append h.1 (ih h.2)

/-- A basic string can stand in a comment. -/
theorem commentChar_of_basicString {t v : Text} (h : Toml.BasicString t v) :
    t.all Toml.commentChar = true := by
  obtain ⟨body, rfl, hb⟩ := h
  have hbody : ∀ c ∈ body, Toml.commentChar c = true := by
    intro c hc
    rw [Toml.commentChar]
    rcases hb.plain_of_mem c hc with rfl | ⟨hlow, hdel⟩
    · rfl
    · simp [hlow, hdel]
  have hquote : Toml.commentChar '"' = true := rfl
  simp only [List.all_cons, List.all_append, List.all_nil, hquote, Bool.true_and, Bool.and_true]
  exact List.all_eq_true.mpr hbody

/-! ### Reading numbers -/

/-- A 64-bit integer is read back. -/
theorem readWord_printInteger {n : ℤ} (h : n.natAbs < 2 ^ 63) :
    Toml.readWord (printInteger n) = some (.integer n) := by
  have hread := Toml.readInteger_toDigits h
  have hletters := Toml.isDecimal_toDigits n.natAbs
  have hsigned : Toml.readSigned (printInteger n) = some n := by
    unfold printInteger
    split_ifs with hneg
    · rw [Toml.readSigned, hread, Option.map_some]
      congr 1
      omega
    · have hnonneg : ((n.natAbs : ℕ) : ℤ) = n := by omega
      rw [hnonneg] at hread
      unfold Toml.readSigned
      split
      · rename_i t ht
        rw [ht] at hletters
        cases hletters
      · exact hread
  have hne (w : Text) (hw : Toml.readSigned w = none) : printInteger n ≠ w := by
    rintro rfl
    rw [hw] at hsigned
    cases hsigned
  rw [Toml.readWord, if_neg (hne _ (by decide)), if_neg (hne _ (by decide)), hsigned]
  rfl

/-- The fraction is dropped or has a digit. -/
theorem withFraction_cases {whole frac : Text} (hfrac : frac.all Char.isDigit = true) :
    withFraction whole frac = whole ∨ ∃ f, f ≠ [] ∧ f.all Char.isDigit = true ∧
      f.length ≤ frac.length ∧ withFraction whole frac = whole ++ '.' :: f := by
  unfold withFraction
  split_ifs with h
  · exact Or.inl rfl
  · have hfront := List.rdropWhile_prefix (fun c => decide (c = '0')) frac
    refine Or.inr ⟨_, by simpa using h, ?_, hfront.length_le, rfl⟩
    rw [List.all_eq_true] at hfrac ⊢
    exact fun c hc => hfrac c (hfront.mem hc)

/-- One digit is a decimal. -/
theorem isDecimal_digit {c : Char} (h : c.isDigit = true) : Toml.isDecimal [c] = true := by
  simp [Toml.isDecimal, h]

/-- And it is cut from its fraction. -/
theorem cutAt_digit {c : Char} (h : c.isDigit = true) (f : Text) :
    cutAt '.' ([c] ++ '.' :: f) = some ([c], f) := by
  apply cutAt_append
  intro hmem
  obtain rfl := List.mem_singleton.mp hmem
  revert h
  decide

/-- A digit, a point and more digits. -/
theorem readWord_float {c : Char} (hc : c.isDigit = true) {f : Text} (hne : f ≠ [])
    (hf : f.all Char.isDigit = true) (hlen : f.length ≤ 17) :
    ∃ x, Toml.readWord ([c] ++ '.' :: f) = some (.float x) := by
  have hfloat : (Toml.readFloat ([c] ++ '.' :: f)).isSome = true := by
    have hshort : ([c] ++ '.' :: f).length ≤ Toml.maxNumberLength := by
      simp only [Toml.maxNumberLength, List.length_append, List.length_cons, List.length_nil]
      omega
    rw [Toml.readFloat, cutAt_digit hc]
    simp only [isDecimal_digit hc, hf, hshort]
    simp [hne]
  obtain ⟨x, hx⟩ := Option.isSome_iff_exists.mp hfloat
  have hint : Toml.readSigned ([c] ++ '.' :: f) = none := by
    have hdec : Toml.isDecimal ([c] ++ '.' :: f) = false := by
      have hdot : ('.' : Char).isDigit = false := by decide
      simp [Toml.isDecimal, hdot]
    have hno : Toml.readInteger ([c] ++ '.' :: f) = none := by
      rw [Toml.readInteger, hdec]
      rfl
    unfold Toml.readSigned
    split
    · rename_i t ht
      obtain ⟨rfl, -⟩ := List.cons.inj ht
      exact absurd hc (by decide)
    · exact hno
  refine ⟨x, ?_⟩
  have hne' (w : Text) (hw : '.' ∉ w) : [c] ++ '.' :: f ≠ w := by
    rintro rfl
    exact hw (by simp)
  rw [Toml.readWord, if_neg (hne' _ (by decide)), if_neg (hne' _ (by decide)), hint, hx]
  rfl

/-- `%.17g` keeps at most seventeen digits. -/
theorem length_significant (q : ℚ) : (Nat.toDigits 10 (significant q).1).length ≤ 17 := by
  rw [Nat.length_toDigits_le_iff (by decide) (by decide)]
  unfold significant
  dsimp only
  split_ifs with h
  · exact h
  · norm_num

/-- Between one and ten the first digit is the whole part. -/
theorem printPositive_eq {q : ℚ} (h : 1 ≤ q) (h' : q ≤ 2) :
    ∃ c frac, c.isDigit = true ∧ frac.all Char.isDigit = true ∧ frac.length ≤ 17 ∧
      printPositive q = withFraction [c] frac := by
  have hlog : Int.log 10 q = 0 := by
    have hpos : 0 < q := lt_of_lt_of_le one_pos h
    have hnonneg : 0 ≤ Int.log 10 q := by
      rw [Int.log_of_one_le_right 10 h]
      exact Int.natCast_nonneg _
    have hlt : Int.log 10 q < 1 := by
      refine (Int.lt_zpow_iff_log_lt (by norm_num) hpos).mp ?_
      norm_num
      linarith
    omega
  have hround : roundEven (q * 10 ^ (16 - (0 : ℤ))) ≤ 2 * 10 ^ 16 := by
    apply roundEven_le
    norm_num
    linarith
  have hsig : (significant q).2 = 0 := by
    simp only [significant, hlog]
    rw [if_pos]
    omega
  have hdigits : ∀ d ∈ Nat.toDigits 10 (significant q).1, d.isDigit = true := fun d hd =>
    Nat.isDigit_of_mem_toDigits (by decide) le_rfl hd
  obtain ⟨c, frac, hcons⟩ := List.exists_cons_of_ne_nil
    (Nat.toDigits_ne_nil : Nat.toDigits 10 (significant q).1 ≠ [])
  have hlen := length_significant q
  rw [hcons] at hdigits hlen
  refine ⟨c, frac, hdigits c List.mem_cons_self,
    List.all_eq_true.mpr fun d hd => hdigits d (List.mem_cons_of_mem _ hd),
    (Nat.le_succ _).trans hlen, ?_⟩
  simp [printPositive, hsig, hcons]

/-- A scale from one to two is read as a float. -/
theorem readWord_formatDouble {q : ℚ} (h : 1 ≤ q) (h' : q ≤ 2) :
    ∃ x, Toml.readWord (formatDouble (.finite q)) = some (.float x) := by
  obtain ⟨c, frac, hc, hfrac, hshort, hprint⟩ := printPositive_eq h h'
  have hbuf : asciiDtostr (.finite q) = withFraction [c] frac := by
    rw [asciiDtostr, if_neg (by linarith), if_neg (by linarith), hprint]
  have hnot (d : Char) (hd : d.isDigit = false) : c ≠ d := by
    rintro rfl
    rw [hc] at hd
    cases hd
  unfold formatDouble
  simp only [hbuf]
  rcases withFraction_cases hfrac with hwhole | ⟨f, hne, hf, hlen, hpoint⟩
  · have hplain : ('.' ∉ [c] && 'e' ∉ [c] && 'E' ∉ [c] && 'n' ∉ [c] : Bool) = true := by
      simp [(hnot '.' (by decide)).symm, (hnot 'e' (by decide)).symm, (hnot 'E' (by decide)).symm,
        (hnot 'n' (by decide)).symm]
    rw [hwhole, if_pos hplain]
    exact readWord_float hc (by simp) (by decide) (by decide)
  · rw [hpoint, if_neg (by simp)]
    exact readWord_float hc hne hf (hlen.trans hshort)

/-! ### Reading values -/

section Format

variable (print : Variant → Text)

/-- What the literal of a value stands for. -/
def written : Variant → Option Toml.Value
  | .string s => some (.string s)
  | .maybeString s => s.map .string
  | .stringArray l => some (.array (l.map .string))
  | .maybeBoolean none => none
  | .stringTuples _ => none
  | .other _ => none
  | v => Toml.readWord (formatVariant print v)

variable {print} {v : Variant} {x : Toml.Value}

/-- A list of quoted strings is a list of basic strings. -/
theorem basicStrings (l : List Text) :
    List.Forall₂ Toml.BasicString (l.map tomlQuoteString) l := by
  rw [List.forall₂_map_left_iff, List.forall₂_same]
  exact fun s _ => basicString_tomlQuoteString s

/-- A literal, with a comment behind it or not. -/
theorem readValueRest_formatVariant (h : written print v = some x) {rest : Text}
    (hrest : ∀ c ∈ rest.head?, c = ' ') :
    Toml.readValueRest (formatVariant print v ++ rest) = some (x, rest) := by
  cases v with
  | string s =>
      obtain rfl := Option.some.inj h
      exact Toml.readValueRest_basicString (basicString_tomlQuoteString s) rest
  | maybeString s =>
      obtain ⟨s, rfl, rfl⟩ := Option.map_eq_some_iff.mp h
      exact Toml.readValueRest_basicString (basicString_tomlQuoteString s) rest
  | stringArray l =>
      obtain rfl := Option.some.inj h
      have hread := Toml.readValueRest_strings (basicStrings l) rest
      simpa [formatVariant] using hread
  | maybeBoolean b =>
      cases b with
      | none => cases h
      | some b => exact Toml.readValueRest_word h hrest
  | boolean b => exact Toml.readValueRest_word h hrest
  | integer t n => exact Toml.readValueRest_word h hrest
  | double y => exact Toml.readValueRest_word h hrest
  | stringTuples rows => cases h
  | other text => cases h

/-- A literal can stand in a comment. -/
theorem commentChar_formatVariant (h : written print v = some x) :
    (formatVariant print v).all Toml.commentChar = true := by
  have hword (hread : Toml.readWord (formatVariant print v) = some x) :
      (formatVariant print v).all Toml.commentChar = true := by
    have hletters := List.all_eq_true.mp (Toml.wordLetter_of_readWord hread)
    exact List.all_eq_true.mpr fun c hc => Toml.commentChar_of_wordLetter (hletters c hc)
  cases v with
  | string s => exact commentChar_of_basicString (basicString_tomlQuoteString s)
  | maybeString s =>
      obtain ⟨s, rfl, rfl⟩ := Option.map_eq_some_iff.mp h
      exact commentChar_of_basicString (basicString_tomlQuoteString s)
  | stringArray l =>
      have hitem : ∀ t ∈ l.map tomlQuoteString, t.all Toml.commentChar = true := by
        intro t ht
        obtain ⟨s, -, rfl⟩ := List.mem_map.mp ht
        exact commentChar_of_basicString (basicString_tomlQuoteString s)
      have hjoin : ([',', ' '].intercalate (l.map tomlQuoteString)).all Toml.commentChar = true :=
        Toml.all_intercalate (by decide) hitem
      have hbracket : Toml.commentChar '[' = true ∧ Toml.commentChar ']' = true := by decide
      rw [formatVariant, List.all_cons, List.all_append, hjoin, hbracket.1, List.all_cons,
        hbracket.2]
      rfl
  | maybeBoolean b =>
      cases b with
      | none => cases h
      | some b => exact hword h
  | boolean b => exact hword h
  | integer t n => exact hword h
  | double y => exact hword h
  | stringTuples rows => cases h
  | other text => cases h

/-- No value is written as nothing. -/
theorem formatVariant_ne_nil (h : written print v = some x) : formatVariant print v ≠ [] := by
  intro hnil
  have hread : Toml.readValueRest (formatVariant print v ++ []) = some (x, []) :=
    readValueRest_formatVariant h (by simp)
  rw [hnil] at hread
  cases hread

/-! ### Reading lines -/

/-- A class without NUL keeps it out of the text. -/
theorem nulFree_of_all {p : Char → Bool} (hp : p (Char.ofNat 0) = false) {t : Text}
    (h : t.all p = true) : nulFree t = true := by
  rw [nulFree, List.all_eq_true]
  intro c hc
  rw [decide_eq_true_eq]
  rintro rfl
  exact Toml.not_mem_of_all hp h hc

/-- Blanks may stand in a comment. -/
theorem commentChar_blanks (n : ℕ) : (List.replicate n ' ').all Toml.commentChar = true := by
  rw [List.all_eq_true]
  intro c hc
  rw [(List.mem_replicate.mp hc).2]
  rfl

theorem commentChar_padRight {t : Text} (h : t.all Toml.bareKeyChar = true) (width : ℕ) :
    (padRight width t).all Toml.commentChar = true := by
  rw [padRight, List.all_append, Toml.commentChar_bareKey h, commentChar_blanks]
  rfl

/-- A key, blanks and an equals sign in front of a value. -/
theorem readFileLine_padRight {key rhs rest : Text} {y : Toml.Value} (width : ℕ)
    (hkey : key.all Toml.bareKeyChar = true) (hne : key ≠ [])
    (hv : Toml.readValueRest rhs = some (y, rest)) (hrest : Toml.isTail rest = true) :
    Toml.readFileLine (padRight width key ++ " = ".toList ++ rhs) = some (.pair key y) := by
  have htext : padRight width key ++ " = ".toList ++ rhs =
      key ++ (List.replicate (width - key.length + 1) ' ' ++ '=' ::
        (List.replicate 1 ' ' ++ rhs)) := by
    rw [padRight, List.replicate_succ']
    simp
  rw [htext]
  exact Toml.readFileLine_pair _ 1 hkey hne hv hrest

end Format

/-! ### Parsed files -/

/-- A table of the document is found in the file, as a map. -/
theorem TomlFile.exists_tableAt {file : TomlFile} {doc : Toml.Table}
    (h : Toml.SameTable doc file.root) {key : String} {t : Toml.Table}
    (ht : doc.lookup key.toList = some (.table t)) :
    ∃ tbl, file.tableAt key = some tbl ∧ Toml.MapOf t tbl := by
  obtain ⟨v, hv, hsame⟩ := h.lookup_some ht
  obtain ⟨tbl, rfl, htbl⟩ := hsame.exists_table
  exact ⟨tbl, by rw [TomlFile.tableAt, hv]; rfl, htbl, file.distinct _ _ hv⟩

/-! ### A parser -/

/-- A document as the parser keeps it: with its keys in order. -/
def sortedFile (doc : Toml.Table) (h : Toml.Distinct doc) : TomlFile where
  root := Toml.sortedTable doc
  distinct _ _ hlookup := Toml.nodup_of_lookup_sortedTable h hlookup

/-- The reader itself, on bytes. -/
def parseFile (b : Bytes) : Parsed :=
  match utf8Decode b with
  | none => .error "not UTF-8"
  | some t =>
      match h : Toml.readFile t with
      | none => .error "not in the part"
      | some doc => .ok (sortedFile doc (Toml.readFile_distinct h))

/-- The reader of the model agrees with itself. -/
theorem agreesWithFileReader_parseFile : Toml.AgreesWithFileReader TomlFile.root parseFile := by
  intro t doc h
  refine ⟨sortedFile doc (Toml.readFile_distinct h), ?_, Toml.sameTable_sortedTable doc⟩
  rw [parseFile, utf8Decode_utf8]
  simp only
  split
  · rename_i hnone
    rw [h] at hnone
    cases hnone
  · rename_i doc' hsome
    obtain rfl := Option.some.inj (h.symm.trans hsome)
    rfl

end Axan.LinuxToml
