import Axan.LaunchEntryWire.SettingsExport

/-!
# Icon names: `AxanGlyphNames.h`

An icon string is a literal glyph, a name, a `builtin:` token, the text of a code point, or
anything else (an emoji, a path).

* `normalizeName`, `splitName`, `glyphForKey`, `resolveCodepoint` — the glyph a name denotes.
* `classifyCodepoint`, `toUtf16` — the text of a code point.
* `resolve` — what is drawn for an icon string, and why.
* `resolve_of_denotes` — a name is drawn as its glyph, before it is read as a code point.
* `exportIcon_eq_or` — an icon is exported as it is, or as the name of the builtin it denotes.
* `resolveIcon_importIcon_exportIcon` — **an exchanged icon is drawn as before**; exporting twice
  and resolving twice change nothing further.

The table of the font, looked up by `findByKey`, is a parameter: nothing is asked of it.
-/

namespace Axan.LaunchEntryWire

open Axan.Base

/-! ### Names -/

/-- The units that are read as a hyphen. -/
def isHyphen (ch : WChar) : Bool := ch = wide ' ' || ch = wide '_' || ch = wide '-'

/-- The unit a name is spelled with, in lower case. -/
def nameUnit (ch : WChar) : Option WChar :=
  if inRange 'A' 'Z' ch then some (Fin.ofNat 65536 (ch.val - 'A'.toNat + 'a'.toNat))
  else if inRange 'a' 'z' ch || inRange '0' '9' ch then some ch
  else none

/-- The loop of `NormalizeName`, with what is written and whether a hyphen is owed. -/
def normalizeLoop : WString → WString → Bool → WString
  | [], out, _ => out
  | ch :: rest, out, pendingHyphen =>
      if isHyphen ch then normalizeLoop rest out (!out.isEmpty)
      else
        match nameUnit ch with
        | some lower =>
            normalizeLoop rest ((if pendingHyphen then out ++ [wide '-'] else out) ++ [lower]) false
        | none => []

/-- The key of a typed name, empty if it is none. Source: `NormalizeName` -/
def normalizeName (text : WString) : WString :=
  if text.isEmpty || 64 < text.length then [] else normalizeLoop text [] false

/-- Source: `Detail::NameKey` -/
structure NameKey where
  key : WString
  prefixed : Bool
  deriving DecidableEq

/-- Source: `Detail::SplitName` -/
def splitName (icon : WString) : NameKey :=
  if kBuiltinPrefix.length < icon.length && icon.take kBuiltinPrefix.length = kBuiltinPrefix then
    { key := normalizeName (icon.drop kBuiltinPrefix.length), prefixed := true }
  else { key := normalizeName icon, prefixed := false }

/-- Source: `Detail::GlyphForKey` -/
def glyphForKey (findByKey : WString → Option WChar) (name : NameKey) : Option WChar :=
  if name.key.isEmpty then none
  else
    match kBuiltins.lookup name.key with
    | some glyph => some glyph
    | none => if name.prefixed then none else findByKey name.key

/-- Is the unit in the range of the symbol font? Source: `kFirstSymbol`, `kLastSymbol` -/
def isSymbol (ch : WChar) : Bool := 0xE700 ≤ ch.val && ch.val ≤ 0xF8FF

/-- The glyph an icon denotes. Source: `ResolveCodepoint` -/
def resolveCodepoint (findByKey : WString → Option WChar) : GlyphNames := fun icon =>
  match icon with
  | [ch] => if isSymbol ch then some ch else glyphForKey findByKey (splitName icon)
  | _ => glyphForKey findByKey (splitName icon)

/-! ### Code points -/

/-- Source: `IsPickableScalar` -/
def isPickableScalar (cp : ℕ) : Bool :=
  if 0x10FFFF < cp || (0xD800 ≤ cp && cp ≤ 0xDFFF) then false
  else if (0xFDD0 ≤ cp && cp ≤ 0xFDEF) || cp &&& 0xFFFE = 0xFFFE then false
  else !(cp < 0x20 || (0x7F ≤ cp && cp ≤ 0x9F))

/-- Source: `CodepointTextKind` -/
inductive CodepointTextKind where
  | notCodepoint
  | invalid
  | valid
  deriving DecidableEq

/-- Source: `CodepointText` -/
structure CodepointText where
  kind : CodepointTextKind := .notCodepoint
  value : ℕ := 0
  deriving DecidableEq

/-- Blanks around the text of a code point: `L" \t"`. -/
def isCodepointBlank (ch : WChar) : Bool := ch = wide ' ' || ch = wide '\t'

/-- The value of a hexadecimal digit. -/
def hexUnit (ch : WChar) : Option ℕ :=
  if inRange '0' '9' ch then some (ch.val - '0'.toNat)
  else if inRange 'a' 'f' ch then some (ch.val - 'a'.toNat + 10)
  else if inRange 'A' 'F' ch then some (ch.val - 'A'.toNat + 10)
  else none

/-- `U+`, `u+`, `0x` or `0X` with something behind it. -/
def hasCodepointMark (query : WString) : Bool :=
  2 < query.length &&
    (query.take 2 = L "U+" || query.take 2 = L "u+" || query.take 2 = L "0x" ||
      query.take 2 = L "0X")

/-- `ClassifyCodepoint` behind the mark. At most eight digits are read, so that the value stays
below `2 ^ 32`. -/
def classifyDigits (prefixed : Bool) (digits : WString) : CodepointText :=
  if digits.isEmpty || (if prefixed then 8 else 6) < digits.length then {}
  else
    match digits.mapM hexUnit with
    | none => {}
    | some values =>
        let value := values.foldl (fun value digit => value * 16 + digit) 0
        if !prefixed && (digits.length < 4 || !digits.any (inRange '0' '9')) then {}
        else if digits.length < 4 || 6 < digits.length || 0x10FFFF < value ||
            !isPickableScalar value then
          { kind := .invalid, value }
        else { kind := .valid, value }

/-- Source: `ClassifyCodepoint` -/
def classifyCodepoint (text : WString) : CodepointText :=
  let query := trimBlank isCodepointBlank text
  if hasCodepointMark query then classifyDigits true (query.drop 2) else classifyDigits false query

/-- Source: `ToUtf16` -/
def toUtf16 (cp : ℕ) : WString :=
  if cp < 0x10000 then [Fin.ofNat 65536 cp]
  else
    [Fin.ofNat 65536 (0xD800 + (cp - 0x10000) / 0x400),
      Fin.ofNat 65536 (0xDC00 + (cp - 0x10000) % 0x400)]

/-! ### What is drawn -/

/-- Source: `IconResolution` -/
inductive IconResolution where
  | passThrough
  | resolved
  | unknownName
  | invalidCodepoint
  deriving DecidableEq

/-- Source: `ResolvedIcon` -/
structure ResolvedIcon where
  text : WString
  kind : IconResolution := .passThrough
  deriving DecidableEq

variable (findByKey : WString → Option WChar)

/-- Source: `Resolve` -/
def resolve (icon : WString) : ResolvedIcon :=
  if icon.length ≤ 1 then { text := icon }
  else
    match glyphForKey findByKey (splitName icon) with
    | some cp => { text := [cp], kind := .resolved }
    | none =>
        let parsed := classifyCodepoint icon
        match parsed.kind with
        | .valid => { text := toUtf16 parsed.value, kind := .resolved }
        | .invalid => { text := icon, kind := .invalidCodepoint }
        | .notCodepoint =>
            let key := (splitName icon).key
            { text := icon
              kind := if !key.isEmpty && key ≠ L "none" then .unknownName else .passThrough }

/-- Source: `ResolveIcon` -/
def resolveIcon (icon : WString) : WString := (resolve findByKey icon).text

example : resolveIcon (fun _ => none) (L "U+131A3") = [0xD80C, 0xDDA3] := by decide

example : (resolve (fun _ => none) (L "U+41")).kind = .invalidCodepoint := by decide

example : (resolve (fun _ => none) (L "face")).kind = .unknownName := by decide

/-! ### The eleven builtins -/

/-- A builtin is found by its name and by its glyph, and its name is a key. -/
theorem builtin_names : ∀ b ∈ kBuiltins, kBuiltins.lookup b.1 = some b.2 ∧ aliasFor b.2 = b.1 ∧
    normalizeName b.1 = b.1 ∧ b.1.isEmpty = false := by
  decide

/-- A glyph with an alias is the one of a builtin of that name. -/
theorem mem_of_aliasFor {cp : WChar} (h : (aliasFor cp).isEmpty = false) :
    (aliasFor cp, cp) ∈ kBuiltins := by
  cases hfind : kBuiltins.find? fun b => b.2 = cp with
  | none =>
      have hnil : aliasFor cp = [] := by rw [aliasFor, hfind]
      rw [hnil] at h
      cases h
  | some b =>
      have hb : b.2 = cp := by simpa using List.find?_some hfind
      have halias : aliasFor cp = b.1 := by rw [aliasFor, hfind]
      rw [halias, ← hb]
      exact List.mem_of_find?_eq_some hfind

/-- The key of the token of a builtin is its name. -/
theorem splitName_token {b : WString × WChar} (hb : b ∈ kBuiltins) :
    splitName (kBuiltinPrefix ++ b.1) = { key := b.1, prefixed := true } := by
  obtain ⟨-, -, hnorm, hne⟩ := builtin_names b hb
  have hpos : 0 < b.1.length := by
    rw [List.length_pos_iff]
    rintro hnil
    rw [hnil] at hne
    cases hne
  have hcond : (decide (kBuiltinPrefix.length < (kBuiltinPrefix ++ b.1).length) &&
      decide ((kBuiltinPrefix ++ b.1).take kBuiltinPrefix.length = kBuiltinPrefix)) = true := by
    rw [Bool.and_eq_true, decide_eq_true_eq, decide_eq_true_eq]
    exact ⟨by rw [List.length_append]; omega, List.take_left⟩
  rw [splitName, if_pos hcond, List.drop_left, hnorm]

/-- The key of a builtin denotes its glyph. -/
theorem glyphForKey_builtin {b : WString × WChar} (hb : b ∈ kBuiltins) (isToken : Bool) :
    glyphForKey findByKey { key := b.1, prefixed := isToken } = some b.2 := by
  obtain ⟨hlookup, -, -, hne⟩ := builtin_names b hb
  rw [glyphForKey, if_neg (by rw [hne]; exact Bool.false_ne_true), hlookup]

/-- Nothing but a builtin is denoted by a token. -/
theorem mem_of_glyphForKey_prefixed {name : NameKey} {cp : WChar} (hname : name.prefixed = true)
    (h : glyphForKey findByKey name = some cp) : (name.key, cp) ∈ kBuiltins := by
  rw [glyphForKey] at h
  split_ifs at h with hempty
  cases hlookup : kBuiltins.lookup name.key with
  | none =>
      simp only [hlookup, reduceCtorEq] at h
  | some glyph =>
      rw [hlookup] at h
      cases h
      exact mem_of_lookup hlookup

/-! ### What is drawn is drawn as itself -/

/-- A single unit is its own glyph. -/
theorem resolveIcon_of_length_le_one {icon : WString} (h : icon.length ≤ 1) :
    resolveIcon findByKey icon = icon := by
  rw [resolveIcon, resolve, if_pos h]

/-- A longer one is looked up by its name. -/
theorem resolveCodepoint_of_one_lt {icon : WString} (h : 1 < icon.length) :
    resolveCodepoint findByKey icon = glyphForKey findByKey (splitName icon) := by
  match icon, h with
  | _ :: _ :: _, _ => rfl

/-- **A name is drawn as its glyph**, before it is read as a code point. -/
theorem resolve_of_denotes {icon : WString} {cp : WChar} (hlen : 1 < icon.length)
    (h : resolveCodepoint findByKey icon = some cp) : resolveIcon findByKey icon = [cp] := by
  rw [resolveCodepoint_of_one_lt findByKey hlen] at h
  rw [resolveIcon, resolve, if_neg (by omega), h]

/-- A valid code point is one of Unicode. -/
theorem value_le_of_valid {text : WString} (h : (classifyCodepoint text).kind = .valid) :
    (classifyCodepoint text).value ≤ 0x10FFFF := by
  have hdigits : ∀ prefixed digits, (classifyDigits prefixed digits).kind = .valid →
      (classifyDigits prefixed digits).value ≤ 0x10FFFF := by
    intro isMarked digits
    unfold classifyDigits
    generalize (if isMarked then 8 else 6) = most
    split
    · exact fun _ => Nat.zero_le _
    cases digits.mapM hexUnit with
    | none => exact fun _ => Nat.zero_le _
    | some values =>
        dsimp only
        split_ifs with hbare hinvalid
        · exact fun _ => Nat.zero_le _
        · exact fun hkind => nomatch hkind
        · simp only [Bool.or_eq_true, decide_eq_true_eq, not_or, not_lt] at hinvalid
          exact fun _ => hinvalid.1.2
  rw [classifyCodepoint] at h ⊢
  split_ifs at h ⊢
  · exact hdigits _ _ h
  · exact hdigits _ _ h

/-- What is drawn is the icon itself, one glyph, or the two units of a code point. -/
theorem resolveIcon_cases (icon : WString) :
    resolveIcon findByKey icon = icon ∨ (∃ cp, resolveIcon findByKey icon = [cp]) ∨
      ∃ cp, 0x10000 ≤ cp ∧ cp ≤ 0x10FFFF ∧ resolveIcon findByKey icon = toUtf16 cp := by
  by_cases hlen : icon.length ≤ 1
  · exact Or.inl (resolveIcon_of_length_le_one findByKey hlen)
  rw [resolveIcon, resolve, if_neg hlen]
  cases glyphForKey findByKey (splitName icon) with
  | some cp => exact Or.inr (Or.inl ⟨cp, rfl⟩)
  | none =>
      cases hkind : (classifyCodepoint icon).kind with
      | notCodepoint => exact Or.inl (by simp only [hkind])
      | invalid => exact Or.inl (by simp only [hkind])
      | valid =>
          simp only [hkind]
          by_cases hbmp : (classifyCodepoint icon).value < 0x10000
          · exact Or.inr (Or.inl ⟨_, by rw [toUtf16, if_pos hbmp]⟩)
          · exact Or.inr (Or.inr ⟨_, by omega, value_le_of_valid hkind, rfl⟩)

/-- A unit that no name, no hexadecimal number and no blank is written with: a surrogate. -/
structure Unnamed (ch : WChar) : Prop where
  hyphen : isHyphen ch = false
  name : nameUnit ch = none
  blank : isCodepointBlank ch = false
  hex : hexUnit ch = none

/-- No name starts with a unit outside of ASCII. -/
theorem unnamed_of_le {ch : WChar} (h : 0x80 ≤ ch.val) : Unnamed ch := by
  have hne : ∀ c : Char, c.toNat < 0x80 → ch ≠ wide c := by
    intro c hc heq
    have hval : (wide c).val = c.toNat := by
      rw [wide, Fin.val_ofNat]
      omega
    rw [heq, hval] at h
    omega
  have hrange : ∀ lo hi : Char, hi.toNat < 0x80 → inRange lo hi ch = false := by
    intro lo hi hhi
    rw [inRange, Bool.and_eq_false_iff, decide_eq_false_iff_not, decide_eq_false_iff_not]
    exact Or.inr (by omega)
  refine ⟨?_, ?_, ?_, ?_⟩
  · simp only [isHyphen, decide_eq_false (hne ' ' (by decide)),
      decide_eq_false (hne '_' (by decide)), decide_eq_false (hne '-' (by decide)), Bool.or_self]
  · simp only [nameUnit, hrange 'A' 'Z' (by decide), hrange 'a' 'z' (by decide),
      hrange '0' '9' (by decide), Bool.or_self, Bool.false_eq_true, if_false]
  · simp only [isCodepointBlank, decide_eq_false (hne ' ' (by decide)),
      decide_eq_false (hne '\t' (by decide)), Bool.or_self]
  · simp only [hexUnit, hrange '0' '9' (by decide), hrange 'a' 'f' (by decide),
      hrange 'A' 'F' (by decide), Bool.false_eq_true, if_false]

/-- A pair of such units is drawn as itself. -/
theorem resolveIcon_pair {u v : WChar} (hu : Unnamed u) (hv : Unnamed v) :
    resolveIcon findByKey [u, v] = [u, v] := by
  have hsplit : (splitName [u, v]).key = [] := by
    have hshort : (decide (kBuiltinPrefix.length < [u, v].length) &&
        decide ([u, v].take kBuiltinPrefix.length = kBuiltinPrefix)) = false := by
      rw [Bool.and_eq_false_iff]
      exact Or.inl (decide_eq_false (by simp [kBuiltinPrefix, L]))
    rw [splitName, if_neg (by rw [hshort]; exact Bool.false_ne_true)]
    simp [normalizeName, normalizeLoop, hu.hyphen, hu.name]
  have hglyph : glyphForKey findByKey (splitName [u, v]) = none := by
    rw [glyphForKey, if_pos (by rw [hsplit]; rfl)]
  have htrim : trimBlank isCodepointBlank [u, v] = [u, v] := by
    apply trimBlank_eq_self
    simp [hu.blank, hv.blank]
  have hnot : (classifyCodepoint [u, v]).kind = .notCodepoint := by
    simp [classifyCodepoint, classifyDigits, htrim, hasCodepointMark, hu.hex]
  rw [resolveIcon, resolve, if_neg (by simp), hglyph]
  simp only [hnot]

/-- A code point outside of the basic plane is its own glyph. -/
theorem resolveIcon_toUtf16 {cp : ℕ} (h : 0x10000 ≤ cp) (hmax : cp ≤ 0x10FFFF) :
    resolveIcon findByKey (toUtf16 cp) = toUtf16 cp := by
  rw [toUtf16, if_neg (by omega)]
  apply resolveIcon_pair
  · exact unnamed_of_le (by rw [Fin.val_ofNat]; omega)
  · exact unnamed_of_le (by rw [Fin.val_ofNat]; omega)

/-! ### Exchange -/

/-- **An icon is exported as it is, or as the token of the builtin it denotes.** -/
theorem exportIcon_eq_or (icon : WString) :
    exportIcon (resolveCodepoint findByKey) icon = icon ∨
      ∃ b ∈ kBuiltins, exportIcon (resolveCodepoint findByKey) icon = kBuiltinPrefix ++ b.1 ∧
        resolveIcon findByKey icon = [b.2] := by
  by_cases hlen : 1 < icon.length
  · have hplain : nativeToPortable icon = icon := by
      match icon, hlen with
      | _ :: _ :: _, _ => rfl
    rw [exportIcon, if_pos hlen]
    cases hcp : resolveCodepoint findByKey icon with
    | none => exact Or.inl hplain
    | some cp =>
        cases halias : (aliasFor cp).isEmpty with
        | true => exact Or.inl (by simpa only [halias, if_true] using hplain)
        | false =>
            refine Or.inr ⟨_, mem_of_aliasFor halias, ?_, resolve_of_denotes findByKey hlen hcp⟩
            simp only [halias, Bool.false_eq_true, if_false]
  · have hle : icon.length ≤ 1 := by omega
    rw [exportIcon, if_neg hlen, resolveIcon_of_length_le_one findByKey hle]
    match icon with
    | [] => exact Or.inl rfl
    | [glyph] =>
        rw [nativeToPortable]
        cases halias : (aliasFor glyph).isEmpty with
        | true => exact Or.inl (if_pos rfl)
        | false => exact Or.inr ⟨_, mem_of_aliasFor halias, if_neg Bool.false_ne_true, rfl⟩
    | _ :: _ :: _ => exact absurd (by simp) hlen

/-- The token of a builtin is imported as its glyph. -/
theorem importIcon_token {b : WString × WChar} (hb : b ∈ kBuiltins) :
    importIcon (kBuiltinPrefix ++ b.1) = ([b.2], false) := by
  have hall : ∀ b ∈ kBuiltins, importIcon (kBuiltinPrefix ++ b.1) = ([b.2], false) := by decide
  exact hall b hb

/-- What is no token is imported as it is. -/
theorem importIcon_plain {icon : WString} (h : icon.take kBuiltinPrefix.length ≠ kBuiltinPrefix) :
    importIcon icon = (icon, false) := by
  have hplain : portableToNative icon = (icon, false) := by
    rw [portableToNative, if_pos (by simp [h])]
  rw [importIcon, hplain]
  simp [h]

/-- A token that denotes a glyph denotes a builtin, and is exported as its token. -/
theorem exportIcon_of_token {icon : WString} {cp : WChar}
    (htoken : icon.take kBuiltinPrefix.length = kBuiltinPrefix)
    (h : resolveCodepoint findByKey icon = some cp) :
    ∃ b ∈ kBuiltins, exportIcon (resolveCodepoint findByKey) icon = kBuiltinPrefix ++ b.1 ∧
      resolveIcon findByKey icon = [b.2] := by
  have hlen : kBuiltinPrefix.length ≤ icon.length := by
    rw [← htoken, List.length_take]
    omega
  have hone : 1 < icon.length := lt_of_lt_of_le (by decide) hlen
  have hdraw := resolve_of_denotes findByKey hone h
  rw [resolveCodepoint_of_one_lt findByKey hone] at h
  -- The bare prefix is no name: it holds a colon.
  by_cases hbare : icon = kBuiltinPrefix
  · rw [hbare, show glyphForKey findByKey (splitName kBuiltinPrefix) = none from rfl] at h
    cases h
  have hmore : kBuiltinPrefix.length < icon.length := by
    rcases Nat.lt_or_eq_of_le hlen with hlt | heq
    · exact hlt
    · rw [heq, List.take_length] at htoken
      exact absurd htoken hbare
  have hname : (splitName icon).prefixed = true := by
    rw [splitName, if_pos (by simp [htoken, hmore])]
  have hmem := mem_of_glyphForKey_prefixed findByKey hname h
  obtain ⟨-, halias, -, hne⟩ := builtin_names _ hmem
  refine ⟨_, hmem, ?_, hdraw⟩
  rw [exportIcon, if_pos hone, resolveCodepoint_of_one_lt findByKey hone, h]
  simp only [halias, hne, Bool.false_eq_true, if_false]

/-- **An exchanged icon is drawn as before**, unless it is a token that denotes no builtin (which is
imported as no icon). Exporting what was exported and resolving what was resolved change nothing. -/
theorem resolveIcon_importIcon_exportIcon :
    (∀ icon, ¬ (icon.take kBuiltinPrefix.length = kBuiltinPrefix ∧
        resolveCodepoint findByKey icon = none) →
      resolveIcon findByKey (importIcon (exportIcon (resolveCodepoint findByKey) icon)).1 =
        resolveIcon findByKey icon) ∧
    (∀ icon, exportIcon (resolveCodepoint findByKey)
        (exportIcon (resolveCodepoint findByKey) icon) =
      exportIcon (resolveCodepoint findByKey) icon) ∧
    ∀ icon, resolveIcon findByKey (resolveIcon findByKey icon) = resolveIcon findByKey icon := by
  refine ⟨?_, ?_, ?_⟩
  · intro icon hicon
    have hbuiltin : ∀ b ∈ kBuiltins,
        exportIcon (resolveCodepoint findByKey) icon = kBuiltinPrefix ++ b.1 →
        resolveIcon findByKey icon = [b.2] →
        resolveIcon findByKey (importIcon (exportIcon (resolveCodepoint findByKey) icon)).1 =
          resolveIcon findByKey icon := by
      intro b hb hexport hdraw
      rw [hexport, importIcon_token hb, hdraw]
      exact resolveIcon_of_length_le_one findByKey (by simp)
    by_cases htoken : icon.take kBuiltinPrefix.length = kBuiltinPrefix
    · cases hcp : resolveCodepoint findByKey icon with
      | none => exact absurd ⟨htoken, hcp⟩ hicon
      | some cp =>
          obtain ⟨b, hb, hexport, hdraw⟩ := exportIcon_of_token findByKey htoken hcp
          exact hbuiltin b hb hexport hdraw
    · rcases exportIcon_eq_or findByKey icon with hexport | ⟨b, hb, hexport, hdraw⟩
      · rw [hexport, importIcon_plain htoken]
      · exact hbuiltin b hb hexport hdraw
  · intro icon
    rcases exportIcon_eq_or findByKey icon with hexport | ⟨b, hb, hexport, -⟩
    · rw [hexport, hexport]
    · obtain ⟨-, halias, -, hne⟩ := builtin_names b hb
      have hone : 1 < (kBuiltinPrefix ++ b.1).length := by
        rw [List.length_append]
        exact lt_of_lt_of_le (by decide) (Nat.le_add_right kBuiltinPrefix.length _)
      rw [hexport, exportIcon, if_pos hone, resolveCodepoint_of_one_lt findByKey hone,
        splitName_token hb, glyphForKey_builtin findByKey hb]
      simp only [halias, hne, Bool.false_eq_true, if_false]
  · intro icon
    rcases resolveIcon_cases findByKey icon with hself | ⟨cp, hone⟩ | ⟨cp, hlo, hhi, hpair⟩
    · rw [hself, hself]
    · rw [hone]
      exact resolveIcon_of_length_le_one findByKey (by simp)
    · rw [hpair]
      exact resolveIcon_toUtf16 findByKey hlo hhi

/-- `Command Prompt`, a key of the font for the glyph of the builtin `terminal`. -/
theorem command_prompt_exchanged :
    resolveIcon (fun key => if key = L "command-prompt" then some 0xE756 else none)
        (importIcon (exportIcon (resolveCodepoint fun key =>
          if key = L "command-prompt" then some 0xE756 else none) (L "Command Prompt"))).1 =
      resolveIcon (fun key => if key = L "command-prompt" then some 0xE756 else none)
        (L "Command Prompt") :=
  (resolveIcon_importIcon_exportIcon _).1 _ (by decide)

end Axan.LaunchEntryWire
