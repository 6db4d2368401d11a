import Axan.Base.TomlDocument
import Axan.LaunchEntryWire.Entry
import Axan.LaunchEntryWire.Quote

/-!
# Writing the interchange file: `ToTomlBlock`, `buildStartupSessionsToml`

The startup tree is exported as a TOML file: a `[meta]` table with the version, then one
`[[startup-sessions]]` table per entry. What is empty or a default is left out.

* `Entry` — an entry in portable form; its strings are UTF-8 texts.
* `toTomlBlock`, `buildStartupSessionsToml` — the source, in bytes.
* `items` — the pairs of a block in order, each with the text written for it (`Item.rhs`) and the
  value it stands for (`Item.value`). `toTomlBlock_eq` says that a block is their lines.
* `readsBack_height` — a height is written so that it reads back.
-/

namespace Axan.LaunchEntryWire

open Axan.Base

/-! ### The vocabulary -/

/-- Source: `kTomlVersion` -/
def kTomlVersion : ℕ := 1
/-- Source: `kTomlVersionSeparators` -/
def kTomlVersionSeparators : ℕ := 2
/-- Source: `kTomlVersionMax` -/
def kTomlVersionMax : ℕ := kTomlVersionSeparators

/-- Source: `KindSession` -/
def kindSession : List Char := "session".toList
/-- Source: `KindSeparator` -/
def kindSeparator : List Char := "separator".toList
/-- Source: `StyleLine` -/
def styleLine : List Char := "line".toList
/-- Source: `PlacementInline` -/
def placementInline : List Char := "inline".toList

/-- Source: `TomlKey` -/
inductive TomlKey where
  | id
  | parentId
  | profile
  | profileName
  | name
  | directory
  | command
  | icon
  | color
  | colorTarget
  | kind
  | style
  | height
  | placement
  | collapsed
  | hoist
  deriving DecidableEq, Repr

/-- The spelling of a key. -/
def TomlKey.text : TomlKey → String
  | .id => "id"
  | .parentId => "parent-id"
  | .profile => "profile"
  | .profileName => "profile-name"
  | .name => "name"
  | .directory => "directory"
  | .command => "command"
  | .icon => "icon"
  | .color => "color"
  | .colorTarget => "color-target"
  | .kind => "kind"
  | .style => "style"
  | .height => "height"
  | .placement => "placement"
  | .collapsed => "collapsed"
  | .hoist => "hoist"

/-- Source: `TomlKey::Table` -/
def tomlTable : String := "startup-sessions"

/-- One entry in portable form. Source: `LaunchEntryWire::Entry` -/
structure Entry where
  id : List Char := []
  parentId : List Char := []
  /-- A bare GUID; empty to follow the default profile. -/
  profile : List Char := []
  profileName : List Char := []
  name : List Char := []
  directory : List Char := []
  command : List Char := []
  icon : List Char := []
  color : List Char := []
  colorTarget : List Char := []
  kind : List Char := []
  style : List Char := []
  height : Double := .finite 0
  placement : List Char := []
  collapsed : Bool := false
  hoist : List Char := []
  deriving DecidableEq, Repr

/-- Source: `Entry::IsSeparator` -/
def Entry.isSeparator (e : Entry) : Bool := e.kind = kindSeparator

/-! ### The writer -/

/-- Source: `TomlVersionFor` -/
def tomlVersionFor : List Entry → ℕ
  | [] => kTomlVersion
  | e :: entries => if e.isSeparator then kTomlVersionSeparators else tomlVersionFor entries

/-- `%.1f`, for a finite number that is not negative. -/
def fixed1 (x : Double) : List Char :=
  match x with
  | .finite q =>
      let n := (roundEven (q * 10)).toNat
      Nat.toDigits 10 (n / 10) ++ '.' :: Nat.toDigits 10 (n % 10)
  | _ => []

/-- A pair, with the key padded to twelve columns. -/
def keyValue (key : TomlKey) (rhs : Bytes) : Bytes :=
  lit key.text ++ List.replicate (12 - key.text.length) ' '.toUInt8 ++ lit " = " ++ rhs ++ lit "\n"

/-- Source: `ToTomlBlock`, `line` -/
def line (key : TomlKey) (value : List Char) : Bytes := keyValue key (tomlQuote (utf8 value))

/-- The names of a hoist value that are not empty. -/
def hoistNames (hoist : List Char) : List (List Char) :=
  (hoist.splitOn ',').filter fun name => !name.isEmpty

/-- The right-hand side of a hoist value. -/
def hoistValue (hoist : List Char) : Bytes :=
  if hoist = "never".toList then tomlQuote (utf8 hoist)
  else
    lit "[" ++ (lit ", ").intercalate ((hoistNames hoist).map fun name => tomlQuote (utf8 name)) ++
      lit "]"

/-- Emit one entry. Source: `ToTomlBlock` -/
def toTomlBlock (e : Entry) : Bytes :=
  let out := lit "[[" ++ lit tomlTable ++ lit "]]\n" ++ line .id e.id ++ line .parentId e.parentId
  if e.isSeparator then
    let h := normalizeSeparatorHeight e.height
    out ++ line .kind kindSeparator ++
      (if !e.style.isEmpty && e.style ≠ styleLine then line .style e.style else []) ++
      (if h ≠ kSeparatorHeightDefault then keyValue .height (utf8 (fixed1 h)) else []) ++
      (if !e.placement.isEmpty && e.placement ≠ placementInline then line .placement e.placement
        else []) ++
      (if !e.name.isEmpty then line .name e.name else []) ++
      (if e.collapsed then keyValue .collapsed (lit "true") else []) ++ lit "\n"
  else
    out ++
      (if !e.profile.isEmpty then
        line .profile e.profile ++
          (if !e.profileName.isEmpty then line .profileName e.profileName else [])
        else []) ++
      line .name e.name ++ line .directory e.directory ++ line .command e.command ++
      line .icon e.icon ++
      (if !e.color.isEmpty then line .color e.color else []) ++
      (if !e.colorTarget.isEmpty && e.colorTarget ≠ "both".toList then
        line .colorTarget e.colorTarget else []) ++
      (if !e.hoist.isEmpty then keyValue .hoist (hoistValue e.hoist) else []) ++ lit "\n"

/-- The lines of the file in front of the first table. -/
def preamble : List String :=
  ["# axan startup sessions — the global launch-entry tree.",
    "# Canonical config is settings.json (\"startupSessions\"); this file is the",
    "# portable mirror. Import it from the Settings > Startup sessions page on",
    "# another machine to carry the tree across.", ""]

/-- The file. Source: `buildStartupSessionsToml`, from the entries on -/
def buildStartupSessionsToml (entries : List Entry) : Bytes :=
  (preamble.flatMap fun l => lit l ++ lit "\n") ++ lit "[meta]\n" ++ lit "axan-toml-version = " ++
    utf8 (Nat.toDigits 10 (tomlVersionFor entries)) ++ lit "\n" ++
    lit "exported-by       = \"windows\"\n\n" ++ entries.flatMap toTomlBlock

/-! ### The pairs of a block -/

/-- What stands on the right of a pair. -/
inductive Item where
  | text (s : List Char)
  | number (x : Double)
  | flag
  | names (l : List (List Char))

/-- The text of an item. -/
def Item.rhs : Item → List Char
  | .text s => quoted s
  | .number x => fixed1 x
  | .flag => "true".toList
  | .names l => '[' :: ([',', ' '].intercalate (l.map quoted) ++ [']'])

/-- The value an item stands for. -/
def Item.value : Item → Toml.Value
  | .text s => .string s
  | .number x => .float x
  | .flag => .boolean true
  | .names l => .array (l.map .string)

/-- A pair that is left out unless `c`. -/
def optional (c : Bool) (key : TomlKey) (item : Item) : List (TomlKey × Item) :=
  if c then [(key, item)] else []

/-- The item of a hoist value. -/
def hoistItem (hoist : List Char) : Item :=
  if hoist = "never".toList then .text hoist else .names (hoistNames hoist)

/-- The pairs of a separator. -/
def separatorItems (e : Entry) : List (TomlKey × Item) :=
  [(TomlKey.id, Item.text e.id), (TomlKey.parentId, Item.text e.parentId),
      (TomlKey.kind, Item.text kindSeparator)] ++
    optional (!e.style.isEmpty && e.style ≠ styleLine) .style (.text e.style) ++
    optional (normalizeSeparatorHeight e.height ≠ kSeparatorHeightDefault) .height
      (.number (normalizeSeparatorHeight e.height)) ++
    optional (!e.placement.isEmpty && e.placement ≠ placementInline) .placement
      (.text e.placement) ++
    optional (!e.name.isEmpty) .name (.text e.name) ++
    optional e.collapsed .collapsed .flag

/-- The pairs of a session. -/
def sessionItems (e : Entry) : List (TomlKey × Item) :=
  [(TomlKey.id, Item.text e.id), (TomlKey.parentId, Item.text e.parentId)] ++
    optional (!e.profile.isEmpty) .profile (.text e.profile) ++
    optional (!e.profile.isEmpty && !e.profileName.isEmpty) .profileName (.text e.profileName) ++
    [(TomlKey.name, Item.text e.name), (TomlKey.directory, Item.text e.directory),
      (TomlKey.command, Item.text e.command), (TomlKey.icon, Item.text e.icon)] ++
    optional (!e.color.isEmpty) .color (.text e.color) ++
    optional (!e.colorTarget.isEmpty && e.colorTarget ≠ "both".toList) .colorTarget
      (.text e.colorTarget) ++
    optional (!e.hoist.isEmpty) .hoist (hoistItem e.hoist)

/-- The pairs of a block. -/
def items (e : Entry) : List (TomlKey × Item) :=
  if e.isSeparator then separatorItems e else sessionItems e

/-- The line of a pair. -/
def itemLine (p : TomlKey × Item) : List Char :=
  p.1.text.toList ++ (List.replicate (12 - p.1.text.length + 1) ' ' ++
    '=' :: (List.replicate 1 ' ' ++ p.2.rhs))

/-- The lines of a block. -/
def blockLines (e : Entry) : List (List Char) :=
  ('[' :: '[' :: (tomlTable.toList ++ [']', ']'])) :: ((items e).map itemLine ++ [[]])

/-- Spaces are bytes of spaces. -/
theorem utf8_replicate_space (n : ℕ) :
    utf8 (List.replicate n ' ') = List.replicate n ' '.toUInt8 := by
  induction n with
  | zero => rfl
  | succ n ih =>
      rw [List.replicate_succ, utf8_cons, ih, List.replicate_succ]
      rfl

/-- The bytes of a pair are those of its line. -/
theorem keyValue_utf8 (key : TomlKey) (item : Item) :
    keyValue key (utf8 item.rhs) = utf8 (itemLine (key, item) ++ ['\n']) := by
  have hspaces : List.replicate (12 - key.text.length + 1) ' ' =
      List.replicate (12 - key.text.length) ' ' ++ [' '] := List.replicate_succ'
  have heq : utf8 ['='] = lit "=" := rfl
  rw [keyValue, itemLine, hspaces]
  simp only [utf8_append, utf8_cons, utf8_nil, utf8_replicate_space, List.append_assoc,
    List.append_nil]
  rfl

/-- Joined texts are encoded text by text. -/
theorem utf8_intercalate (sep : List Char) (ls : List (List Char)) :
    utf8 (sep.intercalate ls) = (utf8 sep).intercalate (ls.map utf8) := by
  induction ls with
  | nil => rfl
  | cons l ls ih =>
      cases ls with
      | nil => simp
      | cons l' ls =>
          rw [List.intercalate_cons_cons, utf8_append, utf8_append, ih]
          simp only [List.map_cons, List.intercalate_cons_cons]

/-- The hoist value is written as that of its item. -/
theorem hoistValue_utf8 (hoist : List Char) : hoistValue hoist = utf8 (hoistItem hoist).rhs := by
  rw [hoistValue, hoistItem]
  by_cases h : hoist = "never".toList
  · rw [if_pos h, if_pos h, tomlQuote_utf8]
    rfl
  · rw [if_neg h, if_neg h, Item.rhs, utf8_cons, utf8_append, utf8_intercalate, List.map_map]
    have hquote : (fun name => tomlQuote (utf8 name)) = utf8 ∘ quoted := funext tomlQuote_utf8
    rw [hquote, List.append_assoc]
    rfl

/-- The bytes of pairs. -/
def itemBytes (l : List (TomlKey × Item)) : Bytes := utf8 (Toml.unlines (l.map itemLine))

/-- Items are written one after the other. -/
theorem itemBytes_append (l l' : List (TomlKey × Item)) :
    itemBytes (l ++ l') = itemBytes l ++ itemBytes l' := by
  rw [itemBytes, List.map_append, Toml.unlines_append, utf8_append, itemBytes, itemBytes]

theorem itemBytes_cons (p : TomlKey × Item) (l : List (TomlKey × Item)) :
    itemBytes (p :: l) = keyValue p.1 (utf8 p.2.rhs) ++ itemBytes l := by
  rw [itemBytes, List.map_cons, Toml.unlines, List.flatMap_cons, utf8_append, ← keyValue_utf8]
  rfl

theorem itemBytes_nil : itemBytes [] = [] := rfl

/-- An optional item is written when its condition holds. -/
theorem itemBytes_optional (c : Bool) (key : TomlKey) (item : Item) :
    itemBytes (optional c key item) = if c then keyValue key (utf8 item.rhs) else [] := by
  rw [optional]
  cases c with
  | false => rfl
  | true =>
      rw [if_pos rfl, if_pos rfl, itemBytes_cons, itemBytes_nil, List.append_nil]

/-- A line is the pair of its text. -/
theorem line_eq (key : TomlKey) (s : List Char) :
    line key s = keyValue key (utf8 (Item.text s).rhs) := by rw [line, tomlQuote_utf8]; rfl

/-- A block is its header and its items. -/
theorem blockLines_utf8 (e : Entry) :
    utf8 (Toml.unlines (blockLines e)) =
      lit "[[" ++ lit tomlTable ++ lit "]]\n" ++ itemBytes (items e) ++ lit "\n" := by
  rw [blockLines, Toml.unlines, List.flatMap_cons, List.flatMap_append]
  simp only [utf8_append, utf8_cons, itemBytes, lit, List.append_assoc, List.cons_append]
  rfl

/-- **A block is the bytes of its lines.** -/
theorem toTomlBlock_eq (e : Entry) : toTomlBlock e = utf8 (Toml.unlines (blockLines e)) := by
  rw [blockLines_utf8, toTomlBlock, items]
  cases e.isSeparator with
  | true =>
      simp only [if_true, separatorItems, itemBytes_append, itemBytes_cons, itemBytes_nil,
        itemBytes_optional, line_eq, List.append_assoc, List.append_nil, decide_eq_true_eq]
      rfl
  | false =>
      simp only [Bool.false_eq_true, if_false, sessionItems, itemBytes_append, itemBytes_cons,
        itemBytes_nil, itemBytes_optional, line_eq, hoistValue_utf8, List.append_assoc,
        List.append_nil]
      -- the name of the profile is written only behind the profile
      cases e.profile.isEmpty with
      | true => rfl
      | false => simp only [Bool.not_false, if_true, Bool.true_and, List.append_assoc]

/-! ### Heights -/

/-- What is written of a height. -/
def readsBack (x : Double) : Bool :=
  (fixed1 x).head?.any Char.isDigit && Toml.readInteger (fixed1 x) = none &&
    Toml.readFloat (fixed1 x) = some x && '\n' ∉ fixed1 x

/-- The tenths are written so that they are read back. -/
theorem readsBack_tenths : ∀ k < 100, readsBack (tenths (k + 1 : ℕ)) = true := by decide +kernel

theorem readsBack_height (h : Double) : readsBack (normalizeSeparatorHeight h) = true :=
  normalizeSeparatorHeight_cases (P := fun x => readsBack x = true) readsBack_tenths h

end Axan.LaunchEntryWire
