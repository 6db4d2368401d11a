import Axan.Base.Pairs
import Axan.LaunchEntryWire.Document
import Axan.LaunchEntryWire.HoistRule

/-!
# Reading the interchange file: `FromTomlTable`, `ImportFromToml`

* `fromTomlTable` — a table of the file as an entry; a value of another type is read as absent.
* `importIcon`, `resolveImportedProfile` — what becomes of the icon and of the profile.
* `importFromToml` — the importer: whether it succeeded, and the list of the editor after it.
* `fromTomlTable_pairsOf` — the table written for an entry is read as the entry, without what is
  left out.
* `import_build` — **export, then import**.

`Machine` is what the importer asks of the settings; the TOML parser is a parameter.
-/

namespace Axan.LaunchEntryWire

open Axan.Base

/-! ### The values of a table -/

/-- `value<std::string>()` -/
def asString : Option Toml.Value → Option (List Char)
  | some (.string s) => some s
  | _ => none

/-- `value<double>()`, else `value<int64_t>()`. -/
def asHeight : Option Toml.Value → Option Double
  | some (.float x) => some x
  | some (.integer n) => some (Double.ofInt n)
  | some (.boolean b) => some (.finite (if b then 1 else 0))
  | _ => none

/-- `value<bool>()` -/
def asBool : Option Toml.Value → Option Bool
  | some (.boolean b) => some b
  | some (.integer n) => some (n ≠ 0)
  | _ => none

/-- `value<int64_t>()` -/
def asInteger : Option Toml.Value → Option ℤ
  | some (.integer n) => some n
  | some (.float (.finite q)) => if q.den = 1 then some q.num else none
  | some (.boolean b) => some (if b then 1 else 0)
  | _ => none

/-- The hoist value: a string, or the strings of an array joined by commas. -/
def asHoist : Option Toml.Value → List Char
  | some (.string s) => s
  | some (.array vs) =>
      let names := vs.filterMap fun v => asString (some v)
      if names.isEmpty then "never".toList else [','].intercalate names
  | _ => []

/-- Source: `FromTomlTable` -/
def fromTomlTable (t : Toml.Table) : Entry :=
  let get := fun key : TomlKey => t.lookup key.text.toList
  let field := fun key : TomlKey => (asString (get key)).getD []
  let e : Entry :=
    { id := field .id
      parentId := field .parentId
      profile := field .profile
      profileName := field .profileName
      name := field .name
      directory := field .directory
      command := field .command
      icon := field .icon
      color := field .color
      colorTarget := field .colorTarget
      kind := field .kind
      style := field .style
      placement := field .placement
      height := (asHeight (get .height)).getD (.finite 0)
      collapsed := (asBool (get .collapsed)).getD false
      hoist := asHoist (get .hoist) }
  if e.isSeparator then { e with height := normalizeSeparatorHeight e.height } else e

/-! ### Icons -/

/-- Source: `IconRegistry::kBuiltinPrefix` -/
def kBuiltinPrefix : WString := L "builtin:"

/-- Source: `IconRegistry::details::kBuiltins` -/
def kBuiltins : List (WString × WChar) :=
  [(L "terminal", 0xE756), (L "ssh", 0xE8CE), (L "server", 0xE968), (L "database", 0xE964),
    (L "package", 0xE7B8), (L "container", 0xEDA2), (L "git", 0xE8AB), (L "editor", 0xE943),
    (L "logs", 0xE7C3), (L "build", 0xE90F), (L "test", 0xE73E)]

/-- The native icon, and whether a glyph was found. Source: `IconRegistry::PortableToNative` -/
def portableToNative (portableIcon : WString) : WString × Bool :=
  if portableIcon.length ≤ kBuiltinPrefix.length ||
      portableIcon.take kBuiltinPrefix.length ≠ kBuiltinPrefix then (portableIcon, false)
  else
    match kBuiltins.lookup (portableIcon.drop kBuiltinPrefix.length) with
    | some glyph => ([glyph], true)
    | none => (portableIcon, false)

/-- The native icon, and whether the token is an unknown `builtin:` name. Source: `ImportIcon` -/
def importIcon (portableIcon : WString) : WString × Bool :=
  let (native, mapped) := portableToNative portableIcon
  if !mapped && kBuiltinPrefix.length ≤ portableIcon.length &&
      portableIcon.take kBuiltinPrefix.length = kBuiltinPrefix then ([], true)
  else (native, false)

/-! ### Profiles -/

/-- Source: `GUID` -/
structure Guid where
  data1 : Fin (2 ^ 32)
  data2 : Fin (2 ^ 16)
  data3 : Fin (2 ^ 16)
  data4 : Vector (Fin 256) 8
  deriving DecidableEq, Repr

/-- A number in lower-case hexadecimal digits, padded with zeros (`%0nx`). -/
def hexPadded (width n : ℕ) : List Char :=
  List.replicate (width - (Nat.toDigits 16 n).length) '0' ++ Nat.toDigits 16 n

/-- Source: `Utils::GuidToString` -/
def guidToString (g : Guid) : WString :=
  utf16 ('{' :: (hexPadded 8 g.data1 ++ '-' :: (hexPadded 4 g.data2 ++ '-' ::
    (hexPadded 4 g.data3 ++ '-' :: ((g.data4.toList.take 2).flatMap (hexPadded 2 ·.val) ++ '-' ::
      ((g.data4.toList.drop 2).flatMap (hexPadded 2 ·.val) ++ ['}']))))))

/-- What the importer asks of the system and of the settings. -/
structure Machine where
  /-- `IIDFromString`; `none` where it fails. -/
  guidFromString : WString → Option Guid
  /-- The GUIDs of the profiles. -/
  allProfiles : List Guid
  /-- The profiles that are not hidden, with their names. -/
  activeProfiles : List (WString × Guid)
  /-- `std::towlower` -/
  towlower : WChar → WChar

/-- Source: `CascadiaSettings::FindProfile` -/
def Machine.findProfile (machine : Machine) (guid : Guid) : Option Guid :=
  machine.allProfiles.find? fun g => g = guid

/-- Source: `MatchProfileName` -/
def matchProfileName (towlower : WChar → WChar) (name : WString) (profileNames : List WString) :
    Option ℕ :=
  if name.isEmpty then none
  else
    match profileNames.findIdx? (· = name) with
    | some i => some i
    | none => profileNames.findIdx? fun candidate => candidate.map towlower = name.map towlower

/-- A GUID in braces. -/
def braced (bareGuid : List Char) : List Char :=
  if bareGuid.isEmpty then []
  else if bareGuid.head? = some '{' then bareGuid
  else '{' :: (bareGuid ++ ['}'])

/-- Source: `_resolveImportedProfile` -/
def resolveImportedProfile (machine : Machine) (bareGuid name : List Char) : WString :=
  if bareGuid.isEmpty && name.isEmpty then []
  else
    let byGuid :=
      if (braced bareGuid).isEmpty then none
      else (machine.guidFromString (utf16 (braced bareGuid))).bind machine.findProfile
    match byGuid with
    | some g => guidToString g
    | none =>
        let byName :=
          (matchProfileName machine.towlower (utf16 name)
            (machine.activeProfiles.map Prod.fst)).bind fun i => machine.activeProfiles[i]?
        match byName with
        | some p => guidToString p.2
        | none => utf16 (braced bareGuid)

/-! ### The importer -/

/-- The row of an entry. -/
def importRow (machine : Machine) (e : Entry) (id : WString) : LaunchEntry :=
  if e.isSeparator then
    { id := id
      parentId := utf16 e.parentId
      kind := kindSeparatorW
      separatorStyle := utf16 e.style
      height := e.height
      placement := utf16 e.placement
      name := utf16 e.name
      collapsed := e.collapsed }
  else
    { id := id
      parentId := utf16 e.parentId
      profile := resolveImportedProfile machine e.profile e.profileName
      name := utf16 e.name
      directory := utf16 e.directory
      command := utf16 e.command
      icon := (importIcon (utf16 e.icon)).1
      color := utf16 e.color
      colorTarget := utf16 e.colorTarget
      hoist := if e.hoist.isEmpty then [] else HoistRule.format (HoistRule.parse (utf16 e.hoist)) }

/-- The kinds of rows the importer knows. -/
def Entry.knownKind (e : Entry) : Bool :=
  e.kind.isEmpty || e.kind = kindSession || e.kind = kindSeparator

/-- The loop over the rows; `fresh` are the ids `_newEntryId` draws, of which `drawn` are used. -/
def importRows (machine : Machine) (fresh : ℕ → WString) : List Toml.Value → ℕ → List LaunchEntry
  | [], _ => []
  | .table t :: vs, drawn =>
      let e := fromTomlTable t
      let id := if e.id.isEmpty then fresh drawn else utf16 e.id
      let drawn' := if e.id.isEmpty then drawn + 1 else drawn
      if e.knownKind then importRow machine e id :: importRows machine fresh vs drawn'
      else importRows machine fresh vs drawn'
  | _ :: vs, drawn => importRows machine fresh vs drawn

/-- The version a document declares. -/
def documentVersion (doc : Toml.Table) : Option ℤ :=
  match doc.lookup "meta".toList with
  | some (.table t) => asInteger (t.lookup "axan-toml-version".toList)
  | _ => none

/-- The rows of a document; `none` when the import fails. -/
def importDocument (machine : Machine) (fresh : ℕ → WString) (doc : Toml.Table) :
    Option (List LaunchEntry) :=
  if (documentVersion doc).any fun version => decide ((kTomlVersionMax : ℤ) < version) then none
  else
    match doc.lookup tomlTable.toList with
    | some (.array entries) =>
        let rows := importRows machine fresh entries 0
        if rows.isEmpty then none else some rows
    | _ => none

/-- Whether the import succeeds, and the list after it. `file` is `none` when the file cannot be
read. Source: `ImportFromToml` -/
def importFromToml (parse : Bytes → Option Toml.Table) (machine : Machine) (fresh : ℕ → WString)
    (file : Option Bytes) (current : List LaunchEntry) : Bool × List LaunchEntry :=
  match (file.bind parse).bind (importDocument machine fresh) with
  | none => (false, current)
  | some rows => (true, rows)

/-! ### Reading what was written -/

/-- What is read of a key is the value of its item. -/
theorem lookup_pairsOf (e : Entry) (key : TomlKey) :
    (pairsOf e).lookup key.text.toList = ((items e).lookup key).map Item.value :=
  lookup_map_injective text_injective Item.value (items e) key

/-- An optional item is there when its condition holds. -/
theorem lookup_optional (c : Bool) (key : TomlKey) (item : Item) (k : TomlKey) :
    (optional c key item).lookup k = if c && k = key then some item else none := by
  rw [optional]
  cases c with
  | false => rfl
  | true =>
      rw [if_pos rfl, List.lookup_cons]
      by_cases h : k = key
      · simp [h]
      · simp [h, beq_false_of_ne h]

/-- A word, left out when it is the default. -/
def omitDefault (default word : List Char) : List Char := if word = default then [] else word

/-- A separator as it is read back. -/
def separatorRead (e : Entry) : Entry :=
  { id := e.id
    parentId := e.parentId
    name := e.name
    kind := kindSeparator
    style := omitDefault styleLine e.style
    height := normalizeSeparatorHeight e.height
    placement := omitDefault placementInline e.placement
    collapsed := e.collapsed }

/-- A session as it is read back. -/
def sessionRead (e : Entry) : Entry :=
  { id := e.id
    parentId := e.parentId
    profile := e.profile
    profileName := if e.profile.isEmpty then [] else e.profileName
    name := e.name
    directory := e.directory
    command := e.command
    icon := e.icon
    color := e.color
    colorTarget := omitDefault "both".toList e.colorTarget
    hoist := e.hoist }

/-- A text that is written under a condition, or empty. -/
theorem getD_asString_ite (c : Bool) (s : List Char) :
    (asString ((if c then some (Item.text s) else none).map Item.value)).getD [] =
      if c then s else [] := by
  cases c <;> rfl

/-- Leaving out an empty text is keeping it. -/
theorem ite_not_isEmpty (s : List Char) : (if !s.isEmpty then s else []) = s := by
  cases s <;> rfl

theorem ite_omitDefault (default s : List Char) :
    (if !s.isEmpty && decide (s ≠ default) then s else []) = omitDefault default s := by
  rw [omitDefault]
  by_cases h : s = default
  · simp [h]
  · cases s with
    | nil => simp
    | cons c t => simp [h]

/-- What is written of a separator. -/
theorem lookup_separatorItems (e : Entry) (key : TomlKey) :
    (separatorItems e).lookup key =
      match key with
      | .id => some (.text e.id)
      | .parentId => some (.text e.parentId)
      | .kind => some (.text kindSeparator)
      | .style => if !e.style.isEmpty && e.style ≠ styleLine then some (.text e.style) else none
      | .height =>
          if normalizeSeparatorHeight e.height ≠ kSeparatorHeightDefault then
            some (.number (normalizeSeparatorHeight e.height)) else none
      | .placement =>
          if !e.placement.isEmpty && e.placement ≠ placementInline then some (.text e.placement)
          else none
      | .name => if !e.name.isEmpty then some (.text e.name) else none
      | .collapsed => if e.collapsed then some .flag else none
      | _ => none := by
  simp only [separatorItems, List.lookup_append, lookup_optional]
  cases key <;> simp [lookup_cons_ite]

/-- What is written of a session. -/
theorem lookup_sessionItems (e : Entry) (key : TomlKey) :
    (sessionItems e).lookup key =
      match key with
      | .id => some (.text e.id)
      | .parentId => some (.text e.parentId)
      | .profile => if !e.profile.isEmpty then some (.text e.profile) else none
      | .profileName =>
          if !e.profile.isEmpty && !e.profileName.isEmpty then some (.text e.profileName) else none
      | .name => some (.text e.name)
      | .directory => some (.text e.directory)
      | .command => some (.text e.command)
      | .icon => some (.text e.icon)
      | .color => if !e.color.isEmpty then some (.text e.color) else none
      | .colorTarget =>
          if !e.colorTarget.isEmpty && e.colorTarget ≠ "both".toList then
            some (.text e.colorTarget) else none
      | .hoist => if !e.hoist.isEmpty then some (hoistItem e.hoist) else none
      | _ => none := by
  simp only [sessionItems, List.lookup_append, lookup_optional]
  cases key <;> simp [lookup_cons_ite]

/-- A height that is left out is the default. -/
theorem height_read (h : Double) :
    normalizeSeparatorHeight ((asHeight
        ((if normalizeSeparatorHeight h ≠ kSeparatorHeightDefault then
          some (Item.number (normalizeSeparatorHeight h)) else none).map Item.value)).getD
      (.finite 0)) = normalizeSeparatorHeight h := by
  by_cases hd : normalizeSeparatorHeight h = kSeparatorHeightDefault
  · rw [if_neg (by simpa using hd), hd]
    rfl
  · rw [if_pos hd]
    exact normalizeSeparatorHeight_idem h

/-- The flag is read as it was written. -/
theorem collapsed_read (c : Bool) :
    (asBool ((if c then some Item.flag else none).map Item.value)).getD false = c := by
  cases c <;> rfl

/-- Names are read as strings. -/
theorem filterMap_asString (names : List (List Char)) :
    ((names.map Toml.Value.string).filterMap fun v => asString (some v)) = names := by
  induction names with
  | nil => rfl
  | cons n names ih => simp [asString]

/-- A canonical hoist value is read back. -/
theorem hoist_read {hoist : List Char}
    (hc : HoistRule.normalize (utf16 hoist) = utf16 hoist) :
    asHoist ((if !hoist.isEmpty then some (hoistItem hoist) else none).map Item.value) = hoist := by
  by_cases hne : hoist = []
  · rw [hne]
    rfl
  · have hsome : (!hoist.isEmpty) = true := by simpa using hne
    rw [if_pos hsome, hoistItem]
    by_cases hnever : hoist = "never".toList
    · rw [if_pos hnever]
      rfl
    · have hpieces : hoistNames hoist = hoist.splitOn ',' := by
        apply List.filter_eq_self.mpr
        intro piece hp
        simpa using HoistRule.canonical_pieces hc hne hnever piece hp
      have hnil : (hoist.splitOn ',').isEmpty = false := by simp
      rw [if_neg hnever, hpieces]
      simp only [Option.map_some, Item.value, asHoist, filterMap_asString]
      rw [if_neg (by simp [hnil]), List.intercalate_splitOn]

/-- The table of a separator is read as the separator. -/
theorem fromTomlTable_separator {e : Entry} (h : e.isSeparator = true) :
    fromTomlTable (pairsOf e) = separatorRead e := by
  have hget : ∀ key : TomlKey, (pairsOf e).lookup key.text.toList =
      ((separatorItems e).lookup key).map Item.value := by
    intro key
    rw [lookup_pairsOf, items, if_pos h]
  simp only [fromTomlTable, hget, lookup_separatorItems]
  rw [if_pos (by rfl)]
  simp only [getD_asString_ite, ite_not_isEmpty, ite_omitDefault, height_read, collapsed_read]
  rfl

/-- The table of a session is read as the session. -/
theorem fromTomlTable_session {e : Entry} (h : e.isSeparator = false)
    (hc : HoistRule.normalize (utf16 e.hoist) = utf16 e.hoist) :
    fromTomlTable (pairsOf e) = sessionRead e := by
  have hget : ∀ key : TomlKey, (pairsOf e).lookup key.text.toList =
      ((sessionItems e).lookup key).map Item.value := by
    intro key
    rw [lookup_pairsOf, items, if_neg (by simp [h])]
  have hname : (if !e.profile.isEmpty && !e.profileName.isEmpty then e.profileName else []) =
      if e.profile.isEmpty then [] else e.profileName := by
    cases e.profile.isEmpty with
    | true => rfl
    | false => exact ite_not_isEmpty e.profileName
  simp only [fromTomlTable, hget, lookup_sessionItems]
  rw [if_neg (by exact Bool.false_ne_true)]
  simp only [getD_asString_ite, ite_not_isEmpty, ite_omitDefault, hoist_read hc, hname]
  rfl

/-! ### The order of keys

Everything is read by its key, so that the import of a table is that of any other with the same
keys and values. -/

section Same

variable {v w : Option Toml.Value} {t u : Toml.Table} {vs ws : List Toml.Value}

/-- The order of keys does not matter to a string. -/
theorem asString_same (h : Option.Rel Toml.SameValue v w) : asString v = asString w := by
  cases h with
  | none => rfl
  | some h => cases h <;> rfl

/-- Nor to a height. -/
theorem asHeight_same (h : Option.Rel Toml.SameValue v w) : asHeight v = asHeight w := by
  cases h with
  | none => rfl
  | some h => cases h <;> rfl

/-- Nor to a flag. -/
theorem asBool_same (h : Option.Rel Toml.SameValue v w) : asBool v = asBool w := by
  cases h with
  | none => rfl
  | some h => cases h <;> rfl

/-- Nor to a number. -/
theorem asInteger_same (h : Option.Rel Toml.SameValue v w) : asInteger v = asInteger w := by
  cases h with
  | none => rfl
  | some h => cases h <;> rfl

/-- Nor to the strings of an array. -/
theorem strings_same (h : List.Forall₂ Toml.SameValue vs ws) :
    (vs.filterMap fun v => asString (some v)) = ws.filterMap fun v => asString (some v) := by
  induction h with
  | nil => rfl
  | cons h _ ih => rw [List.filterMap_cons, List.filterMap_cons, asString_same (.some h), ih]

theorem asHoist_same (h : Option.Rel Toml.SameValue v w) : asHoist v = asHoist w := by
  cases h with
  | none => rfl
  | some h =>
      cases h with
      | refl => rfl
      | array h => rw [asHoist, asHoist, strings_same h]
      | table h => rfl

theorem fromTomlTable_same (h : Toml.SameTable t u) : fromTomlTable t = fromTomlTable u := by
  have hfield : ∀ key : TomlKey,
      asString (t.lookup key.text.toList) = asString (u.lookup key.text.toList) :=
    fun key => asString_same (h _)
  simp only [fromTomlTable, hfield, asHeight_same (h TomlKey.height.text.toList),
    asBool_same (h TomlKey.collapsed.text.toList), asHoist_same (h TomlKey.hoist.text.toList)]

theorem importRows_same (machine : Machine) (fresh : ℕ → WString)
    (h : List.Forall₂ Toml.SameValue vs ws) (drawn : ℕ) :
    importRows machine fresh vs drawn = importRows machine fresh ws drawn := by
  induction h generalizing drawn with
  | nil => rfl
  | @cons v w vs ws h _ ih =>
      cases h with
      | refl => cases v <;> simp only [importRows, ih]
      | array h => simp only [importRows, ih]
      | table h => simp only [importRows, fromTomlTable_same h, ih]

theorem documentVersion_same (h : Toml.SameTable t u) : documentVersion t = documentVersion u := by
  have hmeta := h "meta".toList
  unfold documentVersion
  generalize t.lookup "meta".toList = v, u.lookup "meta".toList = w at hmeta
  cases hmeta with
  | none => rfl
  | some hmeta =>
      cases hmeta with
      | refl => rfl
      | array h => rfl
      | table h => exact asInteger_same (h _)

/-- **The import does not depend on the order of keys.** -/
theorem importDocument_same (machine : Machine) (fresh : ℕ → WString) (h : Toml.SameTable t u) :
    importDocument machine fresh t = importDocument machine fresh u := by
  have hrows := h tomlTable.toList
  unfold importDocument
  rw [documentVersion_same h]
  generalize t.lookup tomlTable.toList = v, u.lookup tomlTable.toList = w at hrows
  split_ifs
  · rfl
  · cases hrows with
    | none => rfl
    | some hrows =>
        cases hrows with
        | refl => rfl
        | array h => simp only [importRows_same machine fresh h]
        | table h => rfl

end Same

/-! ### Export, then import -/

/-- An entry as the importer's row, with the profile that was found. -/
def importedRow (e : Entry) (profile : WString) : LaunchEntry :=
  if e.isSeparator then
    { id := utf16 e.id
      parentId := utf16 e.parentId
      kind := kindSeparatorW
      separatorStyle := utf16 (omitDefault styleLine e.style)
      height := normalizeSeparatorHeight e.height
      placement := utf16 (omitDefault placementInline e.placement)
      name := utf16 e.name
      collapsed := e.collapsed }
  else
    { id := utf16 e.id
      parentId := utf16 e.parentId
      profile := profile
      name := utf16 e.name
      directory := utf16 e.directory
      command := utf16 e.command
      icon := (portableToNative (utf16 e.icon)).1
      color := utf16 e.color
      colorTarget := utf16 (omitDefault "both".toList e.colorTarget)
      hoist := utf16 e.hoist }

/-- `profile` names the profile of the entry: none, or the one with its GUID. -/
def SameProfile (machine : Machine) (e : Entry) (profile : WString) : Prop :=
  if e.profile.isEmpty then profile = []
  else ∃ g ∈ machine.allProfiles,
    machine.guidFromString (utf16 (braced e.profile)) = some g ∧ profile = guidToString g

/-- An entry that this machine can read back. -/
structure Portable (machine : Machine) (e : Entry) : Prop where
  knownKind : e.knownKind = true
  id_ne : e.id ≠ []
  plain : e.Plain
  hoist : e.isSeparator = false → HoistRule.normalize (utf16 e.hoist) = utf16 e.hoist
  profile : e.isSeparator = false → ∃ profile, SameProfile machine e profile
  icon : e.isSeparator = false → (importIcon (utf16 e.icon)).2 = false

/-- A known icon is mapped to its glyph. -/
theorem importIcon_known {icon : WString} (h : (importIcon icon).2 = false) :
    (importIcon icon).1 = (portableToNative icon).1 := by
  rw [importIcon] at h ⊢
  by_cases hunknown : (!(portableToNative icon).2 && kBuiltinPrefix.length ≤ icon.length &&
      icon.take kBuiltinPrefix.length = kBuiltinPrefix) = true
  · simp only [if_pos hunknown] at h
    exact absurd h (by decide)
  · simp only [if_neg hunknown]

/-- A GUID in braces is not empty. -/
theorem braced_isEmpty {bareGuid : List Char} (h : bareGuid.isEmpty = false) :
    (braced bareGuid).isEmpty = false := by
  rw [braced, if_neg (by simp [h])]
  split
  · exact h
  · rfl

/-- A profile of the machine is found. -/
theorem findProfile_of_mem {machine : Machine} {g : Guid} (h : g ∈ machine.allProfiles) :
    machine.findProfile g = some g := by
  have hfound : (machine.allProfiles.find? fun g' => decide (g' = g)).isSome = true := by
    rw [List.find?_isSome]
    exact ⟨g, h, by simp⟩
  obtain ⟨g', hg'⟩ := Option.isSome_iff_exists.mp hfound
  have heq : g' = g := by simpa using List.find?_some hg'
  rw [Machine.findProfile, hg', heq]

/-- A profile of the machine is found by its GUID. -/
theorem resolveImportedProfile_eq {machine : Machine} {e : Entry} {profile : WString}
    (h : SameProfile machine e profile) :
    resolveImportedProfile machine e.profile (if e.profile.isEmpty then [] else e.profileName) =
      profile := by
  rw [SameProfile] at h
  by_cases hp : e.profile.isEmpty = true
  · rw [if_pos hp] at h ⊢
    rw [resolveImportedProfile, if_pos (by simp [hp]), h]
  · rw [if_neg hp] at h
    obtain ⟨g, hg, hguid, rfl⟩ := h
    have hbraced := braced_isEmpty (Bool.eq_false_iff.mpr hp)
    rw [resolveImportedProfile, if_neg (by simp [hp])]
    simp [hbraced, hguid, findProfile_of_mem hg]

/-- A separator is imported as its row. -/
theorem importRow_separator (machine : Machine) {e : Entry} (h : e.isSeparator = true)
    (profile : WString) :
    importRow machine (separatorRead e) (utf16 e.id) = importedRow e profile := by
  rw [importRow, if_pos (by rfl), importedRow, if_pos h]
  rfl

/-- So is a session that can be carried over. -/
theorem importRow_session {machine : Machine} {e : Entry} {profile : WString}
    (h : e.isSeparator = false) (hport : Portable machine e)
    (hprofile : SameProfile machine e profile) :
    importRow machine (sessionRead e) (utf16 e.id) = importedRow e profile := by
  have hhoist : (if e.hoist.isEmpty then []
      else HoistRule.format (HoistRule.parse (utf16 e.hoist))) = utf16 e.hoist := by
    by_cases hne : e.hoist = []
    · rw [hne]
      rfl
    · rw [if_neg (by simpa using hne)]
      exact hport.hoist h
  have hs : ¬ e.isSeparator = true := by simp [h]
  rw [importRow, if_neg (by exact Bool.false_ne_true), importedRow, if_neg hs, ← hhoist,
    ← resolveImportedProfile_eq hprofile, ← importIcon_known (hport.icon h)]
  rfl

/-- The row of an entry that can be read back. -/
theorem importRow_fromTomlTable {machine : Machine} {e : Entry} (h : Portable machine e) :
    (fromTomlTable (pairsOf e)).id = e.id ∧ (fromTomlTable (pairsOf e)).knownKind = true ∧
      ∃ profile, (e.isSeparator = false → SameProfile machine e profile) ∧
        importRow machine (fromTomlTable (pairsOf e)) (utf16 e.id) = importedRow e profile := by
  by_cases hs : e.isSeparator = true
  · rw [fromTomlTable_separator hs]
    refine ⟨rfl, rfl, [], fun hn => ?_, importRow_separator machine hs []⟩
    rw [hs] at hn
    cases hn
  · have hs' : e.isSeparator = false := Bool.eq_false_iff.mpr hs
    obtain ⟨profile, hprofile⟩ := h.profile hs'
    rw [fromTomlTable_session hs' (h.hoist hs')]
    exact ⟨rfl, rfl, profile, fun _ => hprofile, importRow_session hs' h hprofile⟩

/-- **One row for each entry**, when the entries keep their ids and no kind is read as an unknown
one. -/
theorem importRows_forall₂ {machine : Machine} {fresh : ℕ → WString} {entries : List Entry}
    {R : Entry → LaunchEntry → Prop}
    (h : ∀ e ∈ entries, (fromTomlTable (pairsOf e)).id = e.id ∧
      (fromTomlTable (pairsOf e)).knownKind = true ∧
      ∀ id, (e.id ≠ [] → id = utf16 e.id) → R e (importRow machine (fromTomlTable (pairsOf e)) id))
    (drawn : ℕ) :
    List.Forall₂ R entries
      (importRows machine fresh (entries.map fun e => .table (pairsOf e)) drawn) := by
  induction entries generalizing drawn with
  | nil => exact List.Forall₂.nil
  | cons e entries ih =>
      obtain ⟨hid, hkind, hrow⟩ := h e List.mem_cons_self
      rw [List.map_cons, importRows]
      simp only [hid, hkind, if_true]
      apply List.Forall₂.cons
      · apply hrow
        intro hne
        rw [if_neg (by simpa using hne)]
      · exact ih (fun e' he' => h e' (List.mem_cons_of_mem _ he')) _

/-- The rows are those of the entries, in their order. -/
theorem importRows_pairsOf {machine : Machine} (fresh : ℕ → WString) {entries : List Entry}
    (h : ∀ e ∈ entries, Portable machine e) (drawn : ℕ) :
    List.Forall₂ (fun e row => ∃ profile, (e.isSeparator = false → SameProfile machine e profile) ∧
        row = importedRow e profile) entries
      (importRows machine fresh (entries.map fun e => .table (pairsOf e)) drawn) := by
  apply importRows_forall₂
  intro e he
  obtain ⟨hid, hkind, profile, hprofile, hrow⟩ := importRow_fromTomlTable (h e he)
  refine ⟨hid, hkind, fun id heq => ⟨profile, hprofile, ?_⟩⟩
  rw [heq (h e he).id_ne, hrow]

/-- The version that is read is the one written. -/
theorem documentVersion_documentOf (entries : List Entry) :
    documentVersion (documentOf entries) = some (tomlVersionFor entries : ℤ) := by
  rw [documentVersion, documentOf, List.lookup_cons, beq_self_eq_true]
  rfl

/-- It is 2 when there is a separator. -/
theorem tomlVersionFor_eq_two (entries : List Entry) :
    tomlVersionFor entries = 2 ↔ ∃ e ∈ entries, e.isSeparator = true := by
  induction entries with
  | nil => simp [tomlVersionFor, kTomlVersion]
  | cons e entries ih =>
      rw [tomlVersionFor, List.exists_mem_cons_iff, ← ih]
      by_cases h : e.isSeparator = true
      · simp [h, kTomlVersionSeparators]
      · simp [h]

/-- The parser reads the file of a list as its document. -/
theorem parse_build {parse : Bytes → Option Toml.Table} (hparse : Toml.AgreesWithReader parse)
    {entries : List Entry} (h : ∀ e ∈ entries, e.Plain) :
    ∃ doc, parse (buildStartupSessionsToml entries) = some doc ∧
      Toml.SameTable (documentOf entries) doc := by
  rw [build_eq]
  exact hparse _ _ (readDocument_build h)

/-- The importer on an exported file. -/
theorem importFromToml_parsed {parse : Bytes → Option Toml.Table}
    (hparse : Toml.AgreesWithReader parse) (machine : Machine) (fresh : ℕ → WString)
    (current : List LaunchEntry) {entries : List Entry} (hplain : ∀ e ∈ entries, e.Plain) :
    importFromToml parse machine fresh (some (buildStartupSessionsToml entries)) current =
      (importDocument machine fresh (documentOf entries)).elim (false, current) (true, ·) := by
  obtain ⟨doc, hdoc, hsame⟩ := parse_build hparse hplain
  rw [importDocument_same machine fresh hsame, importFromToml, Option.bind_some, hdoc,
    Option.bind_some]
  cases importDocument machine fresh doc <;> rfl

/-- The rows of an exported file, when there are any. -/
theorem importFromToml_build {parse : Bytes → Option Toml.Table}
    (hparse : Toml.AgreesWithReader parse) (machine : Machine) (fresh : ℕ → WString)
    (current : List LaunchEntry) {entries : List Entry} (hplain : ∀ e ∈ entries, e.Plain)
    (hne : entries ≠ [])
    (hlen : (importRows machine fresh (entries.map fun e => .table (pairsOf e)) 0).length =
      entries.length) :
    importFromToml parse machine fresh (some (buildStartupSessionsToml entries)) current =
      (true, importRows machine fresh (entries.map fun e => .table (pairsOf e)) 0) := by
  have hversion : ((documentVersion (documentOf entries)).any fun version =>
      decide ((kTomlVersionMax : ℤ) < version)) = false := by
    rw [documentVersion_documentOf]
    rcases tomlVersionFor_cases entries with hv | hv
    · rw [hv]
      rfl
    · rw [hv]
      rfl
  have htable : (documentOf entries).lookup tomlTable.toList =
      some (.array (entries.map fun e => .table (pairsOf e))) := by
    rw [documentOf, if_neg (by simpa using hne), List.lookup_cons, beq_false_of_ne (by decide)]
    exact List.lookup_cons_self
  have hrowsne : (importRows machine fresh (entries.map fun e => .table (pairsOf e)) 0).isEmpty =
      false := by
    rw [List.isEmpty_eq_false_iff]
    intro hnil
    rw [hnil] at hlen
    exact hne (List.length_eq_zero_iff.mp hlen.symm)
  rw [importFromToml_parsed hparse machine fresh current hplain]
  simp only [importDocument, hversion, htable, hrowsne, Bool.false_eq_true, if_false,
    Option.elim_some]

/-- **Export, then import.** A list of portable entries is imported as the same rows in the same
order, and the file is of version 2 exactly when an entry is a separator. -/
theorem import_build {parse : Bytes → Option Toml.Table} (hparse : Toml.AgreesWithReader parse)
    (machine : Machine) (fresh : ℕ → WString) (current : List LaunchEntry) {entries : List Entry}
    (hne : entries ≠ []) (h : ∀ e ∈ entries, Portable machine e) :
    ∃ rows doc,
      importFromToml parse machine fresh (some (buildStartupSessionsToml entries)) current =
          (true, rows) ∧
        List.Forall₂ (fun e row => ∃ profile,
            (e.isSeparator = false → SameProfile machine e profile) ∧ row = importedRow e profile)
          entries rows ∧
        parse (buildStartupSessionsToml entries) = some doc ∧
        (documentVersion doc = some 2 ↔ ∃ e ∈ entries, e.isSeparator = true) := by
  have hplain : ∀ e ∈ entries, e.Plain := fun e he => (h e he).plain
  have hrows := importRows_pairsOf fresh h 0
  obtain ⟨doc, hdoc, hsame⟩ := parse_build hparse hplain
  refine ⟨_, doc, ?_, hrows, hdoc, ?_⟩
  · exact importFromToml_build hparse machine fresh current hplain hne hrows.length_eq.symm
  · rw [← documentVersion_same hsame, documentVersion_documentOf, ← tomlVersionFor_eq_two,
      Option.some_inj]
    exact Int.natCast_inj

/-- The GUID of the command prompt. -/
def cmdGuid : Guid :=
  ⟨0x0caa0dad, 0x35be, 0x5f56, #v[0xa8, 0xff, 0xaf, 0xce, 0xee, 0xaa, 0x61, 0x01]⟩

/-- A machine with one profile. -/
def oneProfile : Machine :=
  { guidFromString := fun s =>
      if s = L "{0caa0dad-35be-5f56-a8ff-afceeeaa6101}" then some cmdGuid else none
    allProfiles := [cmdGuid]
    activeProfiles := []
    towlower := fun c => c }

/-- A separator. -/
def spaceSeparator : Entry :=
  { id := "s".toList, kind := kindSeparator, style := "space".toList, collapsed := true }

/-- A session below it. -/
def gitSession : Entry :=
  { id := "b".toList
    parentId := "s".toList
    profile := "0caa0dad-35be-5f56-a8ff-afceeeaa6101".toList
    profileName := "Command Prompt".toList
    name := "a \"b\"\n".toList
    icon := "builtin:git".toList
    hoist := "working,error".toList }

/-- A separator of space can be carried over. -/
theorem portable_spaceSeparator : Portable oneProfile spaceSeparator where
  knownKind := by decide
  id_ne := by decide
  plain := by
    rw [Entry.Plain]
    decide
  hoist := fun h => absurd h (by decide)
  profile := fun h => absurd h (by decide)
  icon := fun h => absurd h (by decide)

/-- So can a session with a hoist value and an icon. -/
theorem portable_gitSession : Portable oneProfile gitSession where
  knownKind := by decide
  id_ne := by decide
  plain := by
    rw [Entry.Plain]
    decide
  hoist := fun _ => by decide
  profile := fun _ => ⟨guidToString cmdGuid, by
    rw [SameProfile, if_neg (by decide)]
    exact ⟨cmdGuid, List.mem_singleton.mpr rfl, by decide, rfl⟩⟩
  icon := fun _ => by decide

theorem import_build_gitSession : ∃ rows doc,
    importFromToml Toml.parseWithReader oneProfile (fun _ => [])
        (some (buildStartupSessionsToml [spaceSeparator, gitSession])) [] = (true, rows) ∧
      List.Forall₂ (fun e row => ∃ profile,
          (e.isSeparator = false → SameProfile oneProfile e profile) ∧ row = importedRow e profile)
        [spaceSeparator, gitSession] rows ∧
      Toml.parseWithReader (buildStartupSessionsToml [spaceSeparator, gitSession]) = some doc ∧
      (documentVersion doc = some 2 ↔ ∃ e ∈ [spaceSeparator, gitSession], e.isSeparator = true) :=
  import_build Toml.agreesWithReader_parseWithReader oneProfile (fun _ => []) []
    (List.cons_ne_nil _ _) (by
      intro e he
      rcases List.mem_cons.mp he with rfl | he
      · exact portable_spaceSeparator
      · rw [List.mem_singleton.mp he]
        exact portable_gitSession)

/-- The file of the empty list is refused, an entry without an id gets a new one, and a separator
loses the fields of a session. -/
theorem import_build_differs :
    importFromToml Toml.parseWithReader oneProfile (fun _ => L "{1}")
        (some (buildStartupSessionsToml [])) [{ name := L "a" }] = (false, [{ name := L "a" }]) ∧
      importFromToml Toml.parseWithReader oneProfile (fun _ => L "{1}")
          (some (buildStartupSessionsToml
            [{ name := "a".toList },
              { id := "s".toList, kind := kindSeparator, directory := "b".toList }])) [] =
        (true, [{ id := L "{1}", name := L "a" },
          { id := L "s", kind := kindSeparatorW, height := kSeparatorHeightDefault }]) := by
  constructor
  · rw [importFromToml_parsed Toml.agreesWithReader_parseWithReader _ _ _ (by simp)]
    decide
  · rw [importFromToml_parsed Toml.agreesWithReader_parseWithReader]
    · decide
    · intro e he
      rw [Entry.Plain]
      rcases List.mem_cons.mp he with rfl | he
      · decide
      · rw [List.mem_singleton.mp he]
        decide

end Axan.LaunchEntryWire
