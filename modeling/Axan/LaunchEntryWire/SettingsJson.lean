import Axan.Base.Json
import Axan.Base.Utf16
import Axan.LaunchEntryWire.Entry
import Axan.LaunchEntryWire.HoistRule

/-!
# An entry in `settings.json`: `LaunchEntry.cpp`

An entry is saved as an object. A separator writes its own keys only, a session writes those of a
session; what is a default is left out, and empty texts are written as `null`.

* `ConversionTrait`, `getValueForKey`, `setValueForKey` — `JsonUtils.h`, as far as entries use it.
* `fromJson`, `toJson` — the source.
* `canonical` — an entry without what the saved form leaves out.
* `fromJson_toJson` — **an entry that is saved and loaded is the canonical entry**;
  `toJson_canonical` — which is saved as the same object.
-/

namespace Axan.LaunchEntryWire

open Axan.Base

/-! ### `JsonUtils.h` -/

/-- What is thrown for a value of another type. Source: `DeserializationError` -/
structure DeserializationError where
  key : String
  expectedType : String
  deriving DecidableEq, Repr

/-- Source: `ConversionTrait` -/
structure ConversionTrait (α : Type) where
  canConvert : Json → Bool
  fromJson : Json → α
  toJson : α → Json
  typeDescription : String

/-- Source: `ConversionTrait<winrt::hstring>` -/
def hstringTrait : ConversionTrait WString where
  canConvert
    | .string _ => true
    | .null => true
    | _ => false
  fromJson
    | .string s => utf16 s
    | _ => []
  toJson w := if w = [] then .null else .string (utf16Decode w)
  typeDescription := "string"

/-- Source: `ConversionTrait<bool>` -/
def boolTrait : ConversionTrait Bool where
  canConvert
    | .bool _ => true
    | _ => false
  fromJson
    | .bool b => b
    | _ => false
  toJson b := .bool b
  typeDescription := "true | false"

/-- Source: `ConversionTrait<double>` -/
def doubleTrait : ConversionTrait Double where
  canConvert
    | .int _ => true
    | .real _ => true
    | _ => false
  fromJson
    | .int n => Double.ofInt n
    | .real x => x
    | _ => .finite 0
  toJson x :=
    if !x.lt (.ofInt (-2 ^ 31)) && !x.gt (.ofInt (2 ^ 31 - 1)) &&
        (((Double.ofInt x.lround).sub x).fabs).lt (Double.ofRat (1 / 10 ^ 6)) then .int x.lround
    else .real x
  typeDescription := "number"

/-- Source: `JsonKey` -/
inductive JsonKey where
  | id
  | parent
  | profile
  | name
  | directory
  | command
  | icon
  | color
  | colorTarget
  | kind
  | style
  | height
  | placement
  | collapsed
  | hoist
  deriving DecidableEq, Repr

/-- The spelling of a key. -/
def JsonKey.text : JsonKey → String
  | .id => "id"
  | .parent => "parent"
  | .profile => "profile"
  | .name => "name"
  | .directory => "directory"
  | .command => "command"
  | .icon => "icon"
  | .color => "color"
  | .colorTarget => "colorTarget"
  | .kind => "kind"
  | .style => "style"
  | .height => "height"
  | .placement => "placement"
  | .collapsed => "collapsed"
  | .hoist => "hoist"

/-- Different keys have different texts. -/
theorem JsonKey.text_inj {a b : JsonKey} : a.text = b.text ↔ a = b := by
  have hnodup : ([JsonKey.id, .parent, .profile, .name, .directory, .command, .icon, .color,
      .colorTarget, .kind, .style, .height, .placement, .collapsed, .hoist].map text).Nodup := by
    decide
  have hmem : ∀ k : JsonKey, k ∈ [JsonKey.id, .parent, .profile, .name, .directory, .command,
      .icon, .color, .colorTarget, .kind, .style, .height, .placement, .collapsed, .hoist] := by
    intro k
    cases k <;> decide
  refine ⟨fun h => List.inj_on_of_nodup_map hnodup (hmem a) (hmem b) h, ?_⟩
  rintro rfl
  rfl

/-- The member's value, or `target` when there is none. Source: `GetValueForKey` -/
def getValueForKey {α : Type} (trait : ConversionTrait α) (json : Json) (key : JsonKey)
    (target : α) : Except DeserializationError α :=
  match json.find key.text with
  | none => .ok target
  | some value =>
      if trait.canConvert value then .ok (trait.fromJson value)
      else .error ⟨key.text, trait.typeDescription⟩

/-- Source: `SetValueForKey` -/
def setValueForKey {α : Type} (trait : ConversionTrait α) (json : Json) (key : JsonKey)
    (value : α) : Json :=
  json.set key.text (trait.toJson value)

/-- What is kept only under a condition. -/
def setValueForKeyIf {α : Type} (c : Bool) (trait : ConversionTrait α) (json : Json)
    (key : JsonKey) (value : α) : Json :=
  if c then setValueForKey trait json key value else json

/-! ### Reading and writing an entry -/

/-- The texts of an array; other elements are passed over. -/
def arrayStrings (vs : List Json) : List WString :=
  vs.filterMap fun
    | .string s => some (utf16 s)
    | _ => none

/-- The hoist value in canonical form. Source: `LaunchEntry::FromJson`, the hoist part -/
def hoistFromJson : Option Json → WString
  | some (.string s) => HoistRule.normalize (utf16 s)
  | some (.array vs) =>
      HoistRule.format
        (HoistRule.fromMask (NameMask.maskFromNames HoistRule.kNames (arrayStrings vs)))
  | _ => []

/-- Source: `LaunchEntry::FromJson` -/
def fromJson (json : Json) : Except DeserializationError LaunchEntry := do
  let id ← getValueForKey hstringTrait json .id []
  let parentId ← getValueForKey hstringTrait json .parent []
  let profile ← getValueForKey hstringTrait json .profile []
  let name ← getValueForKey hstringTrait json .name []
  let directory ← getValueForKey hstringTrait json .directory []
  let command ← getValueForKey hstringTrait json .command []
  let icon ← getValueForKey hstringTrait json .icon []
  let color ← getValueForKey hstringTrait json .color []
  let colorTarget ← getValueForKey hstringTrait json .colorTarget []
  let kind ← getValueForKey hstringTrait json .kind []
  let separatorStyle ← getValueForKey hstringTrait json .style []
  let height ← getValueForKey doubleTrait json .height (.finite 0)
  let placement ← getValueForKey hstringTrait json .placement []
  let collapsed ← getValueForKey boolTrait json .collapsed false
  let result : LaunchEntry := {
    id, parentId, profile, name, directory, command, icon, color, colorTarget, kind, separatorStyle,
    height, placement, collapsed, hoist := hoistFromJson (json.find JsonKey.hoist.text) }
  if result.isSeparator then
    return { result with height := normalizeSeparatorHeight result.height }
  else
    return result

/-! ### What is read of an entry that loads -/

/-- A sequence that goes through. -/
theorem Except_bind_eq_ok {ε α β : Type} {x : Except ε α} {f : α → Except ε β} {b : β} :
    (x >>= f) = .ok b ↔ ∃ a, x = .ok a ∧ f a = .ok b := by
  cases x with
  | error e =>
      refine ⟨fun h => ?_, ?_⟩
      · cases h
      · rintro ⟨a, h, -⟩
        cases h
  | ok a =>
      refine ⟨fun h => ⟨a, rfl, h⟩, ?_⟩
      rintro ⟨a', h, hf⟩
      rw [Except.ok.inj h]
      exact hf

/-- A string field, empty when there is none. -/
def jsonStr (obj : Json) (key : String) : List Char :=
  match obj.find key with
  | some (.string s) => s
  | _ => []

/-- A text is read from a string, or there is none. -/
theorem eq_of_getValueForKey {json : Json} {key : JsonKey} {w : WString}
    (h : getValueForKey hstringTrait json key [] = .ok w) : w = utf16 (jsonStr json key.text) := by
  unfold getValueForKey at h
  unfold jsonStr
  cases hfind : json.find key.text with
  | none =>
      rw [hfind] at h
      exact (Except.ok.inj h).symm
  | some value =>
      rw [hfind] at h
      cases value with
      | string s => exact (Except.ok.inj h).symm
      | null => exact (Except.ok.inj h).symm
      | _ => cases h

/-- The texts and the hoist value of an entry are those of the object. -/
structure ReadFrom (json : Json) (e : LaunchEntry) : Prop where
  id : e.id = utf16 (jsonStr json JsonKey.id.text)
  parentId : e.parentId = utf16 (jsonStr json JsonKey.parent.text)
  name : e.name = utf16 (jsonStr json JsonKey.name.text)
  directory : e.directory = utf16 (jsonStr json JsonKey.directory.text)
  command : e.command = utf16 (jsonStr json JsonKey.command.text)
  kind : e.kind = utf16 (jsonStr json JsonKey.kind.text)
  hoist : e.hoist = hoistFromJson (json.find JsonKey.hoist.text)

/-- What an object that is read has read of each key. -/
theorem readFrom_of_fromJson {json : Json} {e : LaunchEntry} (h : fromJson json = .ok e) :
    ReadFrom json e := by
  unfold fromJson at h
  simp only [Except_bind_eq_ok] at h
  obtain ⟨id, hid, parentId, hparent, profile, -, name, hname, directory, hdirectory, command,
    hcommand, icon, -, color, -, colorTarget, -, kind, hkind, separatorStyle, -, height, -,
    placement, -, collapsed, -, h⟩ := h
  split_ifs at h
  all_goals
    rw [← Except.ok.inj h]
    exact ⟨eq_of_getValueForKey hid, eq_of_getValueForKey hparent, eq_of_getValueForKey hname,
      eq_of_getValueForKey hdirectory, eq_of_getValueForKey hcommand, eq_of_getValueForKey hkind,
      rfl⟩

/-- The hoist value of a session. Source: `LaunchEntry::ToJson`, the hoist part -/
def hoistToJson (json : Json) (hoist : WString) : Json :=
  match HoistRule.parse hoist with
  | ⟨.never, _⟩ => json.set JsonKey.hoist.text (.string "never".toList)
  | ⟨.custom, mask⟩ =>
      json.set JsonKey.hoist.text
        (.array ((NameMask.namesFromMask HoistRule.kNames mask).map fun n =>
          .string (utf16Decode n)))
  | ⟨.default, _⟩ => json

/-- Source: `LaunchEntry::ToJson` -/
def toJson (e : LaunchEntry) : Json :=
  let json := Json.object []
  let json := setValueForKey hstringTrait json .id e.id
  let json := setValueForKey hstringTrait json .parent e.parentId
  if e.isSeparator then
    let json := setValueForKey hstringTrait json .kind e.kind
    let json := setValueForKeyIf (!e.separatorStyle.isEmpty && e.separatorStyle ≠ styleLineW)
      hstringTrait json .style e.separatorStyle
    let height := normalizeSeparatorHeight e.height
    let json := setValueForKeyIf (height ≠ .finite 1) doubleTrait json .height height
    let json := setValueForKeyIf (!e.placement.isEmpty && e.placement ≠ placementInlineW)
      hstringTrait json .placement e.placement
    let json := setValueForKeyIf (!e.name.isEmpty) hstringTrait json .name e.name
    setValueForKeyIf e.collapsed boolTrait json .collapsed e.collapsed
  else
    let json := setValueForKey hstringTrait json .profile e.profile
    let json := setValueForKey hstringTrait json .name e.name
    let json := setValueForKey hstringTrait json .directory e.directory
    let json := setValueForKey hstringTrait json .command e.command
    let json := setValueForKey hstringTrait json .icon e.icon
    let json := setValueForKeyIf (!e.color.isEmpty) hstringTrait json .color e.color
    let json := setValueForKeyIf (!e.colorTarget.isEmpty && e.colorTarget ≠ L "both") hstringTrait
      json .colorTarget e.colorTarget
    hoistToJson json e.hoist

/-! ### The saved texts -/

/-- A text as it is read back: a surrogate that is no half of a pair is replaced. -/
def clean (w : WString) : WString := utf16 (utf16Decode w)

/-- Texts that are well formed are kept. -/
theorem clean_utf16 (cs : List Char) : clean (utf16 cs) = utf16 cs := by
  unfold clean
  rw [utf16Decode_utf16]

/-- Replacing lone surrogates keeps what the text shows. -/
@[simp] theorem utf16Decode_clean (w : WString) : utf16Decode (clean w) = utf16Decode w :=
  utf16Decode_utf16 _

/-- A text that is read back as an ASCII word is that word. -/
theorem clean_eq_iff {w : WString} {ds : List Char} (hd : ∀ d ∈ ds, isAscii d = true) :
    clean w = utf16 ds ↔ w = utf16 ds := by
  constructor
  · intro h
    apply eq_of_utf16Decode_eq hd
    rw [← utf16Decode_clean, h, utf16Decode_utf16]
  · rintro rfl
    exact clean_utf16 ds

theorem clean_eq_nil_iff {w : WString} : clean w = [] ↔ w = [] :=
  @clean_eq_iff w [] (by simp)

@[simp] theorem clean_nil : clean [] = [] := rfl

/-- Nor does it change what is written. -/
theorem hstringTrait_toJson_clean (w : WString) :
    hstringTrait.toJson (clean w) = hstringTrait.toJson w := by
  unfold hstringTrait
  simp only [clean_eq_nil_iff, utf16Decode_clean]

/-- A text, left out when it is the default. -/
def omitWord (default word : WString) : WString := if word = default then [] else word

/-- A key that is set has the value, the others are as they were. -/
theorem find_setValueForKey {α : Type} (trait : ConversionTrait α) (json : Json) (key k : JsonKey)
    (value : α) : (setValueForKey trait json key value).find k.text =
      if k = key then some (trait.toJson value) else json.find k.text := by
  unfold setValueForKey
  rw [Json.find_set]
  simp only [JsonKey.text_inj]

/-- So it is under a condition. -/
theorem find_setValueForKeyIf {α : Type} (c : Bool) (trait : ConversionTrait α) (json : Json)
    (key k : JsonKey) (value : α) : (setValueForKeyIf c trait json key value).find k.text =
      if c ∧ k = key then some (trait.toJson value) else json.find k.text := by
  unfold setValueForKeyIf
  cases c with
  | true => simp only [if_true, find_setValueForKey, true_and]
  | false => simp

/-- An empty object has no key. -/
theorem find_empty (key : String) : (Json.object []).find key = none := rfl

/-- What stands for the hoist value of a session. -/
def hoistValueJson (hoist : WString) : Option Json :=
  match HoistRule.parse hoist with
  | ⟨.never, _⟩ => some (.string "never".toList)
  | ⟨.custom, mask⟩ =>
      some (.array ((NameMask.namesFromMask HoistRule.kNames mask).map fun n =>
        .string (utf16Decode n)))
  | ⟨.default, _⟩ => none

/-- The hoist value is set as one key. -/
theorem find_hoistToJson (json : Json) (hoist : WString) (k : JsonKey)
    (hjson : json.find JsonKey.hoist.text = none) : (hoistToJson json hoist).find k.text =
      if k = .hoist then hoistValueJson hoist else json.find k.text := by
  unfold hoistToJson hoistValueJson
  cases hm : HoistRule.parse hoist with
  | mk mode mask =>
      cases mode with
      | never => simp only [Json.find_set, JsonKey.text_inj]
      | custom => simp only [Json.find_set, JsonKey.text_inj]
      | default =>
          by_cases hk : k = .hoist
          · rw [if_pos hk, hk]
            exact hjson
          · rw [if_neg hk]

/-- The members of a separator. -/
theorem find_toJson_separator {e : LaunchEntry} (h : e.isSeparator = true) (k : JsonKey) :
    (toJson e).find k.text =
      match k with
      | .id => some (hstringTrait.toJson e.id)
      | .parent => some (hstringTrait.toJson e.parentId)
      | .kind => some (hstringTrait.toJson e.kind)
      | .style =>
          if !e.separatorStyle.isEmpty && e.separatorStyle ≠ styleLineW then
            some (hstringTrait.toJson e.separatorStyle) else none
      | .height =>
          if normalizeSeparatorHeight e.height ≠ .finite 1 then
            some (doubleTrait.toJson (normalizeSeparatorHeight e.height)) else none
      | .placement =>
          if !e.placement.isEmpty && e.placement ≠ placementInlineW then
            some (hstringTrait.toJson e.placement) else none
      | .name => if !e.name.isEmpty then some (hstringTrait.toJson e.name) else none
      | .collapsed => if e.collapsed then some (boolTrait.toJson e.collapsed) else none
      | _ => none := by
  unfold toJson
  simp only [if_pos h, find_setValueForKeyIf, find_setValueForKey, find_empty]
  cases k <;> simp

/-- The members of a session. -/
theorem find_toJson_session {e : LaunchEntry} (h : e.isSeparator = false) (k : JsonKey) :
    (toJson e).find k.text =
      match k with
      | .id => some (hstringTrait.toJson e.id)
      | .parent => some (hstringTrait.toJson e.parentId)
      | .profile => some (hstringTrait.toJson e.profile)
      | .name => some (hstringTrait.toJson e.name)
      | .directory => some (hstringTrait.toJson e.directory)
      | .command => some (hstringTrait.toJson e.command)
      | .icon => some (hstringTrait.toJson e.icon)
      | .color => if !e.color.isEmpty then some (hstringTrait.toJson e.color) else none
      | .colorTarget =>
          if !e.colorTarget.isEmpty && e.colorTarget ≠ L "both" then
            some (hstringTrait.toJson e.colorTarget) else none
      | .hoist => hoistValueJson e.hoist
      | _ => none := by
  have hs : ¬e.isSeparator = true := by simp [h]
  unfold toJson
  simp only [if_neg hs]
  rw [find_hoistToJson]
  · simp only [find_setValueForKeyIf, find_setValueForKey, find_empty]
    cases k <;> simp
  · simp [find_setValueForKeyIf, find_setValueForKey, find_empty]

/-! ### Saved and loaded -/

/-- An entry without what the saved form leaves out. -/
def canonical (e : LaunchEntry) : LaunchEntry :=
  if e.isSeparator then
    { id := clean e.id
      parentId := clean e.parentId
      kind := kindSeparatorW
      separatorStyle := clean (omitWord styleLineW e.separatorStyle)
      height := normalizeSeparatorHeight e.height
      placement := clean (omitWord placementInlineW e.placement)
      name := clean e.name
      collapsed := e.collapsed }
  else
    { id := clean e.id
      parentId := clean e.parentId
      profile := clean e.profile
      name := clean e.name
      directory := clean e.directory
      command := clean e.command
      icon := clean e.icon
      color := clean e.color
      colorTarget := clean (omitWord (L "both") e.colorTarget)
      hoist := HoistRule.normalize e.hoist }

/-- A key that is absent leaves the value. -/
theorem getValueForKey_none {α : Type} {trait : ConversionTrait α} {json : Json} {key : JsonKey}
    (h : json.find key.text = none) (target : α) :
    getValueForKey trait json key target = .ok target := by
  unfold getValueForKey
  rw [h]

/-- A text is read back without lone surrogates. -/
theorem getValueForKey_text {json : Json} {key : JsonKey} {w : WString}
    (h : json.find key.text = some (hstringTrait.toJson w)) (target : WString) :
    getValueForKey hstringTrait json key target = .ok (clean w) := by
  unfold getValueForKey
  rw [h]
  unfold hstringTrait
  by_cases hw : w = []
  · subst hw
    rfl
  · simp only [if_neg hw]
    rfl

/-- And when it is left out for being empty. -/
theorem getValueForKey_nonempty {json : Json} {key : JsonKey} {w : WString}
    (h : json.find key.text = if !w.isEmpty then some (hstringTrait.toJson w) else none) :
    getValueForKey hstringTrait json key [] = .ok (clean w) := by
  cases w with
  | nil => exact getValueForKey_none h []
  | cons u w => exact getValueForKey_text h []

/-- And when it is left out for being the default. -/
theorem getValueForKey_omitWord {json : Json} {key : JsonKey} {default w : WString}
    (h : json.find key.text =
      if !w.isEmpty && w ≠ default then some (hstringTrait.toJson w) else none) :
    getValueForKey hstringTrait json key [] = .ok (clean (omitWord default w)) := by
  apply getValueForKey_nonempty
  rw [h]
  unfold omitWord
  by_cases hw : w = default
  · rw [if_neg (by simp [hw]), if_pos hw]
    rfl
  · rw [if_neg hw]
    simp [hw]

/-- A normalized height is read back, from the integer or the number it is saved as. -/
theorem doubleTrait_height (h : Double) :
    doubleTrait.canConvert (doubleTrait.toJson (normalizeSeparatorHeight h)) = true ∧
      doubleTrait.fromJson (doubleTrait.toJson (normalizeSeparatorHeight h)) =
        normalizeSeparatorHeight h :=
  normalizeSeparatorHeight_cases
    (P := fun x => doubleTrait.canConvert (doubleTrait.toJson x) = true ∧
      doubleTrait.fromJson (doubleTrait.toJson x) = x) (by decide +kernel) h

/-- The height of a separator, loaded and normalized. -/
theorem getValueForKey_height {json : Json} {h : Double}
    (hfind : json.find JsonKey.height.text =
      if normalizeSeparatorHeight h ≠ .finite 1 then
        some (doubleTrait.toJson (normalizeSeparatorHeight h)) else none) :
    ∃ x, getValueForKey doubleTrait json .height (.finite 0) = .ok x ∧
      normalizeSeparatorHeight x = normalizeSeparatorHeight h := by
  unfold getValueForKey
  rw [hfind]
  by_cases hone : normalizeSeparatorHeight h = .finite 1
  · rw [if_neg (not_not.mpr hone), hone]
    exact ⟨.finite 0, rfl, by decide⟩
  · obtain ⟨hcan, hread⟩ := doubleTrait_height h
    rw [if_pos hone]
    simp only [hcan, if_true, hread]
    exact ⟨_, rfl, normalizeSeparatorHeight_idem h⟩

/-- The flag is read back. -/
theorem getValueForKey_collapsed {json : Json} {b : Bool}
    (h : json.find JsonKey.collapsed.text = if b then some (boolTrait.toJson b) else none) :
    getValueForKey boolTrait json .collapsed false = .ok b := by
  unfold getValueForKey
  rw [h]
  cases b with
  | true => rfl
  | false => rfl

/-- The hoist value is read back in canonical form. -/
theorem hoistFromJson_hoistValueJson (hoist : WString) :
    hoistFromJson (hoistValueJson hoist) = HoistRule.normalize hoist := by
  unfold hoistValueJson HoistRule.normalize
  rcases HoistRule.parse_cases hoist with hp | hp | ⟨ns, hp⟩
  · rw [hp]
    rfl
  · rw [hp]
    decide
  · rw [hp]
    unfold HoistRule.fromMask
    split_ifs with hzero
    · decide
    · -- the names of the mask are read as the mask
      have hnames : arrayStrings ((NameMask.namesFromMask HoistRule.kNames
          (NameMask.maskFromNames HoistRule.kNames ns)).map fun n => .string (utf16Decode n)) =
          NameMask.namesFromMask HoistRule.kNames (NameMask.maskFromNames HoistRule.kNames ns) := by
        unfold arrayStrings
        rw [List.filterMap_map]
        conv_rhs => rw [← List.filterMap_some (l := NameMask.namesFromMask _ _)]
        apply List.filterMap_congr
        intro n hn
        obtain ⟨cs, rfl⟩ :=
          HoistRule.exists_of_mem_kNames (NameMask.mem_of_mem_namesFromMask hn)
        simp only [Function.comp_apply, utf16Decode_utf16]
      simp only [hoistFromJson]
      rw [hnames, HoistRule.maskFromNames_namesFromMask, HoistRule.fromMask, if_neg hzero]

/-- A separator comes back as its canonical entry. -/
theorem fromJson_toJson_separator {e : LaunchEntry} (h : e.isSeparator = true) :
    fromJson (toJson e) = .ok (canonical e) := by
  have hfind := fun k => find_toJson_separator h k
  have hkind : e.kind = kindSeparatorW := of_decide_eq_true h
  have hclean : clean e.kind = kindSeparatorW := by
    rw [hkind]
    decide
  obtain ⟨x, hx, hnorm⟩ := getValueForKey_height (hfind .height)
  unfold fromJson
  rw [getValueForKey_text (hfind .id), getValueForKey_text (hfind .parent),
    getValueForKey_none (hfind .profile), getValueForKey_nonempty (hfind .name),
    getValueForKey_none (hfind .directory), getValueForKey_none (hfind .command),
    getValueForKey_none (hfind .icon), getValueForKey_none (hfind .color),
    getValueForKey_none (hfind .colorTarget), getValueForKey_text (hfind .kind),
    getValueForKey_omitWord (hfind .style), hx, getValueForKey_omitWord (hfind .placement),
    getValueForKey_collapsed (hfind .collapsed), hfind .hoist, hclean]
  unfold canonical
  rw [if_pos h, ← hnorm]
  rfl

theorem fromJson_toJson_session {e : LaunchEntry} (h : e.isSeparator = false) :
    fromJson (toJson e) = .ok (canonical e) := by
  have hfind := fun k => find_toJson_session h k
  unfold fromJson
  rw [getValueForKey_text (hfind .id), getValueForKey_text (hfind .parent),
    getValueForKey_text (hfind .profile), getValueForKey_text (hfind .name),
    getValueForKey_text (hfind .directory), getValueForKey_text (hfind .command),
    getValueForKey_text (hfind .icon), getValueForKey_nonempty (hfind .color),
    getValueForKey_omitWord (hfind .colorTarget), getValueForKey_none (hfind .kind),
    getValueForKey_none (hfind .style), getValueForKey_none (hfind .height),
    getValueForKey_none (hfind .placement), getValueForKey_none (hfind .collapsed), hfind .hoist,
    hoistFromJson_hoistValueJson]
  unfold canonical
  rw [if_neg (by simp [h])]
  rfl

/-- **An entry that is saved and loaded is the canonical entry.** -/
theorem fromJson_toJson_eq (e : LaunchEntry) : fromJson (toJson e) = .ok (canonical e) := by
  cases h : e.isSeparator with
  | true => exact fromJson_toJson_separator h
  | false => exact fromJson_toJson_session h

/-! ### Saved again -/

/-- A text is written as the one that shows the same. -/
theorem setValueForKey_clean (json : Json) (key : JsonKey) (w : WString) :
    setValueForKey hstringTrait json key (clean w) = setValueForKey hstringTrait json key w := by
  unfold setValueForKey
  rw [hstringTrait_toJson_clean]

/-- A text is empty when that one is. -/
theorem clean_isEmpty (w : WString) : (clean w).isEmpty = w.isEmpty := by
  rw [Bool.eq_iff_iff, List.isEmpty_iff, List.isEmpty_iff]
  exact clean_eq_nil_iff

/-- So it is for a text that may be left out. -/
theorem setValueForKeyIf_nonempty (json : Json) (key : JsonKey) (w : WString) :
    setValueForKeyIf (!(clean w).isEmpty) hstringTrait json key (clean w) =
      setValueForKeyIf (!w.isEmpty) hstringTrait json key w := by
  unfold setValueForKeyIf
  rw [clean_isEmpty, setValueForKey_clean]

/-- A default word is left out again, and no other text becomes one. -/
theorem setValueForKeyIf_omitWord {ds : List Char} (hd : ∀ d ∈ ds, isAscii d = true)
    (json : Json) (key : JsonKey) (w : WString) :
    setValueForKeyIf (!(clean (omitWord (utf16 ds) w)).isEmpty &&
        clean (omitWord (utf16 ds) w) ≠ utf16 ds) hstringTrait json key
        (clean (omitWord (utf16 ds) w)) =
      setValueForKeyIf (!w.isEmpty && w ≠ utf16 ds) hstringTrait json key w := by
  unfold omitWord
  by_cases hw : w = utf16 ds
  · rw [if_pos hw, hw]
    simp [setValueForKeyIf]
  · have hne : clean w ≠ utf16 ds := fun h => hw ((clean_eq_iff hd).mp h)
    rw [if_neg hw]
    simp only [hw, hne, ne_eq, not_false_eq_true, decide_true, Bool.and_true]
    exact setValueForKeyIf_nonempty json key w

/-- And for the canonical hoist value. -/
theorem hoistToJson_normalize (json : Json) (hoist : WString) :
    hoistToJson json (HoistRule.normalize hoist) = hoistToJson json hoist := by
  unfold hoistToJson
  rw [HoistRule.parse_normalize]

/-- The canonical entry is a separator when the entry is. -/
theorem isSeparator_canonical (e : LaunchEntry) : (canonical e).isSeparator = e.isSeparator := by
  unfold canonical
  cases h : e.isSeparator with
  | true => rw [if_pos rfl]; rfl
  | false => rw [if_neg Bool.false_ne_true]; rfl

/-- **The canonical entry is saved as the same object.** -/
theorem toJson_canonical (e : LaunchEntry) : toJson (canonical e) = toJson e := by
  have hline : styleLineW = utf16 "line".toList := by decide
  have hinline : placementInlineW = utf16 "inline".toList := by decide
  have hboth : L "both" = utf16 "both".toList := by decide
  unfold toJson
  rw [isSeparator_canonical]
  cases h : e.isSeparator with
  | true =>
      have hkind : e.kind = kindSeparatorW := of_decide_eq_true h
      unfold canonical
      simp only [h, if_true, setValueForKey_clean, normalizeSeparatorHeight_idem, hkind]
      rw [hline, setValueForKeyIf_omitWord (List.all_eq_true.mp (by decide)), hinline,
        setValueForKeyIf_omitWord (List.all_eq_true.mp (by decide)), setValueForKeyIf_nonempty]
  | false =>
      unfold canonical
      simp only [h, Bool.false_eq_true, if_false, setValueForKey_clean, hoistToJson_normalize]
      rw [setValueForKeyIf_nonempty, hboth,
        setValueForKeyIf_omitWord (List.all_eq_true.mp (by decide))]

/-- **Saving and loading.** An entry comes back as its canonical entry, which is saved as the same
object; texts that are well formed come back as they were. -/
theorem fromJson_toJson (e : LaunchEntry) :
    fromJson (toJson e) = .ok (canonical e) ∧ toJson (canonical e) = toJson e ∧
      ∀ cs, clean (utf16 cs) = utf16 cs :=
  ⟨fromJson_toJson_eq e, toJson_canonical e, clean_utf16⟩

/-- A name that ends in half of a pair comes back with the replacement character. -/
theorem fromJson_toJson_surrogate :
    fromJson (toJson { name := [0xD800] }) = .ok { name := [0xFFFD] } ∧
      fromJson (toJson { name := [0xD800] }) ≠ .ok { name := [0xD800] } := by
  decide

end Axan.LaunchEntryWire
