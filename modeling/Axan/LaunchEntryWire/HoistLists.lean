import Axan.LaunchEntryWire.Import
import Axan.LaunchEntryWire.SettingsJson

/-!
# Hoist lists in both stores

The hoist override of an entry may be an array of strings, in `settings.json` and in the interchange
file. The settings take each string for a name; the importer joins the strings with commas and reads
the joined text.

* `ReadAlike` — the lists for which that makes no difference: not a single string that is blank or
  the word `default`, and no state name hidden between the commas of a string.
* `hoist_import_iff` — **both stores read a list as the same override exactly then.**
-/

namespace Axan.LaunchEntryWire

open Axan.Base

/-! ### The joined text -/

/-- A joined text that is trimmed to a word without a comma is one string. -/
theorem eq_singleton_of_trim_intercalate {names : List WString} (hne : names ≠ []) {w : WString}
    (hw : wide ',' ∉ w) (h : NameMask.trim ([wide ','].intercalate names) = w) :
    ∃ n, names = [n] ∧ NameMask.trim n = w := by
  cases names with
  | nil => exact absurd rfl hne
  | cons n names =>
      cases names with
      | nil => exact ⟨n, rfl, by rwa [List.intercalate_singleton] at h⟩
      | cons m names =>
          -- a second string brings a comma, which trimming keeps
          refine absurd ?_ hw
          rw [← h]
          apply mem_trimBlank_of_mem
          · rw [List.intercalate_cons_cons]
            simp
          · decide

/-- The strings of a list, cut at their commas. -/
def pieces (names : List WString) : List WString := names.flatMap fun n => n.splitOn (wide ',')

/-- The mask of a joined text is that of the pieces. -/
theorem maskFromNames_splitOn_trim {names : List WString} (hne : names ≠ []) :
    NameMask.maskFromNames HoistRule.kNames
        ((NameMask.trim ([wide ','].intercalate names)).splitOn (wide ',')) =
      NameMask.maskFromNames HoistRule.kNames (pieces names) := by
  apply HoistRule.maskFromNames_eq_iff.mpr
  intro w _
  rw [← List.mem_map, ← List.mem_map, pieces, ← splitOn_intercalate_flatMap hne]
  unfold NameMask.trim
  rw [map_trimBlank_splitOn_trimBlank (by decide)]

/-! ### When both stores agree -/

/-- A list that is read alike as it is and joined with commas. -/
structure ReadAlike (names : List WString) : Prop where
  /-- The list is not one string that is blank or the word `default`. -/
  word : ∀ n, names = [n] → NameMask.trim n ≠ [] ∧ NameMask.trim n ≠ L "default"
  /-- A state name between the commas of a string is also a string of the list. -/
  listed : ∀ piece ∈ pieces names, NameMask.trim piece ∈ HoistRule.kNames →
    ∃ n ∈ names, NameMask.trim n = NameMask.trim piece

/-- A state name of the list is the one piece of its string. -/
theorem mem_pieces_of_mem {names : List WString} {n : WString} (hn : n ∈ names)
    (hname : NameMask.trim n ∈ HoistRule.kNames) : n ∈ pieces names := by
  apply List.mem_flatMap.mpr
  refine ⟨n, hn, ?_⟩
  have hcomma : wide ',' ∉ n := by
    intro hmem
    apply HoistRule.comma_not_mem_of_mem_kNames _ hname
    exact mem_trimBlank_of_mem _ hmem (by decide)
  rw [List.splitOn_eq_singleton hcomma]
  exact List.mem_singleton.mpr rfl

/-- The pieces have the mask of the list when no state name is hidden. -/
theorem maskFromNames_pieces_iff {names : List WString} :
    NameMask.maskFromNames HoistRule.kNames (pieces names) =
        NameMask.maskFromNames HoistRule.kNames names ↔
      ∀ piece ∈ pieces names, NameMask.trim piece ∈ HoistRule.kNames →
        ∃ n ∈ names, NameMask.trim n = NameMask.trim piece := by
  rw [HoistRule.maskFromNames_eq_iff]
  constructor
  · intro h piece hpiece hname
    exact (h _ hname).mp ⟨piece, hpiece, rfl⟩
  · intro h w hw
    constructor
    · rintro ⟨piece, hpiece, rfl⟩
      exact h piece hpiece hw
    · rintro ⟨n, hn, rfl⟩
      exact ⟨n, mem_pieces_of_mem hn hw, rfl⟩

/-- Lists of names are written alike when they have the same mask. -/
theorem format_fromMask_inj {ns ns' : List WString} :
    HoistRule.format (HoistRule.fromMask (NameMask.maskFromNames HoistRule.kNames ns)) =
        HoistRule.format (HoistRule.fromMask (NameMask.maskFromNames HoistRule.kNames ns')) ↔
      NameMask.maskFromNames HoistRule.kNames ns = NameMask.maskFromNames HoistRule.kNames ns' := by
  refine ⟨fun h => ?_, fun h => by rw [h]⟩
  rw [← HoistRule.mask_fromMask (NameMask.maskFromNames HoistRule.kNames ns),
    ← HoistRule.parse_format_fromMask ns, h, HoistRule.parse_format_fromMask,
    HoistRule.mask_fromMask]

/-- A list of names, even an empty one, is written as something. -/
theorem format_fromMask_ne_nil (ns : List WString) :
    HoistRule.format (HoistRule.fromMask (NameMask.maskFromNames HoistRule.kNames ns)) ≠ [] := by
  intro h
  apply HoistRule.mode_fromMask_ne_default (NameMask.maskFromNames HoistRule.kNames ns)
  rw [← HoistRule.parse_format_fromMask, h]
  decide

/-- What a joined text is read as, unless it is a word of the default. -/
theorem parse_intercalate {names : List WString} (hne : names ≠ [])
    (hword : ∀ n, names = [n] → NameMask.trim n ≠ [] ∧ NameMask.trim n ≠ L "default") :
    HoistRule.parse ([wide ','].intercalate names) =
      HoistRule.fromMask (NameMask.maskFromNames HoistRule.kNames (pieces names)) := by
  have hnot : ∀ w : WString, wide ',' ∉ w →
      (∀ n, names = [n] → NameMask.trim n ≠ w) →
      NameMask.trim ([wide ','].intercalate names) ≠ w := by
    intro w hw hn h
    obtain ⟨n, hnames, htrim⟩ := eq_singleton_of_trim_intercalate hne hw h
    exact hn n hnames htrim
  have hnil := hnot [] (by decide) fun n hn => (hword n hn).1
  have hdefault := hnot (L "default") (by decide) fun n hn => (hword n hn).2
  rw [← maskFromNames_splitOn_trim hne]
  unfold HoistRule.parse
  simp only
  rw [if_neg (by simp [hnil, hdefault])]
  by_cases hnever : NameMask.trim ([wide ','].intercalate names) = HoistRule.kNever
  · rw [if_pos hnever, hnever]
    decide
  · rw [if_neg hnever]

/-- **A list is read as the same override joined and as it is exactly when it is read alike.** -/
theorem normalize_intercalate_iff {names : List WString} (hne : names ≠ []) :
    HoistRule.normalize ([wide ','].intercalate names) =
        HoistRule.format (HoistRule.fromMask (NameMask.maskFromNames HoistRule.kNames names)) ↔
      ReadAlike names := by
  by_cases hword : ∀ n, names = [n] → NameMask.trim n ≠ [] ∧ NameMask.trim n ≠ L "default"
  · unfold HoistRule.normalize
    rw [parse_intercalate hne hword, format_fromMask_inj, maskFromNames_pieces_iff]
    exact ⟨fun h => ⟨hword, h⟩, fun h => h.listed⟩
  · refine ⟨fun h => ?_, fun h => absurd h.word hword⟩
    -- the joined text is the default, which no list is written as
    push Not at hword
    obtain ⟨n, rfl, hn⟩ := hword
    refine absurd ?_ (format_fromMask_ne_nil [n])
    rw [← h, List.intercalate_singleton]
    have hdefault : ((NameMask.trim n).isEmpty || NameMask.trim n = L "default") = true := by
      by_cases hnil : NameMask.trim n = []
      · rw [hnil]
        rfl
      · rw [hn hnil]
        decide
    unfold HoistRule.normalize HoistRule.parse
    simp only
    rw [if_pos hdefault]
    rfl

/-! ### The two readers -/

/-- The hoist value of a row that is imported as a session. -/
theorem hoist_importRow (machine : Machine) {e : Entry} (h : e.isSeparator = false)
    (id : WString) : (importRow machine e id).hoist = HoistRule.normalize (utf16 e.hoist) := by
  unfold importRow
  rw [if_neg (by simp [h])]
  cases hhoist : e.hoist with
  | nil => exact (show HoistRule.normalize [] = [] by decide).symm
  | cons c cs => rfl

/-- The strings of an array, on either side. -/
theorem asHoist_strings (names : List (List Char)) :
    asHoist (some (.array (names.map .string))) =
      if names.isEmpty then "never".toList else [','].intercalate names := by
  have hnames : (names.map Toml.Value.string).filterMap (fun v => asString (some v)) = names := by
    rw [List.filterMap_map]
    exact List.filterMap_some
  unfold asHoist
  simp only [hnames]

/-- The strings of an array are its names. -/
theorem arrayStrings_strings (names : List (List Char)) :
    arrayStrings (names.map .string) = names.map utf16 := by
  unfold arrayStrings
  rw [List.filterMap_map, ← List.filterMap_eq_map]
  rfl

/-- **Both stores read a list as the same override exactly when it is read alike.** -/
theorem hoist_import_iff (machine : Machine) (id : WString) {t : Toml.Table} {json : Json}
    {e : LaunchEntry} {names : List (List Char)} (hsession : (fromTomlTable t).isSeparator = false)
    (htoml : t.lookup TomlKey.hoist.text.toList = some (.array (names.map .string)))
    (hload : fromJson json = .ok e)
    (hjson : json.find JsonKey.hoist.text = some (.array (names.map .string))) :
    (importRow machine (fromTomlTable t) id).hoist = e.hoist ↔ ReadAlike (names.map utf16) := by
  have hentry : (fromTomlTable t).hoist = asHoist (some (.array (names.map .string))) := by
    unfold fromTomlTable
    simp only [htoml]
    split_ifs <;> rfl
  rw [hoist_importRow machine hsession, (readFrom_of_fromJson hload).hoist, hjson, hentry,
    asHoist_strings, hoistFromJson, arrayStrings_strings]
  cases names with
  | nil =>
      refine ⟨fun _ => ⟨?_, ?_⟩, fun _ => by decide⟩
      · intro n hn
        cases hn
      · intro piece hpiece
        cases hpiece
  | cons n names =>
      rw [List.isEmpty_cons, if_neg Bool.false_ne_true, utf16_intercalate]
      exact normalize_intercalate_iff (List.cons_ne_nil _ _)

/-- A row of the interchange file with a hoist list only. -/
def hoistTable (names : List (List Char)) : Toml.Table :=
  [(TomlKey.hoist.text.toList, .array (names.map .string))]

/-- An entry of the settings with a hoist list only. -/
def hoistObject (names : List (List Char)) : Json :=
  .object [(JsonKey.hoist.text, .array (names.map .string))]

/-- Two state names, in another order and with a blank. -/
def twoNames : List (List Char) := ["running".toList, " blocked".toList]

theorem hoist_import_twoNames :
    fromJson (hoistObject twoNames) = .ok { hoist := L "blocked,running" } ∧
      ((importRow oneProfile (fromTomlTable (hoistTable twoNames)) []).hoist =
          L "blocked,running" ↔
        ReadAlike (twoNames.map utf16)) :=
  ⟨by decide, hoist_import_iff oneProfile [] (t := hoistTable twoNames)
    (e := { hoist := L "blocked,running" }) (by decide) rfl
    (show fromJson (hoistObject twoNames) = .ok { hoist := L "blocked,running" } by decide) rfl⟩

/-- The word `default` in a list, and two state names in one string. -/
theorem hoist_import_differs :
    ((importRow oneProfile (fromTomlTable (hoistTable ["default".toList])) []).hoist = [] ∧
        fromJson (hoistObject ["default".toList]) = .ok { hoist := L "never" }) ∧
      (importRow oneProfile (fromTomlTable (hoistTable ["idle,working".toList])) []).hoist =
          L "idle,working" ∧
        fromJson (hoistObject ["idle,working".toList]) = .ok { hoist := L "never" } := by
  decide

end Axan.LaunchEntryWire
