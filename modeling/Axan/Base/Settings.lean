import Axan.Base.Double

/-!
# Typed settings

Settings in the manner of GSettings: a schema gives each key a type and a range, and a store holds
a value of it for every key.

* `Variant`, `VariantType`, `Range` — values, their types and the checks on them. A string has no
  NUL; an integer is in the range of its type.
* `Schema`, `Store` — keys with distinct names; values that pass their key's check.
* `Store.setValue` — a write, which is refused when the value does not pass the check.
* `Delayed` — a store with writes that are not applied yet.
-/

namespace Axan.Base.Settings

/-- A text without its encoding. -/
abbrev Text := List Char

instance : LawfulBEq Text := List.instLawfulBEq

/-- A text that can be a C string. -/
def nulFree (s : Text) : Bool := s.all fun c => c ≠ Char.ofNat 0

/-! ### Values -/

/-- The integer types. -/
inductive IntType where
  | int32
  | uint32
  | int64
  | uint64
  deriving DecidableEq, Repr

namespace IntType

/-- The least integer of the type. -/
def lo : IntType → ℤ
  | int32 => -2 ^ 31
  | uint32 => 0
  | int64 => -2 ^ 63
  | uint64 => 0

/-- The greatest integer of the type. -/
def hi : IntType → ℤ
  | int32 => 2 ^ 31 - 1
  | uint32 => 2 ^ 32 - 1
  | int64 => 2 ^ 63 - 1
  | uint64 => 2 ^ 64 - 1

/-- `static_cast` to the type. -/
def cast : IntType → ℤ → ℤ
  | int32, n => n.bmod (2 ^ 32)
  | uint32, n => n % 2 ^ 32
  | int64, n => n.bmod (2 ^ 64)
  | uint64, n => n % 2 ^ 64

/-- A number in the range of its type is not cut. -/
theorem cast_eq_self {t : IntType} {n : ℤ} (h : t.lo ≤ n ∧ n ≤ t.hi) : t.cast n = n := by
  obtain ⟨hlo, hhi⟩ := h
  cases t with
  | int32 => exact Int.bmod_eq_of_le (by simpa [lo] using hlo) (by simp [hi] at hhi; omega)
  | uint32 => exact Int.emod_eq_of_lt hlo (by simp [hi] at hhi; omega)
  | int64 => exact Int.bmod_eq_of_le (by simpa [lo] using hlo) (by simp [hi] at hhi; omega)
  | uint64 => exact Int.emod_eq_of_lt hlo (by simp [hi] at hhi; omega)

end IntType

/-- The types of the values. -/
inductive VariantType where
  | boolean
  | integer (t : IntType)
  | double
  | string
  | maybeString
  | maybeBoolean
  | stringArray
  /-- Arrays of tuples of so many strings. -/
  | stringTuples (width : ℕ)
  | other
  deriving DecidableEq, Repr

/-- A value. -/
inductive Variant where
  | boolean (b : Bool)
  | integer (t : IntType) (n : ℤ)
  | double (x : Double)
  | string (s : Text)
  | maybeString (s : Option Text)
  | maybeBoolean (b : Option Bool)
  | stringArray (l : List Text)
  | stringTuples (rows : List (List Text))
  | other (text : Text)
  deriving DecidableEq, Repr

/-- A number that a `double` can have. -/
def isDouble : Double → Bool
  | .finite q => Double.ofRat q = .finite q
  | _ => true

/-- Is the value one of the type? -/
def Variant.hasType : Variant → VariantType → Bool
  | .boolean _, .boolean => true
  | .integer t n, .integer t' => t = t' && t.lo ≤ n && n ≤ t.hi
  | .double x, .double => isDouble x
  | .string s, .string => nulFree s
  | .maybeString s, .maybeString => s.all nulFree
  | .maybeBoolean _, .maybeBoolean => true
  | .stringArray l, .stringArray => l.all nulFree
  | .stringTuples rows, .stringTuples width =>
      rows.all fun row => row.length = width && row.all nulFree
  | .other _, .other => true
  | _, _ => false

/-- What a key restricts its values to. -/
inductive Range where
  | any
  | integers (min max : ℤ)
  | doubles (min max : ℚ)
  /-- The nicks of an enumeration. -/
  | choices (nicks : List String)
  deriving DecidableEq, Repr

/-- Is the value in the range? -/
def Range.accepts : Range → Variant → Bool
  | .any, _ => true
  | .integers min max, .integer _ n => min ≤ n && n ≤ max
  | .doubles min max, .double (.finite q) => min ≤ q && q ≤ max
  | .choices nicks, .string s => nicks.any fun nick => nick.toList = s
  | _, _ => false

/-! ### Schemas -/

/-- A key of a schema. -/
structure KeySpec where
  name : Text
  type : VariantType
  range : Range := .any
  default : Variant

/-- The check of a value for a key. -/
def KeySpec.accepts (k : KeySpec) (v : Variant) : Bool := v.hasType k.type && k.range.accepts v

/-- A schema: keys with distinct names. -/
structure Schema where
  keys : List KeySpec
  nodup : (keys.map KeySpec.name).Nodup

/-- The key with this name. Source: `g_settings_schema_get_key` -/
def Schema.getKey (S : Schema) (name : Text) : Option KeySpec := S.keys.find? fun k => k.name = name

/-- The key that is found is one of the schema, of that name. -/
theorem Schema.mem_of_getKey {S : Schema} {name : Text} {k : KeySpec} (h : S.getKey name = some k) :
    k ∈ S.keys ∧ k.name = name :=
  ⟨List.mem_of_find?_eq_some h, by simpa using List.find?_some h⟩

/-- A key of the schema is found by its name. -/
theorem Schema.getKey_of_mem {S : Schema} {k : KeySpec} (h : k ∈ S.keys) :
    S.getKey k.name = some k := by
  cases hk : S.getKey k.name with
  | none =>
      rw [getKey, List.find?_eq_none] at hk
      exact absurd (decide_eq_true rfl) (hk k h)
  | some k' =>
      obtain ⟨hmem, hname⟩ := mem_of_getKey hk
      rw [List.inj_on_of_nodup_map S.nodup hmem h hname]

/-! ### Stores -/

/-- A value for every key, and each passes its check. -/
structure Store (S : Schema) where
  value : Text → Variant
  accepted : ∀ k ∈ S.keys, k.accepts (value k.name) = true

namespace Store

variable {S : Schema}

/-- Would the key take the value? -/
def takes (S : Schema) (name : Text) (v : Variant) : Bool := (S.getKey name).any fun k => k.accepts v

/-- Write a value. It is refused, and nothing changes, when it does not pass the check.
Source: `g_settings_set_value` -/
def setValue (s : Store S) (name : Text) (v : Variant) : Store S :=
  if h : takes S name v = true then
    { value := Function.update s.value name v
      accepted := by
        intro k hk
        by_cases hname : k.name = name
        · subst hname
          rw [Function.update_self]
          simpa [takes, S.getKey_of_mem hk] using h
        · rw [Function.update_of_ne hname]
          exact s.accepted k hk }
  else s

/-- A key of the schema takes what its check accepts. -/
theorem takes_eq {k : KeySpec} (hk : k ∈ S.keys) (v : Variant) : takes S k.name v = k.accepts v := by
  rw [takes, S.getKey_of_mem hk, Option.any_some]

/-- A value that is not accepted leaves the stored one. -/
theorem setValue_self (s : Store S) {k : KeySpec} (hk : k ∈ S.keys) (v : Variant) :
    (s.setValue k.name v).value k.name = if k.accepts v then v else s.value k.name := by
  rw [← takes_eq hk, setValue]
  split
  · exact Function.update_self _ _ _
  · rfl

/-- Writing one key leaves the others. -/
theorem setValue_of_ne (s : Store S) {name name' : Text} (v : Variant) (hname : name' ≠ name) :
    (s.setValue name v).value name' = s.value name' := by
  rw [setValue]
  split
  · exact Function.update_of_ne hname _ _
  · rfl

/-- The schema's defaults. -/
def ofDefaults (S : Schema) (h : ∀ k ∈ S.keys, k.accepts k.default = true) : Store S where
  value name := ((S.getKey name).map KeySpec.default).getD (.other [])
  accepted := by
    intro k hk
    rw [S.getKey_of_mem hk]
    exact h k hk

/-- Every key has its default. -/
theorem ofDefaults_value (h : ∀ k ∈ S.keys, k.accepts k.default = true) {k : KeySpec}
    (hk : k ∈ S.keys) : (ofDefaults S h).value k.name = k.default := by
  change ((S.getKey k.name).map KeySpec.default).getD (.other []) = k.default
  rw [S.getKey_of_mem hk]
  rfl

end Store

/-- A settings object in delay mode: what is stored, and the values with the writes that wait. -/
structure Delayed (S : Schema) where
  stored : Store S
  current : Store S

namespace Delayed

variable {S : Schema}

/-- Source: `g_settings_delay` -/
def delay (s : Store S) : Delayed S := ⟨s, s⟩

/-- Source: `g_settings_get_value` -/
def getValue (d : Delayed S) (name : Text) : Variant := d.current.value name

/-- Source: `g_settings_set_value` -/
def setValue (d : Delayed S) (name : Text) (v : Variant) : Delayed S :=
  { d with current := d.current.setValue name v }

/-- Source: `g_settings_apply` -/
def apply (d : Delayed S) : Delayed S := ⟨d.current, d.current⟩

/-- Source: `g_settings_revert` -/
def revert (d : Delayed S) : Delayed S := ⟨d.stored, d.stored⟩

end Delayed

end Axan.Base.Settings
