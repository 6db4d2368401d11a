import Mathlib

/-!
# Lists of pairs

A list of keys with values, read by `List.lookup`: the first pair of a key counts.

* `lookup_cons_ite`, `lookup_cons_of_ne`, `lookup_eq_none` — the lookup along the list.
* `mem_of_lookup`, `lookup_of_mem` — what is found is in the list, and what is in a list without
  repeated keys is found.
* `lookup_map_injective` — the lookup under other names for the keys.
-/

namespace Axan.Base

variable {κ ν : Type} [BEq κ] [LawfulBEq κ]

/-- A pair in front with another key does not matter. -/
theorem lookup_cons_of_ne {key k : κ} (h : k ≠ key) (v : ν) (l : List (κ × ν)) :
    ((key, v) :: l).lookup k = l.lookup k := by
  rw [List.lookup_cons, beq_false_of_ne h]

/-- The first pair of a key decides. -/
theorem lookup_cons_ite [DecidableEq κ] (key k : κ) (v : ν) (l : List (κ × ν)) :
    ((key, v) :: l).lookup k = if k = key then some v else l.lookup k := by
  by_cases h : k = key
  · rw [if_pos h, h, List.lookup_cons_self]
  · rw [if_neg h, lookup_cons_of_ne h]

/-- A key that no pair has is not found. -/
theorem lookup_eq_none {l : List (κ × ν)} {k : κ} (h : k ∉ l.map Prod.fst) : l.lookup k = none := by
  rw [List.lookup_eq_none_iff]
  rintro ⟨key, v⟩ hp
  simpa using fun heq : k = key => h (heq ▸ List.mem_map_of_mem hp)

/-- What is looked up is in the list. -/
theorem mem_of_lookup {l : List (κ × ν)} {k : κ} {v : ν} (h : l.lookup k = some v) :
    (k, v) ∈ l := by
  obtain ⟨front, behind, rfl, -⟩ := List.lookup_eq_some_iff.mp h
  exact List.mem_append_right _ List.mem_cons_self

/-- With distinct keys every pair is found. -/
theorem lookup_of_mem {l : List (κ × ν)} (hnd : (l.map Prod.fst).Nodup) {k : κ} {v : ν}
    (h : (k, v) ∈ l) : l.lookup k = some v := by
  induction l with
  | nil => cases h
  | cons p l ih =>
      obtain ⟨hnew, hrest⟩ := List.nodup_cons.mp hnd
      rcases List.mem_cons.mp h with rfl | h
      · exact List.lookup_cons_self
      · have hne : k ≠ p.1 := by
          rintro rfl
          exact hnew (List.mem_map.mpr ⟨_, h, rfl⟩)
        rw [lookup_cons_of_ne hne]
        exact ih hrest h

/-- Other names for the keys, and an image of each value. -/
theorem lookup_map_injective {κ' ν' : Type} [BEq κ'] [LawfulBEq κ'] {f : κ → κ'}
    (hf : Function.Injective f) (g : ν → ν') (l : List (κ × ν)) (k : κ) :
    (l.map fun p => (f p.1, g p.2)).lookup (f k) = (l.lookup k).map g := by
  induction l with
  | nil => rfl
  | cons p l ih =>
      rw [List.map_cons, List.lookup_cons, List.lookup_cons, ih]
      by_cases h : k = p.1
      · rw [h]
        simp
      · rw [beq_false_of_ne h, beq_false_of_ne fun he => h (hf he)]

end Axan.Base
