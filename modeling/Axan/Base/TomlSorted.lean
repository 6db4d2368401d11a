import Axan.Base.TomlFile

/-!
# Sorted tables

A parser may keep the keys of its tables in order (`toml::table` is a `std::map`).

* `sortedTable` — a table and the tables in it with their keys in order.
* `sameTable_sortedTable` — it is the same table.
-/

namespace Axan.Base.Toml

/-- The order of keys. -/
def keyLe (kv kv' : List Char × Value) : Prop := kv.1 ≤ kv'.1

instance : DecidableRel keyLe := fun kv kv' => inferInstanceAs (Decidable (kv.1 ≤ kv'.1))

mutual

/-- A value with its tables in order. -/
def sortedValue : Value → Value
  | .array vs => .array (sortedValues vs)
  | .table kvs => .table (sortedTable kvs)
  | v => v

/-- The values of an array. -/
def sortedValues : List Value → List Value
  | [] => []
  | v :: vs => sortedValue v :: sortedValues vs

/-- The pairs of a table. -/
def sortedTable : List (List Char × Value) → List (List Char × Value)
  | [] => []
  | (key, v) :: t => (sortedTable t).orderedInsert keyLe (key, sortedValue v)

end

example : (sortedTable [("b".toList, .integer 1), ("a".toList, .table [])]).map Prod.fst =
    ["a".toList, "b".toList] := by decide

/-- Only smaller keys are passed, so that the pair is found as if it were in front. -/
theorem lookup_orderedInsert (kv : List Char × Value) (t : Table) (key : List Char) :
    (t.orderedInsert keyLe kv).lookup key = (kv :: t).lookup key := by
  induction t with
  | nil => rfl
  | cons kv' t ih =>
      rw [List.orderedInsert_cons]
      split_ifs with hle
      · rfl
      · have hne : kv'.1 ≠ kv.1 := fun heq => hle heq.ge
        obtain ⟨k, v⟩ := kv
        obtain ⟨k', v'⟩ := kv'
        rw [List.lookup_cons, ih, List.lookup_cons, List.lookup_cons, List.lookup_cons]
        by_cases hkey : key = k'
        · subst hkey
          rw [beq_self_eq_true, beq_eq_false_iff_ne.mpr hne]
        · rw [beq_eq_false_iff_ne.mpr hkey]

mutual

theorem sameValue_sortedValue : ∀ v : Value, SameValue v (sortedValue v)
  | .array vs => by
      rw [sortedValue]
      exact .array (sameValue_sortedValues vs)
  | .table kvs => by
      rw [sortedValue]
      exact .table (sameTable_sortedTable kvs)
  | .string s => .refl _
  | .integer n => .refl _
  | .float x => .refl _
  | .boolean b => .refl _
  | .dateTime text => .refl _

theorem sameValue_sortedValues : ∀ vs : List Value, List.Forall₂ SameValue vs (sortedValues vs)
  | [] => .nil
  | v :: vs => .cons (sameValue_sortedValue v) (sameValue_sortedValues vs)

/-- Sorting the keys of a table leaves it the same. -/
theorem sameTable_sortedTable :
    ∀ t : List (List Char × Value), SameTable t (sortedTable t)
  | [] => fun _ => .none
  | (k, v) :: t => by
      intro key
      rw [sortedTable, lookup_orderedInsert, List.lookup_cons, List.lookup_cons]
      cases key == k with
      | true => exact .some (sameValue_sortedValue v)
      | false => exact sameTable_sortedTable t key

end

/-- Sorting neither adds a key nor drops one. -/
theorem fst_sortedTable_perm (t : Table) : ((sortedTable t).map Prod.fst).Perm (t.map Prod.fst) := by
  induction t with
  | nil => exact List.Perm.refl _
  | cons kv t ih =>
      obtain ⟨key, v⟩ := kv
      rw [sortedTable]
      exact ((List.perm_orderedInsert keyLe _ _).map Prod.fst).trans (ih.cons key)

/-- A key is looked up as before. -/
theorem lookup_sortedTable (t : Table) (key : List Char) :
    (sortedTable t).lookup key = (t.lookup key).map sortedValue := by
  induction t with
  | nil => rfl
  | cons kv t ih =>
      obtain ⟨k, v⟩ := kv
      rw [sortedTable, lookup_orderedInsert, List.lookup_cons, List.lookup_cons, ih]
      cases key == k <;> rfl

/-- The tables of a sorted document have distinct keys when those of the document do. -/
theorem nodup_of_lookup_sortedTable {doc : Table} (h : Distinct doc) {name : List Char} {t : Table}
    (hlookup : (sortedTable doc).lookup name = some (.table t)) : (t.map Prod.fst).Nodup := by
  rw [lookup_sortedTable] at hlookup
  obtain ⟨v, hv, hsorted⟩ := Option.map_eq_some_iff.mp hlookup
  cases v with
  | table u =>
      rw [sortedValue] at hsorted
      obtain rfl := Value.table.inj hsorted
      exact (fst_sortedTable_perm u).nodup_iff.mpr (h.2 name u (mem_of_lookup hv))
  | array vs =>
      rw [sortedValue] at hsorted
      cases hsorted
  | _ => cases hsorted

end Axan.Base.Toml
