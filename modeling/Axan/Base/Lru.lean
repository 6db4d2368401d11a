import Mathlib

/-!
# A bounded cache that evicts the least recently used key

A cache as the list of its items, the least recently used first. Using an item puts it at the end,
in the place of the item with its key; when the key is new and the cache is full, the first item
leaves.

* `lruStep` — one use.
* `lasts` — the items of a sequence that no later item of the same key replaces.
* `exists_split_of_mem_lasts`, `lasts_concat` — what follows a last item, and what one more item
  does to them.
* `foldl_lruStep` — the cache after a sequence of uses holds the last `n` of the `lasts`.
-/

namespace Axan.Base

variable {α κ : Type} [DecidableEq κ] (key : α → κ)

/-- Use one item of a cache of `n` places. -/
def lruStep (n : ℕ) (l : List α) (x : α) : List α :=
  if key x ∈ l.map key then l.filter (fun y => key y ≠ key x) ++ [x]
  else (l ++ [x]).rtake n

/-- The items with no later item of the same key, in their order. -/
def lasts (xs : List α) : List α := xs.pwFilter fun a b => key a ≠ key b

variable {key}

/-- The keys of the last items are the distinct keys. -/
theorem map_lasts (xs : List α) : (lasts key xs).map key = (xs.map key).dedup :=
  (List.pwFilter_map (R := fun a b => a ≠ b) key xs).symm

/-- The last uses are in the order of the uses. -/
theorem lasts_sublist (xs : List α) : (lasts key xs).Sublist xs :=
  List.pwFilter_sublist xs

/-- Every key has one last use. -/
theorem nodup_map_lasts (xs : List α) : ((lasts key xs).map key).Nodup := by
  rw [map_lasts]
  exact List.nodup_dedup _

/-- The first item is a last one unless a later item has its key. -/
theorem lasts_cons (x : α) (xs : List α) :
    lasts key (x :: xs) = if key x ∈ xs.map key then lasts key xs else x :: lasts key xs := by
  have hmem : (∀ b ∈ lasts key xs, key x ≠ key b) ↔ key x ∉ xs.map key := by
    rw [← List.mem_dedup, ← map_lasts, List.mem_map]
    exact ⟨fun h ⟨b, hb, he⟩ => h b hb he.symm, fun h b hb he => h ⟨b, hb, he.symm⟩⟩
  unfold lasts at hmem ⊢
  split_ifs with h
  · exact List.pwFilter_cons_of_neg fun hne => hmem.mp hne h
  · exact List.pwFilter_cons_of_pos (hmem.mpr h)

/-- After a last item no item has its key. -/
theorem exists_split_of_mem_lasts {xs : List α} {x : α} (h : x ∈ lasts key xs) :
    ∃ a b, xs = a ++ x :: b ∧ ∀ y ∈ b, key y ≠ key x := by
  induction xs with
  | nil => cases h
  | cons c xs ih =>
      rw [lasts_cons] at h
      have hrest : x ∈ lasts key xs → ∃ a b, c :: xs = a ++ x :: b ∧ ∀ y ∈ b, key y ≠ key x := by
        intro hx
        obtain ⟨a, b, rfl, hb⟩ := ih hx
        exact ⟨c :: a, b, rfl, hb⟩
      split_ifs at h with hc
      · exact hrest h
      · rcases List.mem_cons.mp h with rfl | hx
        · exact ⟨[], xs, rfl, fun y hy he => hc (he ▸ List.mem_map_of_mem hy)⟩
        · exact hrest hx

/-- One more item replaces the last item of its key. -/
theorem lasts_concat (xs : List α) (x : α) :
    lasts key (xs ++ [x]) = (lasts key xs).filter (fun y => key y ≠ key x) ++ [x] := by
  induction xs with
  | nil => rfl
  | cons a xs ih =>
      rw [List.cons_append, lasts_cons, lasts_cons, ih]
      by_cases hax : key a = key x
      · -- the new item has the first one's key
        rw [if_pos (by simp [hax])]
        split_ifs
        · rfl
        · rw [List.filter_cons_of_neg (by simp [hax])]
      · have hiff : key a ∈ (xs ++ [x]).map key ↔ key a ∈ xs.map key := by simp [hax]
        by_cases hin : key a ∈ xs.map key
        · rw [if_pos (hiff.mpr hin), if_pos hin]
        · rw [if_neg fun h => hin (hiff.mp h), if_neg hin, List.filter_cons_of_pos (by simp [hax])]
          rfl

/-- Removing a key that is there removes one of the items with distinct keys. -/
theorem length_filter_key {l : List α} (hl : (l.map key).Nodup) {k : κ} (hk : k ∈ l.map key) :
    (l.filter fun y => key y ≠ k).length + 1 = l.length := by
  have hlen : (l.filter fun y => key y ≠ k).length = ((l.map key).erase k).length := by
    rw [hl.erase_eq_filter, List.filter_map, List.length_map]
    congr 2
    funext y
    simp only [Function.comp_apply, bne, beq_eq_decide, decide_not]
  rw [List.length_erase_of_mem hk, List.length_map] at hlen
  have hpos : 0 < l.length := List.length_map key ▸ List.length_pos_of_mem hk
  omega

/-- Taking out a key that is not there changes nothing. -/
theorem filter_key_eq_self {l : List α} {k : κ} (hk : k ∉ l.map key) :
    (l.filter fun y => key y ≠ k) = l := by
  rw [List.filter_eq_self]
  intro y hy
  have : key y ≠ k := fun he => hk (he ▸ List.mem_map_of_mem hy)
  simpa using this

/-! ### The end of a list -/

/-- The end of a list is all of it, or has the length asked for. -/
theorem exists_append_rtake (n : ℕ) (l : List α) :
    ∃ a, l = a ++ l.rtake n ∧ (a = [] ∨ (l.rtake n).length = n) := by
  refine ⟨l.rdrop n, (List.take_append_drop _ l).symm, ?_⟩
  rcases Nat.lt_or_ge n l.length with h | h
  · right
    simp only [List.rtake, List.length_drop]
    omega
  · left
    have : l.length - n = 0 := by omega
    simp [List.rdrop, this]

/-- The end does not reach into the front part. -/
theorem rtake_append_of_le_length {a b : List α} {n : ℕ} (h : n ≤ b.length) :
    (a ++ b).rtake n = b.rtake n := by
  unfold List.rtake
  rw [List.drop_append, List.drop_eq_nil_of_le (by simp only [List.length_append]; omega),
    List.nil_append]
  congr 1
  simp only [List.length_append]
  omega

/-- A short list is its own end. -/
theorem rtake_of_length_le {l : List α} {n : ℕ} (h : l.length ≤ n) : l.rtake n = l := by
  unfold List.rtake
  rw [Nat.sub_eq_zero_of_le h]
  rfl

/-- The end is no longer than asked for. -/
theorem length_rtake (n : ℕ) (l : List α) : (l.rtake n).length = min n l.length := by
  simp only [List.rtake, List.length_drop]
  omega

/-- One use of an item keeps the cache at the last `n` of the items that were not replaced. -/
theorem lruStep_rtake {n : ℕ} (hn : 0 < n) {l : List α} (hl : (l.map key).Nodup) (x : α) :
    lruStep key n (l.rtake n) x = (l.filter (fun y => key y ≠ key x) ++ [x]).rtake n := by
  obtain ⟨m, rfl⟩ := Nat.exists_eq_succ_of_ne_zero hn.ne'
  obtain ⟨a, hsplit, hfull⟩ := exists_append_rtake (m + 1) l
  have hle : (l.rtake (m + 1)).length ≤ m + 1 := (length_rtake _ _).trans_le (min_le_left _ _)
  generalize l.rtake (m + 1) = k at hsplit hfull hle
  subst hsplit
  rw [List.map_append, List.nodup_append] at hl
  rw [List.rtake_concat_succ, List.filter_append]
  unfold lruStep
  split_ifs with hx
  · -- the key is in the cache, so nothing before the cache has it
    have hlen := length_filter_key hl.2.1 hx
    congr 1
    rcases hfull with rfl | hfull
    · rw [List.filter_nil, List.nil_append, rtake_of_length_le (by omega)]
    · rw [rtake_append_of_le_length (by omega), rtake_of_length_le (by omega)]
  · rw [List.rtake_concat_succ, filter_key_eq_self hx]
    congr 1
    rcases hfull with rfl | hfull
    · rfl
    · rw [rtake_append_of_le_length (by omega)]

/-- **The cache after a sequence of uses**: of the items no later one replaces, the last `n`. -/
theorem foldl_lruStep {n : ℕ} (hn : 0 < n) (xs : List α) :
    xs.foldl (lruStep key n) [] = (lasts key xs).rtake n := by
  induction xs using List.reverseRecOn with
  | nil => simp [lasts]
  | append_singleton xs x ih =>
      rw [List.foldl_append, List.foldl_cons, List.foldl_nil, ih,
        lruStep_rtake hn (nodup_map_lasts xs), lasts_concat]

end Axan.Base
