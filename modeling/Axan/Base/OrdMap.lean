import Mathlib

/-!
# Ordered maps

A map kept as the list of its entries in strictly increasing key order, the order a `std::map`
iterates in. The order is a field, so a map whose keys repeat or stand out of order cannot be
built.

* `find?`, `insert`, `erase`, `restrict` — lookup, insert-or-assign, removal of one key, and the
  removal of a set of entries given as a sublist that keeps the rest.
* `mem_insert_iff`, `perm_insert`, `mem_erase_iff` — the entries after an insertion and a removal.
* `pairwise_insert` — a relation that holds between any two entries holds after an insertion when
  it holds between the new entry and the old ones.
* `size_insert_le`, `size_erase_of_mem` — how the number of entries changes.
-/

namespace Axan.Base

variable {κ β : Type} [LinearOrder κ]

/-- A map as its entries, in strictly increasing key order. -/
structure OrdMap (κ β : Type) [LinearOrder κ] where
  /-- The entries, smallest key first. -/
  entries : List (κ × β)
  /-- The keys are strictly increasing. -/
  sorted : entries.Pairwise fun a b => a.1 < b.1

namespace OrdMap

/-- Two maps with the same entries are the same map. -/
@[ext] theorem ext {m m' : OrdMap κ β} (h : m.entries = m'.entries) : m = m' := by
  cases m
  cases m'
  simp only at h
  subst h
  rfl

/-- The empty map. -/
def empty : OrdMap κ β := ⟨[], List.Pairwise.nil⟩

@[simp] theorem entries_empty : (empty : OrdMap κ β).entries = [] := rfl

/-- The number of entries. -/
def size (m : OrdMap κ β) : ℕ := m.entries.length

/-- The value stored under a key. -/
def find? (m : OrdMap κ β) (k : κ) : Option β :=
  (m.entries.find? fun e => e.1 = k).map Prod.snd

/-- No two entries share a key. -/
theorem keys_nodup (m : OrdMap κ β) : (m.entries.map Prod.fst).Nodup :=
  List.pairwise_map.mpr (m.sorted.imp fun h => h.ne)

/-- A key occurs in one entry only. -/
theorem eq_of_mem_of_key_eq {m : OrdMap κ β} {a b : κ × β} (ha : a ∈ m.entries)
    (hb : b ∈ m.entries) (h : a.1 = b.1) : a = b :=
  List.inj_on_of_nodup_map m.keys_nodup ha hb h

/-- A lookup fails exactly when no entry has the key. -/
theorem find?_eq_none_iff {m : OrdMap κ β} {k : κ} :
    m.find? k = none ↔ ∀ e ∈ m.entries, e.1 ≠ k := by
  simp [find?]

/-- A lookup returns a value exactly when the entry is there. -/
theorem find?_eq_some_iff {m : OrdMap κ β} {k : κ} {v : β} :
    m.find? k = some v ↔ (k, v) ∈ m.entries := by
  constructor
  · intro h
    simp only [find?, Option.map_eq_some_iff] at h
    obtain ⟨e, he, rfl⟩ := h
    have hk : e.1 = k := by simpa using List.find?_some he
    rw [← hk]
    exact List.mem_of_find?_eq_some he
  · intro h
    cases hf : m.find? k with
    | none => exact absurd rfl (find?_eq_none_iff.mp hf _ h)
    | some w =>
        simp only [find?, Option.map_eq_some_iff] at hf
        obtain ⟨e, he, rfl⟩ := hf
        have hk : e.1 = k := by simpa using List.find?_some he
        have := eq_of_mem_of_key_eq (List.mem_of_find?_eq_some he) h hk
        rw [this]

/-! ### Removing entries -/

/-- The map whose entries are a sublist of the given one's. -/
def restrict (m : OrdMap κ β) (l : List (κ × β)) (h : l.Sublist m.entries) : OrdMap κ β :=
  ⟨l, m.sorted.sublist h⟩

@[simp] theorem entries_restrict (m : OrdMap κ β) (l : List (κ × β))
    (h : l.Sublist m.entries) : (m.restrict l h).entries = l := rfl

/-- Keep the entries that satisfy a test. -/
def filter (m : OrdMap κ β) (p : κ × β → Bool) : OrdMap κ β :=
  m.restrict (m.entries.filter p) List.filter_sublist

@[simp] theorem entries_filter (m : OrdMap κ β) (p : κ × β → Bool) :
    (m.filter p).entries = m.entries.filter p := rfl

/-- Remove the entry of a key. -/
def erase (m : OrdMap κ β) (k : κ) : OrdMap κ β := m.filter fun e => e.1 ≠ k

/-- Erasing a key takes its pair out, and no other. -/
theorem mem_erase_iff {m : OrdMap κ β} {k : κ} {e : κ × β} :
    e ∈ (m.erase k).entries ↔ e ∈ m.entries ∧ e.1 ≠ k := by
  simp [erase]

/-- Removing a key that is there removes one entry. -/
theorem size_erase_of_mem {m : OrdMap κ β} {e : κ × β} (h : e ∈ m.entries) :
    (m.erase e.1).size + 1 = m.size := by
  have hone : m.entries.countP (fun a => decide (a.1 = e.1)) = 1 := by
    have hc : m.entries.countP (fun a => decide (a.1 = e.1)) =
        (m.entries.map Prod.fst).count e.1 := by
      rw [List.count, List.countP_map]
      congr 1
    rw [hc]
    exact List.count_eq_one_of_mem m.keys_nodup (List.mem_map_of_mem h)
  have hsum := List.length_eq_countP_add_countP (fun a : κ × β => decide (a.1 = e.1))
    (l := m.entries)
  have hneg : m.entries.countP (fun a => !decide (a.1 = e.1)) = (m.erase e.1).size := by
    simp [size, erase, List.countP_eq_length_filter]
  simp only [size] at hneg ⊢
  simp only [Bool.not_eq_true, decide_eq_false_iff_not] at hsum
  have : m.entries.countP (fun a => decide ¬a.1 = e.1) =
      m.entries.countP (fun a => !decide (a.1 = e.1)) := by simp
  omega

/-! ### Inserting -/

/-- Put an entry at its place in an ordered list, over an entry with the same key. -/
def insertList (k : κ) (v : β) : List (κ × β) → List (κ × β)
  | [] => [(k, v)]
  | e :: l =>
      if k < e.1 then (k, v) :: e :: l
      else if k = e.1 then (k, v) :: l
      else e :: insertList k v l

/-- The entries after an insertion: the new one, and the old ones under other keys. -/
theorem mem_insertList_iff {k : κ} {v : β} {l : List (κ × β)}
    (hl : l.Pairwise fun a b => a.1 < b.1) {e : κ × β} :
    e ∈ insertList k v l ↔ e = (k, v) ∨ (e ∈ l ∧ e.1 ≠ k) := by
  induction l with
  | nil => simp [insertList]
  | cons a l ih =>
      rw [List.pairwise_cons] at hl
      rw [insertList]
      split_ifs with h₁ h₂
      · -- the key goes first, so it is below every old key
        have : ∀ b ∈ a :: l, b.1 ≠ k := by
          intro b hb
          rcases List.mem_cons.mp hb with rfl | hb
          · exact h₁.ne'
          · exact (h₁.trans (hl.1 b hb)).ne'
        constructor
        · intro h
          rcases List.mem_cons.mp h with rfl | h
          · exact Or.inl rfl
          · exact Or.inr ⟨h, this e h⟩
        · rintro (rfl | ⟨h, -⟩)
          · exact List.mem_cons_self
          · exact List.mem_cons_of_mem _ h
      · have : ∀ b ∈ l, b.1 ≠ k := fun b hb => by
          rw [h₂]; exact (hl.1 b hb).ne'
        constructor
        · intro h
          rcases List.mem_cons.mp h with rfl | h
          · exact Or.inl rfl
          · exact Or.inr ⟨List.mem_cons_of_mem _ h, this e h⟩
        · rintro (rfl | ⟨h, hk⟩)
          · exact List.mem_cons_self
          · rcases List.mem_cons.mp h with rfl | h
            · exact absurd h₂.symm hk
            · exact List.mem_cons_of_mem _ h
      · rw [List.mem_cons, ih hl.2]
        constructor
        · rintro (rfl | h | ⟨h, hk⟩)
          · exact Or.inr ⟨List.mem_cons_self, fun h => h₂ h.symm⟩
          · exact Or.inl h
          · exact Or.inr ⟨List.mem_cons_of_mem _ h, hk⟩
        · rintro (h | ⟨h, hk⟩)
          · exact Or.inr (Or.inl h)
          · rcases List.mem_cons.mp h with rfl | h
            · exact Or.inl rfl
            · exact Or.inr (Or.inr ⟨h, hk⟩)

/-- The keys ascend after an insertion too. -/
theorem pairwise_insertList {k : κ} {v : β} {l : List (κ × β)}
    (hl : l.Pairwise fun a b => a.1 < b.1) :
    (insertList k v l).Pairwise fun a b => a.1 < b.1 := by
  induction l with
  | nil => simp [insertList]
  | cons a l ih =>
      have hl' := List.pairwise_cons.mp hl
      rw [insertList]
      split_ifs with h₁ h₂
      · refine List.pairwise_cons.mpr ⟨fun b hb => ?_, hl⟩
        rcases List.mem_cons.mp hb with rfl | hb
        · exact h₁
        · exact h₁.trans (hl'.1 b hb)
      · exact List.pairwise_cons.mpr ⟨fun b hb => h₂ ▸ hl'.1 b hb, hl'.2⟩
      · refine List.pairwise_cons.mpr ⟨fun b hb => ?_, ih hl'.2⟩
        rcases (mem_insertList_iff hl'.2).mp hb with rfl | ⟨hb, -⟩
        · exact lt_of_le_of_ne (not_lt.mp h₁) fun h => h₂ h.symm
        · exact hl'.1 b hb

/-- Insert, or assign over the entry with the same key. -/
def insert (m : OrdMap κ β) (k : κ) (v : β) : OrdMap κ β :=
  ⟨insertList k v m.entries, pairwise_insertList m.sorted⟩

/-- Inserting a pair replaces the pair of its key, and no other. -/
theorem mem_insert_iff {m : OrdMap κ β} {k : κ} {v : β} {e : κ × β} :
    e ∈ (m.insert k v).entries ↔ e = (k, v) ∨ (e ∈ m.entries ∧ e.1 ≠ k) :=
  mem_insertList_iff m.sorted

/-- No entry is listed twice. -/
theorem entries_nodup (m : OrdMap κ β) : m.entries.Nodup := m.keys_nodup.of_map Prod.fst

/-- The entries after an insertion, in any order. -/
theorem perm_insert (m : OrdMap κ β) (k : κ) (v : β) :
    (m.insert k v).entries.Perm ((k, v) :: (m.erase k).entries) := by
  rw [List.perm_ext_iff_of_nodup (m.insert k v).entries_nodup
    (List.nodup_cons.mpr ⟨by simp [mem_erase_iff], (m.erase k).entries_nodup⟩)]
  intro e
  rw [mem_insert_iff, List.mem_cons, mem_erase_iff]

/-- A lookup after an insertion. -/
theorem find?_insert (m : OrdMap κ β) (k : κ) (v : β) (k' : κ) :
    (m.insert k v).find? k' = if k' = k then some v else m.find? k' := by
  by_cases h : k' = k
  · rw [if_pos h, h, find?_eq_some_iff, mem_insert_iff]
    exact Or.inl rfl
  · rw [if_neg h]
    apply Option.ext
    intro w
    rw [find?_eq_some_iff, find?_eq_some_iff, mem_insert_iff]
    simp [h]

/-- A lookup after keeping some of the keys. -/
theorem find?_filter_key (m : OrdMap κ β) (p : κ → Bool) (k : κ) :
    (m.filter fun e => p e.1).find? k = if p k then m.find? k else none := by
  apply Option.ext
  intro w
  by_cases h : p k = true
  · rw [if_pos h, find?_eq_some_iff, find?_eq_some_iff]
    simp [h]
  · rw [if_neg h, find?_eq_some_iff]
    simp [h]

/-- An insertion over an existing key does not change the number of entries, a fresh key adds
one. -/
theorem length_insertList (k : κ) (v : β) (l : List (κ × β)) :
    (insertList k v l).length ≤ l.length + 1 ∧
      (l.Pairwise (fun a b => a.1 < b.1) → (∃ e ∈ l, e.1 = k) →
        (insertList k v l).length = l.length) := by
  induction l with
  | nil => simp [insertList]
  | cons a l ih =>
      rw [insertList]
      split_ifs with h₁ h₂
      · refine ⟨by simp, fun hl hk => ?_⟩
        obtain ⟨e, he, rfl⟩ := hk
        rcases List.mem_cons.mp he with rfl | he
        · exact absurd h₁ (lt_irrefl _)
        · exact absurd (h₁.trans ((List.pairwise_cons.mp hl).1 e he)) (lt_irrefl _)
      · exact ⟨by simp, fun _ _ => by simp⟩
      · refine ⟨by simpa using ih.1, fun hl hk => ?_⟩
        obtain ⟨e, he, rfl⟩ := hk
        rcases List.mem_cons.mp he with rfl | he
        · exact absurd rfl h₂
        · simpa using ih.2 (List.pairwise_cons.mp hl).2 ⟨e, he, rfl⟩

/-- An insertion adds one pair at most. -/
theorem size_insert_le (m : OrdMap κ β) (k : κ) (v : β) : (m.insert k v).size ≤ m.size + 1 :=
  (length_insertList k v m.entries).1

/-- Replacing a pair adds none. -/
theorem size_insert_of_find? {m : OrdMap κ β} {k : κ} {w : β} (h : m.find? k = some w) (v : β) :
    (m.insert k v).size = m.size :=
  (length_insertList k v m.entries).2 m.sorted ⟨_, find?_eq_some_iff.mp h, rfl⟩

/-- A symmetric relation between values holds between any two entries after an insertion when it
held between any two before, and holds between the new value and every old one. -/
theorem pairwise_insert {R : β → β → Prop} (hR : ∀ a b, R a b → R b a) {m : OrdMap κ β} {k : κ}
    {v : β} (hm : m.entries.Pairwise fun a b => R a.2 b.2) (hv : ∀ e ∈ m.entries, R v e.2) :
    (m.insert k v).entries.Pairwise fun a b => R a.2 b.2 := by
  have go : ∀ l : List (κ × β), (l.Pairwise fun a b => a.1 < b.1) →
      (l.Pairwise fun a b => R a.2 b.2) → (∀ e ∈ l, R v e.2) →
      (insertList k v l).Pairwise fun a b => R a.2 b.2 := by
    intro l
    induction l with
    | nil => intro _ _ _; simp [insertList]
    | cons a l ih =>
        intro hs hl hv
        have hs' := List.pairwise_cons.mp hs
        have hl' := List.pairwise_cons.mp hl
        rw [insertList]
        split_ifs with h₁ h₂
        · exact List.pairwise_cons.mpr ⟨hv, hl⟩
        · exact List.pairwise_cons.mpr ⟨fun b hb => hv b (List.mem_cons_of_mem _ hb), hl'.2⟩
        · refine List.pairwise_cons.mpr
            ⟨fun b hb => ?_, ih hs'.2 hl'.2 fun e he => hv e (List.mem_cons_of_mem _ he)⟩
          rcases (mem_insertList_iff hs'.2).mp hb with rfl | ⟨hb, -⟩
          · exact hR _ _ (hv a List.mem_cons_self)
          · exact hl'.1 b hb
  exact go m.entries m.sorted hm hv

end OrdMap

end Axan.Base
