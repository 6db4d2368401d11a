import Mathlib

/-!
# Reordering the rows of a vector

The bounds-checked edits of an observable vector, and the block move built from them: lift the
rows at some indices, then put them back as one run.

* `removeAt`, `insertAt` — the two edits; `none` is the out-of-bounds error.
* `removeEach`, `insertRun` — a row of removals by descending index, and the insertion of a run.
* `keep`, `pick` — the rows at the indices a predicate selects; `removeEach_eq` and
  `insertRun_eq` say what the edits come to.
* `Before` — the order of two rows; it survives filtering, and in a list without repetitions it
  is transitive through a split (`Before.mem_of_split`).
-/

namespace Axan.Base

variable {α β : Type}

/-! ### The edits -/

/-- Remove the row at an index. Source: `IVector.RemoveAt` -/
def removeAt (l : List α) (i : ℕ) : Option (List α) :=
  if i < l.length then some (l.eraseIdx i) else none

/-- Insert a row at an index. Source: `IVector.InsertAt` -/
def insertAt (l : List α) (i : ℕ) (a : α) : Option (List α) :=
  if i ≤ l.length then some (l.insertIdx i a) else none

/-- Remove rows one after another. -/
def removeEach : List ℕ → List α → Option (List α)
  | [], l => some l
  | i :: is, l => (removeAt l i).bind (removeEach is)

/-- Insert rows one after another, each behind the one before. -/
def insertRun : ℕ → List α → List α → Option (List α)
  | _, [], l => some l
  | i, a :: as, l => (insertAt l i a).bind (insertRun (i + 1) as)

theorem insertIdx_eq_append {i : ℕ} {l : List α} (h : i ≤ l.length) (a : α) :
    l.insertIdx i a = l.take i ++ a :: l.drop i := by
  induction l generalizing i with
  | nil =>
      have hi : i = 0 := by simpa using h
      subst hi
      rfl
  | cons b l ih =>
      cases i with
      | zero => rfl
      | succ i => simp [ih (by simpa using h)]

/-- Inserting a run puts it between the rows before the index and those from it on. -/
theorem insertRun_eq {i : ℕ} {as l : List α} (h : i ≤ l.length) :
    insertRun i as l = some (l.take i ++ as ++ l.drop i) := by
  induction as generalizing i l with
  | nil => simp [insertRun]
  | cons a as ih =>
      have hins : l.insertIdx i a = l.take i ++ a :: l.drop i := insertIdx_eq_append h a
      have hlen : (l.take i ++ [a]).length = i + 1 := by simp [h]
      have hsplit : l.take i ++ a :: l.drop i = (l.take i ++ [a]) ++ l.drop i := by simp
      rw [insertRun, insertAt, if_pos h, Option.bind_some, hins, ih (by simp; omega), hsplit,
        List.take_left' hlen, List.drop_left' hlen]
      simp

/-! ### Selecting rows by index -/

/-- The rows whose index, counted from `k`, satisfies `p`. -/
def keep (p : ℕ → Bool) : ℕ → List α → List α
  | _, [] => []
  | k, a :: l => if p k then a :: keep p (k + 1) l else keep p (k + 1) l

/-- What is kept depends on the marks of its positions only. -/
theorem keep_congr {p q : ℕ → Bool} {k : ℕ} {l : List α}
    (h : ∀ i < l.length, p (k + i) = q (k + i)) : keep p k l = keep q k l := by
  induction l generalizing k with
  | nil => rfl
  | cons a l ih =>
      have h₀ : p k = q k := by simpa using h 0 (by simp)
      have h₁ : keep p (k + 1) l = keep q (k + 1) l := ih fun i hi => by
        have := h (i + 1) (by simpa using hi)
        rwa [show k + (i + 1) = k + 1 + i by omega] at this
      rw [keep, keep, h₀, h₁]

/-- With every position marked, all is kept. -/
theorem keep_true {p : ℕ → Bool} {k : ℕ} {l : List α} (h : ∀ i, p i = true) :
    keep p k l = l := by
  induction l generalizing k with
  | nil => rfl
  | cons a l ih => rw [keep, if_pos (h k), ih]

/-- Selecting by a predicate of the rows themselves is filtering. -/
theorem keep_eq_filter {p : ℕ → Bool} {q : α → Bool} {k : ℕ} {l : List α}
    (h : ∀ i a, l[i]? = some a → p (k + i) = q a) : keep p k l = l.filter q := by
  induction l generalizing k with
  | nil => rfl
  | cons a l ih =>
      have h₀ : p k = q a := by simpa using h 0 a rfl
      have h₁ : keep p (k + 1) l = l.filter q := ih fun i b hb => by
        have := h (i + 1) b (by simpa using hb)
        rwa [show k + (i + 1) = k + 1 + i by omega] at this
      rw [keep, h₀, h₁, List.filter_cons]

/-- Removing one row leaves the others, once nothing behind it is removed. -/
theorem keep_eraseIdx {p : ℕ → Bool} {k i : ℕ} {l : List α} (h : ∀ j, k + i ≤ j → p j = true) :
    keep p k (l.eraseIdx i) = keep (fun j => p j && j ≠ k + i) k l := by
  induction l generalizing k i with
  | nil => rfl
  | cons a l ih =>
      cases i with
      | zero =>
          have hshift : ∀ (l : List α) (m : ℕ), k ≤ m → keep p m l = l := by
            intro l
            induction l with
            | nil => intros; rfl
            | cons b l ihl =>
                intro m hm
                rw [keep, if_pos (h m (by omega)), ihl (m + 1) (by omega)]
          have hrest : keep (fun j => p j && decide (j ≠ k + 0)) (k + 1) l = keep p (k + 1) l :=
            keep_congr fun i _ => by
              have : decide (k + 1 + i ≠ k + 0) = true := decide_eq_true (by omega)
              simp only [this, Bool.and_true]
          rw [List.eraseIdx_cons_zero, keep, if_neg (by simp), hrest, hshift l k le_rfl,
            hshift l (k + 1) (by omega)]
      | succ i =>
          have hk : (p k && decide (k ≠ k + (i + 1))) = p k := by simp
          have hi : keep p (k + 1) (l.eraseIdx i) =
              keep (fun j => p j && decide (j ≠ k + (i + 1))) (k + 1) l := by
            rw [ih fun j hj => h j (by omega), show k + 1 + i = k + (i + 1) by omega]
          rw [List.eraseIdx_cons_succ, keep, keep, hk, hi]

/-- Removing rows by descending index leaves the rows at the other indices. -/
theorem removeEach_eq {is : List ℕ} {l : List α} (hdesc : is.Pairwise (· > ·))
    (hlt : ∀ i ∈ is, i < l.length) :
    removeEach is l = some (keep (fun j => !is.contains j) 0 l) := by
  induction is generalizing l with
  | nil =>
      rw [removeEach, keep_true]
      intro i
      rfl
  | cons i is ih =>
      obtain ⟨hgt, hdesc⟩ := List.pairwise_cons.mp hdesc
      have hi : i < l.length := hlt i List.mem_cons_self
      have hlt' : ∀ j ∈ is, j < (l.eraseIdx i).length := by
        intro j hj
        have := hgt j hj
        rw [List.length_eraseIdx_of_lt hi]
        omega
      rw [removeEach, removeAt, if_pos hi, Option.bind_some, ih hdesc hlt',
        keep_eraseIdx (l := l) fun j hj => ?_]
      · congr 1
        refine keep_congr fun j _ => ?_
        by_cases hji : 0 + j = i
        · simp [hji]
        · simp only [Nat.zero_add] at hji
          simp [hji]
      · have : j ∉ is := fun hm => absurd (hgt j hm) (by omega)
        simpa using this

/-- The indices, from `k` on, at which a mask is set. -/
def maskIdx : ℕ → List Bool → List ℕ
  | _, [] => []
  | k, b :: mask => if b then k :: maskIdx (k + 1) mask else maskIdx (k + 1) mask

/-- The positions count from the start. -/
theorem le_of_mem_maskIdx {k i : ℕ} {mask : List Bool} (h : i ∈ maskIdx k mask) : k ≤ i := by
  induction mask generalizing k with
  | nil => simp [maskIdx] at h
  | cons b mask ih =>
      rw [maskIdx] at h
      split_ifs at h
      · rcases List.mem_cons.mp h with rfl | h
        · exact le_refl _
        · have := ih h
          omega
      · have := ih h
        omega

/-- They are those of the marks. -/
theorem mem_maskIdx_iff {k i : ℕ} {mask : List Bool} :
    k + i ∈ maskIdx k mask ↔ mask[i]? = some true := by
  induction mask generalizing k i with
  | nil => simp [maskIdx]
  | cons b mask ih =>
      rw [maskIdx]
      cases i with
      | zero =>
          have hnot : k ∉ maskIdx (k + 1) mask := fun h => by
            have := le_of_mem_maskIdx h
            omega
          cases b <;> simp [hnot]
      | succ i =>
          have hne : k + (i + 1) ≠ k := by omega
          have hs : k + (i + 1) = k + 1 + i := by omega
          have hm : k + (i + 1) ∈ maskIdx (k + 1) mask ↔ mask[i]? = some true := hs ▸ ih
          cases b with
          | true => simp only [if_true, List.mem_cons, hne, false_or, hm, List.getElem?_cons_succ]
          | false => simp only [Bool.false_eq_true, if_false, hm, List.getElem?_cons_succ]

theorem pairwise_maskIdx (k : ℕ) (mask : List Bool) : (maskIdx k mask).Pairwise (· < ·) := by
  induction mask generalizing k with
  | nil => exact List.Pairwise.nil
  | cons b mask ih =>
      rw [maskIdx]
      split_ifs
      · exact List.pairwise_cons.mpr ⟨fun i hi => le_of_mem_maskIdx hi, ih (k + 1)⟩
      · exact ih (k + 1)

/-- The rows at a list of indices. Source: the `GetAt` loop of `_applyBlockMove` -/
def pick : List ℕ → List α → Option (List α)
  | [], _ => some []
  | i :: is, l => (l[i]?).bind fun a => (pick is l).map (a :: ·)

/-- The positions of two masks in a row. -/
theorem maskIdx_append (k : ℕ) (a b : List Bool) :
    maskIdx k (a ++ b) = maskIdx k a ++ maskIdx (k + a.length) b := by
  induction a generalizing k with
  | nil => rfl
  | cons x a ih =>
      have hlen : k + (x :: a).length = k + 1 + a.length := by
        rw [List.length_cons]
        omega
      rw [List.cons_append, maskIdx, maskIdx, ih, hlen]
      split_ifs <;> rfl

/-- Picking two lists of positions, one after the other. -/
theorem pick_append {is js : List ℕ} {l x y : List α} (hx : pick is l = some x)
    (hy : pick js l = some y) : pick (is ++ js) l = some (x ++ y) := by
  induction is generalizing x with
  | nil =>
      obtain rfl : [] = x := Option.some.inj hx
      exact hy
  | cons i is ih =>
      rw [pick] at hx
      cases hi : l[i]? with
      | none => rw [hi] at hx; cases hx
      | some a =>
          rw [hi, Option.bind_some] at hx
          obtain ⟨x', hx', rfl⟩ := Option.map_eq_some_iff.mp hx
          rw [List.cons_append, pick, hi, Option.bind_some, ih hx']
          rfl

/-- The rows at the set indices of a mask that follows a predicate of the rows. -/
theorem pick_maskIdx (q : α → Bool) (pre l post : List α) :
    pick (maskIdx pre.length (l.map q)) (pre ++ l ++ post) = some (l.filter q) := by
  induction l generalizing pre with
  | nil => rfl
  | cons a l ih =>
      have h : pick (maskIdx (pre.length + 1) (l.map q)) (pre ++ (a :: l) ++ post) =
          some (l.filter q) := by
        have := ih (pre ++ [a])
        rwa [List.length_append, List.append_assoc pre] at this
      rw [List.map_cons, maskIdx, List.filter_cons]
      split_ifs
      · have ha : (pre ++ (a :: l) ++ post)[pre.length]? = some a := by simp
        rw [pick, ha, Option.bind_some, h]
        rfl
      · exact h

theorem pick_eq_map {is : List ℕ} {l : List α} (f : α → β) :
    pick is (l.map f) = (pick is l).map (List.map f) := by
  induction is with
  | nil => rfl
  | cons i is ih =>
      rw [pick, pick, ih, List.getElem?_map]
      cases l[i]? with
      | none => rfl
      | some a => cases pick is l <;> rfl

/-- A row splits its list. -/
theorem split_of_getElem? {l : List α} {i : ℕ} {a : α} (h : l[i]? = some a) :
    ∃ pre post, l = pre ++ a :: post ∧ i = pre.length := by
  obtain ⟨hlt, he⟩ := List.getElem?_eq_some_iff.mp h
  refine ⟨l.take i, l.drop (i + 1), ?_, ?_⟩
  · rw [← he, ← List.drop_eq_getElem_cons hlt, List.take_append_drop]
  · rw [List.length_take]
    omega

/-- Changing the row that splits a list. -/
theorem modify_split (pre post : List α) (a : α) (f : α → α) :
    (pre ++ a :: post).modify pre.length f = pre ++ f a :: post := by
  induction pre with
  | nil => rfl
  | cons b pre ih => simp [ih]

/-- A row in front of an index is one of the rows in front of the split there. -/
theorem mem_of_getElem?_lt {pre post : List α} {j : ℕ} {a : α}
    (h : (pre ++ post)[j]? = some a) (hj : j < pre.length) : a ∈ pre := by
  rw [List.getElem?_append_left hj] at h
  exact List.mem_of_getElem? h

/-! ### The last and the first row with a property -/

/-- The last element with a property, from one that has it. -/
theorem exists_last {l : List α} {p : α → Prop} {x : α} (hx : x ∈ l) (hp : p x) :
    ∃ a y b, l = a ++ y :: b ∧ p y ∧ (∀ z ∈ b, ¬p z) ∧ x ∈ a ++ [y] := by
  induction l using List.reverseRecOn with
  | nil => simp at hx
  | append_singleton l y ih =>
      by_cases hy : p y
      · exact ⟨l, y, [], rfl, hy, by simp, hx⟩
      · have hxl : x ∈ l := by
          rcases List.mem_append.mp hx with h | h
          · exact h
          · rw [List.mem_singleton.mp h] at hp
            exact absurd hp hy
        obtain ⟨a, z, b, rfl, hz, hb, hm⟩ := ih hxl
        refine ⟨a, z, b ++ [y], by simp, hz, fun w hw => ?_, hm⟩
        rcases List.mem_append.mp hw with h | h
        · exact hb w h
        · rw [List.mem_singleton.mp h]
          exact hy

/-- The first element with a property, from one that has it. -/
theorem exists_first {l : List α} {p : α → Prop} {x : α} (hx : x ∈ l) (hp : p x) :
    ∃ a y b, l = a ++ y :: b ∧ p y ∧ ∀ z ∈ a, ¬p z := by
  obtain ⟨a, y, b, hl, hy, hno, -⟩ := exists_last (List.mem_reverse.mpr hx) hp
  refine ⟨b.reverse, y, a.reverse, ?_, hy, fun z hz => hno z (List.mem_reverse.mp hz)⟩
  rw [← List.reverse_reverse l, hl]
  simp

/-! ### The order of two rows -/

/-- `a` stands before `b`. -/
def Before (l : List α) (a b : α) : Prop := [a, b].Sublist l

/-- The order holds in every longer list. -/
theorem Before.of_sublist {l l' : List α} {a b : α} (h : Before l a b) (hl : l.Sublist l') :
    Before l' a b := h.trans hl

/-- What is in the first part is before what is in the second. -/
theorem before_append {l₁ l₂ : List α} {a b : α} (ha : a ∈ l₁) (hb : b ∈ l₂) :
    Before (l₁ ++ l₂) a b := by
  have h₁ : [a].Sublist l₁ := List.singleton_sublist.mpr ha
  have h₂ : [b].Sublist l₂ := List.singleton_sublist.mpr hb
  exact h₁.append h₂

/-- A filter keeps the order of what stays. -/
theorem Before.filter {l : List α} {a b : α} (h : Before l a b) {p : α → Bool} (ha : p a = true)
    (hb : p b = true) : Before (l.filter p) a b := by
  have := List.Sublist.filter p h
  rwa [List.filter_cons_of_pos ha, List.filter_cons_of_pos hb, List.filter_nil] at this

theorem Before.map {l : List α} {a b : α} (h : Before l a b) (f : α → β) :
    Before (l.map f) (f a) (f b) := List.Sublist.map f h

/-- The first of the two is in the list. -/
theorem Before.mem_left {l : List α} {a b : α} (h : Before l a b) : a ∈ l :=
  h.subset List.mem_cons_self

theorem Before.mem_right {l : List α} {a b : α} (h : Before l a b) : b ∈ l :=
  h.subset (List.mem_cons_of_mem _ List.mem_cons_self)

/-- In a list without repetitions, what stands before a row is in front of it. -/
theorem Before.mem_of_split {l pre post : List α} {a b : α} (h : Before l a b)
    (hnd : l.Nodup) (hl : l = pre ++ b :: post) : a ∈ pre := by
  subst hl
  obtain ⟨r₁, r₂, hr, ha, hb⟩ := List.cons_sublist_iff.mp h
  have hb' : b ∈ r₂ := List.singleton_sublist.mp hb
  rcases List.append_eq_append_iff.mp hr with ⟨c, hr₁, hc⟩ | ⟨c, hpre, -⟩
  · cases c with
    | nil =>
        rw [List.append_nil] at hr₁
        exact hr₁ ▸ ha
    | cons d c =>
        -- `b` would stand on both sides of the cut
        exfalso
        have hd : b = d := (List.cons.inj hc).1
        have hbr : b ∈ r₁ := by
          rw [hr₁, hd]
          exact List.mem_append_right _ List.mem_cons_self
        have hdis := (List.nodup_append.mp (hr ▸ hnd)).2.2
        exact hdis b hbr b hb' rfl
  · rw [hpre]
    exact List.mem_append_left _ ha

/-- What is in front of an element is before it. -/
theorem before_of_split {l pre post : List α} {a b : α} (hl : l = pre ++ b :: post)
    (ha : a ∈ pre) : Before l a b := hl ▸ before_append ha List.mem_cons_self

/-- The order of distinct elements is transitive. -/
theorem Before.trans {l : List α} (hnd : l.Nodup) {a b c : α} (hab : Before l a b)
    (hbc : Before l b c) : Before l a c := by
  obtain ⟨X, Z, hl⟩ := List.append_of_mem hbc.mem_right
  have hb := hbc.mem_of_split hnd hl
  obtain ⟨X₁, X₂, rfl⟩ := List.append_of_mem hb
  rw [List.append_assoc, List.cons_append] at hl
  have ha := hab.mem_of_split hnd hl
  rw [hl]
  exact before_append ha (by simp)

end Axan.Base
