import Mathlib

/-!
# The first maximum of a list

A loop that keeps the best element so far and replaces it only by a strictly better one ends with
the first of the maximal elements.

* `firstMax` — the loop.
* `firstMax_split` — what it returns: everything before is smaller, nothing behind is larger.
* `firstMax_map`, `firstMax_perm` — the loop over images, and over the elements in another order.
* `exists_firstMax_iff` — the loop ends in a property when every element without it is outranked.
-/

namespace Axan.Base

variable {α κ : Type} [LinearOrder κ] (key : α → κ)

/-- One round: replace the best so far by a strictly better element. -/
def keepMax (best : Option α) (x : α) : Option α :=
  match best with
  | none => some x
  | some y => if key y < key x then some x else some y

/-- The loop over a list. -/
def firstMax (l : List α) : Option α := l.foldl (keepMax key) none

/-- The loop takes the last element last. -/
theorem firstMax_append_singleton (l : List α) (x : α) :
    firstMax key (l ++ [x]) = keepMax key (firstMax key l) x := by
  simp [firstMax]

/-- The loop when it passes over some elements. -/
theorem firstMax_filter_append_singleton (p : α → Bool) (l : List α) (x : α) :
    firstMax key ((l ++ [x]).filter p) =
      if p x then keepMax key (firstMax key (l.filter p)) x else firstMax key (l.filter p) := by
  rw [List.filter_append]
  cases h : p x with
  | true =>
      rw [List.filter_cons_of_pos h, List.filter_nil, firstMax_append_singleton, if_pos rfl]
  | false =>
      rw [List.filter_cons_of_neg (ne_true_of_eq_false h), List.filter_nil, List.append_nil,
        if_neg Bool.false_ne_true]

/-- The loop returns nothing for an empty list only. -/
theorem firstMax_eq_none_iff (l : List α) : firstMax key l = none ↔ l = [] := by
  induction l using List.reverseRecOn with
  | nil => simp [firstMax]
  | append_singleton l x ih =>
      rw [firstMax_append_singleton]
      cases firstMax key l with
      | none => simp [keepMax]
      | some y =>
          simp only [keepMax]
          split_ifs <;> simp

/-- What the loop returns is the first maximum. -/
theorem firstMax_split {l : List α} {m : α} (h : firstMax key l = some m) :
    ∃ pre post, l = pre ++ m :: post ∧ (∀ x ∈ pre, key x < key m) ∧
      ∀ x ∈ post, key x ≤ key m := by
  induction l using List.reverseRecOn generalizing m with
  | nil => cases h
  | append_singleton l x ih =>
      rw [firstMax_append_singleton] at h
      cases hl : firstMax key l with
      | none =>
          rw [hl] at h
          obtain rfl : x = m := Option.some.inj h
          rw [(firstMax_eq_none_iff key l).mp hl]
          exact ⟨[], [], rfl, by simp, by simp⟩
      | some y =>
          rw [hl] at h
          obtain ⟨pre, post, rfl, hpre, hpost⟩ := ih hl
          simp only [keepMax] at h
          split_ifs at h with hlt
          · obtain rfl : x = m := Option.some.inj h
            refine ⟨pre ++ y :: post, [], rfl, fun z hz => ?_, by simp⟩
            rcases List.mem_append.mp hz with hz | hz
            · exact (hpre z hz).trans hlt
            · rcases List.mem_cons.mp hz with rfl | hz
              · exact hlt
              · exact lt_of_le_of_lt (hpost z hz) hlt
          · obtain rfl : y = m := Option.some.inj h
            refine ⟨pre, post ++ [x], by simp, hpre, fun z hz => ?_⟩
            rcases List.mem_append.mp hz with hz | hz
            · exact hpost z hz
            · rw [List.mem_singleton.mp hz]
              exact not_lt.mp hlt

/-- What is returned is an element. -/
theorem firstMax_mem {l : List α} {m : α} (h : firstMax key l = some m) : m ∈ l := by
  obtain ⟨pre, post, rfl, -, -⟩ := firstMax_split key h
  simp

/-- No element is larger than the one returned. -/
theorem le_firstMax {l : List α} {m : α} (h : firstMax key l = some m) {x : α} (hx : x ∈ l) :
    key x ≤ key m := by
  obtain ⟨pre, post, rfl, hpre, hpost⟩ := firstMax_split key h
  rcases List.mem_append.mp hx with hx | hx
  · exact (hpre x hx).le
  · rcases List.mem_cons.mp hx with rfl | hx
    · exact le_rfl
    · exact hpost x hx

/-- A loop that reads its elements through `g`. -/
theorem firstMax_map {β : Type} (g : β → α) (l : List β) :
    firstMax key (l.map g) = (firstMax (fun x => key (g x)) l).map g := by
  induction l using List.reverseRecOn with
  | nil => rfl
  | append_singleton l x ih =>
      rw [List.map_append, List.map_singleton, firstMax_append_singleton, firstMax_append_singleton,
        ih]
      cases firstMax (fun x => key (g x)) l with
      | none => rfl
      | some y =>
          simp only [Option.map_some, keepMax]
          split_ifs <;> rfl

/-- What is read of the maximum does not depend on the order, when elements of one key read the
same. -/
theorem firstMax_perm {β : Type} {f : α → β} {l l' : List α} (hperm : l.Perm l')
    (hf : ∀ x ∈ l, ∀ y ∈ l, key x = key y → f x = f y) :
    (firstMax key l).map f = (firstMax key l').map f := by
  cases h : firstMax key l with
  | none =>
      rw [firstMax_eq_none_iff] at h
      subst h
      rw [hperm.symm.eq_nil]
      rfl
  | some m =>
      cases h' : firstMax key l' with
      | none =>
          rw [firstMax_eq_none_iff] at h'
          subst h'
          rw [hperm.eq_nil] at h
          cases h
      | some m' =>
          have hm : m ∈ l := firstMax_mem key h
          have hm' : m' ∈ l := hperm.symm.subset (firstMax_mem key h')
          have hle : key m ≤ key m' := le_firstMax key h' (hperm.subset hm)
          have hge : key m' ≤ key m := le_firstMax key h hm'
          exact congrArg some (hf m hm m' hm' (le_antisymm hle hge))

/-- The maximum has a property exactly when every element without it is outranked by one with it:
by a larger one, or by an equal one in front. -/
theorem exists_firstMax_iff {l : List α} (hne : l ≠ []) (P : α → Prop) :
    (∃ m, firstMax key l = some m ∧ P m) ↔ ∀ a x b, l = a ++ x :: b → ¬P x →
      ∃ y, P y ∧ (y ∈ a ∧ key x ≤ key y ∨ y ∈ b ∧ key x < key y) := by
  constructor
  · rintro ⟨m, hm, hPm⟩ a x b hl hx
    obtain ⟨pre, post, hsplit, hpre, -⟩ := firstMax_split key hm
    have hne : x ≠ m := fun heq => hx (heq ▸ hPm)
    rw [hl] at hsplit
    refine ⟨m, hPm, ?_⟩
    rcases List.append_eq_append_iff.mp hsplit with ⟨c, hc, hcc⟩ | ⟨c, hc, hcc⟩
    · -- `x` is in front of the maximum
      cases c with
      | nil => exact absurd (List.cons.inj hcc).1 hne
      | cons y c =>
          obtain ⟨rfl, rfl⟩ := List.cons.inj hcc
          exact Or.inr ⟨by simp, hpre x (by simp [hc])⟩
    · cases c with
      | nil => exact absurd (List.cons.inj hcc).1.symm hne
      | cons y c =>
          obtain ⟨rfl, -⟩ := List.cons.inj hcc
          exact Or.inl ⟨by simp [hc], le_firstMax key hm (by simp [hl])⟩
  · intro hall
    cases hm : firstMax key l with
    | none => exact absurd ((firstMax_eq_none_iff key l).mp hm) hne
    | some m =>
        refine ⟨m, rfl, ?_⟩
        obtain ⟨pre, post, hl, hpre, hpost⟩ := firstMax_split key hm
        by_contra hPm
        obtain ⟨y, -, ⟨hy, hle⟩ | ⟨hy, hlt⟩⟩ := hall pre m post hl hPm
        · exact absurd hle (not_le.mpr (hpre y hy))
        · exact absurd hlt (not_lt.mpr (hpost y hy))

end Axan.Base
