import Mathlib

/-!
# Searching along a step

A loop that looks at an element, returns it when it is what it looks for, gives up at the elements
it is told to stop at, and steps on otherwise. Whether it ends is not clear: the step may have
fixed points, and cycles, of its own.

* `searchUp` — the loop, for a number of rounds; no result while it has not ended.
* `Visited` — the elements the loop may look at, by the number of steps.
* `searchUp_eq_some_iff` — what it ends with: the first visited element that is looked for, or
  nothing at the first stop.
* `exists_searchUp_iff` — it ends exactly when a stop is reached or something is found.
-/

namespace Axan.Base

variable {α : Type} (stop found : α → Bool) (next : α → α)

/-- The loop, for a number of rounds. -/
def searchUp : ℕ → α → Option (Option α)
  | 0, _ => none
  | n + 1, cur =>
      if stop cur then some none
      else if found cur then some (some cur)
      else searchUp n (next cur)

/-- The element after `k` steps, when no stop is met up to it. -/
def Visited (start : α) (k : ℕ) (x : α) : Prop :=
  next^[k] start = x ∧ ∀ j ≤ k, stop (next^[j] start) = false

/-- What the loop is for: the first visited element that is looked for, or nothing when no visited
element is. -/
def IsNearest (start : α) : Option α → Prop
  | some x => ∃ k, Visited stop next start k x ∧ found x = true ∧
      ∀ j < k, ∀ y, Visited stop next start j y → found y = false
  | none => ∀ k x, Visited stop next start k x → found x = false

variable {stop found next}

/-- The first place is the start. -/
theorem Visited.zero {start : α} (h : stop start = false) : Visited stop next start 0 start :=
  ⟨rfl, fun j hj => by rw [Nat.le_zero.mp hj]; exact h⟩

/-- A step more in front. -/
theorem visited_succ {start x : α} {k : ℕ} :
    Visited stop next start (k + 1) x ↔ stop start = false ∧ Visited stop next (next start) k x := by
  unfold Visited
  constructor
  · rintro ⟨hx, hstop⟩
    exact ⟨hstop 0 (Nat.zero_le _), hx, fun j hj => hstop (j + 1) (Nat.succ_le_succ hj)⟩
  · rintro ⟨h0, hx, hstop⟩
    refine ⟨hx, fun j hj => ?_⟩
    cases j with
    | zero => exact h0
    | succ j => exact hstop j (Nat.le_of_succ_le_succ hj)

/-- When a place is visited, the walk did not stop at the start. -/
theorem Visited.start {start x : α} {k : ℕ} (h : Visited stop next start k x) :
    stop start = false := h.2 0 (Nat.zero_le k)

/-- The loop returns the nearest element, whenever it ends. -/
theorem isNearest_of_searchUp {n : ℕ} {start : α} {r : Option α}
    (h : searchUp stop found next n start = some r) : IsNearest stop found next start r := by
  induction n generalizing start with
  | zero => cases h
  | succ n ih =>
      unfold searchUp at h
      split_ifs at h with hstop hfound
      · -- nothing is visited from a stop
        cases h
        intro k x hx
        exact absurd (hx.start.symm.trans hstop) Bool.false_ne_true
      · cases h
        exact ⟨0, .zero (Bool.eq_false_of_not_eq_true hstop), hfound,
          fun j hj => absurd hj (Nat.not_lt_zero j)⟩
      · have hstart : found start = false := Bool.eq_false_of_not_eq_true hfound
        have hnear := ih h
        cases r with
        | none =>
            intro k x hx
            cases k with
            | zero => rw [← hx.1]; exact hstart
            | succ k => exact hnear k x (visited_succ.mp hx).2
        | some d =>
            obtain ⟨k, hk, hd, hbefore⟩ := hnear
            refine ⟨k + 1, visited_succ.mpr ⟨Bool.eq_false_of_not_eq_true hstop, hk⟩, hd, ?_⟩
            intro j hj y hy
            cases j with
            | zero => rw [← hy.1]; exact hstart
            | succ j => exact hbefore j (Nat.lt_of_succ_lt_succ hj) y (visited_succ.mp hy).2

/-- The loop ends exactly when a stop is reached or something is found on the way. -/
theorem exists_searchUp_iff {start : α} :
    (∃ n r, searchUp stop found next n start = some r) ↔
      (∃ k, stop (next^[k] start) = true) ∨ ∃ k x, Visited stop next start k x ∧ found x = true := by
  constructor
  · rintro ⟨n, r, h⟩
    induction n generalizing start with
    | zero => cases h
    | succ n ih =>
        unfold searchUp at h
        split_ifs at h with hstop hfound
        · exact Or.inl ⟨0, hstop⟩
        · exact Or.inr ⟨0, start, .zero (Bool.eq_false_of_not_eq_true hstop), hfound⟩
        · obtain ⟨k, hk⟩ | ⟨k, x, hx, hfx⟩ := ih h
          · exact Or.inl ⟨k + 1, hk⟩
          · exact Or.inr
              ⟨k + 1, x, visited_succ.mpr ⟨Bool.eq_false_of_not_eq_true hstop, hx⟩, hfx⟩
  · intro h
    -- some round leaves the loop
    have hend : ∃ k, stop (next^[k] start) = true ∨ found (next^[k] start) = true := by
      obtain ⟨k, hk⟩ | ⟨k, x, hx, hfx⟩ := h
      · exact ⟨k, Or.inl hk⟩
      · exact ⟨k, Or.inr (by rw [hx.1]; exact hfx)⟩
    obtain ⟨k, hk⟩ := hend
    refine ⟨k + 1, ?_⟩
    clear h
    induction k generalizing start with
    | zero =>
        unfold searchUp
        split_ifs with hstop hfound
        · exact ⟨none, rfl⟩
        · exact ⟨some start, rfl⟩
        · exact absurd hk (not_or.mpr ⟨hstop, hfound⟩)
    | succ k ih =>
        unfold searchUp
        split_ifs with hstop hfound
        · exact ⟨none, rfl⟩
        · exact ⟨some start, rfl⟩
        · exact ih hk

end Axan.Base
