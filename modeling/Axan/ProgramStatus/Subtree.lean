import Axan.ProgramStatus.Store

/-!
# Clearing a subtree: the early end of the scan

`state=clear` with an id walks the ordered records from the lower bound of the id. A record that
only shares the prefix (`a-b` sorts between `a` and `a/b`) is passed over, and the walk ends at the
first record without the prefix. No record after that one has the prefix, so none is missed.

* `prefix_of_lt` — a text between two texts with a common prefix has that prefix.
* `isInSubtree_iff` — the test of the scan as an equation between texts.
* `clearScan_eq_filter`, `entries_clearSubtree` — the scan, and the records it leaves.
* `programStatusReport_clear` — what a report with `state=clear` does to a store.
-/

namespace Axan.ProgramStatus

open Axan.Base

/-- A text not below `a` that is below a text with the prefix `a` has it too. -/
theorem prefix_of_lt {a k k' : WString} (hle : ¬k < a) (hlt : k < k') (h : a <+: k') : a <+: k := by
  induction a generalizing k k' with
  | nil => exact List.nil_prefix
  | cons c a ih =>
      obtain ⟨t, rfl⟩ := h
      cases k with
      | nil => exact absurd (List.nil_lt_cons c a) hle
      | cons d k =>
          rw [List.cons_lt_cons_iff] at hle
          rw [List.cons_append, List.cons_lt_cons_iff] at hlt
          push Not at hle
          have hcd : c = d := by
            rcases hlt with hlt | ⟨heq, -⟩
            · exact absurd hlt (not_lt.mpr hle.1)
            · exact heq.symm
          subst hcd
          have hlt' : k < a ++ t := by
            rcases hlt with hlt | ⟨-, hlt⟩
            · exact absurd hlt (lt_irrefl _)
            · exact hlt
          have := ih (not_lt.mpr (hle.2 rfl)) hlt' (List.prefix_append a t)
          exact List.cons_prefix_cons.mpr ⟨rfl, this⟩

/-- A text with the prefix `a` is not below it. -/
theorem not_lt_of_prefix {a k : WString} (h : a <+: k) : ¬k < a := by
  induction a generalizing k with
  | nil => exact List.not_lt_nil k
  | cons c a ih =>
      obtain ⟨t, rfl⟩ := h
      rw [List.cons_append, List.cons_lt_cons_iff]
      rintro (hlt | ⟨-, hlt⟩)
      · exact lt_irrefl _ hlt
      · exact ih (List.prefix_append a t) hlt

/-- The second test of the scan: the key has the id as a prefix. -/
theorem sharesPrefix_iff {key id : WString} :
    (key.length ≥ id.length && key.take id.length = id) = true ↔ id <+: key := by
  rw [Bool.and_eq_true, decide_eq_true_eq, decide_eq_true_eq]
  constructor
  · rintro ⟨-, h⟩
    exact List.prefix_iff_eq_take.mpr h.symm
  · intro h
    exact ⟨h.length_le, (List.prefix_iff_eq_take.mp h).symm⟩

/-- The first test of the scan: the key is the id or continues it with a slash. -/
theorem isInSubtree_iff {key id : WString} :
    isInSubtree key id = true ↔ key = id ∨ id ++ [wide '/'] <+: key := by
  unfold isInSubtree
  rw [Bool.and_eq_true, sharesPrefix_iff, Bool.or_eq_true, decide_eq_true_eq, decide_eq_true_eq]
  constructor
  · rintro ⟨⟨t, rfl⟩, h⟩
    cases t with
    | nil => exact Or.inl (List.append_nil id)
    | cons c t =>
        have hc : c = wide '/' := by simpa using h
        exact Or.inr ⟨t, by rw [hc, List.append_assoc]; rfl⟩
  · rintro (rfl | ⟨t, rfl⟩)
    · exact ⟨List.prefix_refl _, Or.inl rfl⟩
    · rw [List.append_assoc]
      exact ⟨List.prefix_append _ _, Or.inr (by simp)⟩

/-- An id below another begins with it. -/
theorem prefix_of_isInSubtree {key id : WString} (h : isInSubtree key id = true) : id <+: key := by
  unfold isInSubtree at h
  rw [Bool.and_eq_true] at h
  exact sharesPrefix_iff.mp h.1

/-- From the lower bound on, the scan removes the subtree. -/
theorem clearScan_eq_filter {id : WString} {l : List (WString × ProgramStatusRecord)}
    (hsorted : l.Pairwise fun a b => a.1 < b.1) (hbound : ∀ e ∈ l, ¬e.1 < id) :
    clearScan id l = l.filter fun e => !isInSubtree e.1 id := by
  induction l with
  | nil => rfl
  | cons e rest ih =>
      rw [List.pairwise_cons] at hsorted
      have hrest := ih hsorted.2 fun e' he' => hbound e' (List.mem_cons_of_mem _ he')
      rw [clearScan]
      split_ifs with hin hshare
      · rw [List.filter_cons_of_neg (by simp [hin]), hrest]
      · rw [List.filter_cons_of_pos (by simp [hin]), hrest]
      · -- the prefix is gone, and with it the subtree
        have hnone : ∀ e' ∈ e :: rest, (!isInSubtree e'.1 id) = true := by
          intro e' he'
          rcases List.mem_cons.mp he' with rfl | he'
          · simpa using hin
          · rw [Bool.not_eq_true']
            by_contra hsub
            have hprefix := prefix_of_isInSubtree (Bool.not_eq_false _ ▸ hsub)
            exact hshare (sharesPrefix_iff.mpr
              (prefix_of_lt (hbound e List.mem_cons_self) (hsorted.1 e' he') hprefix))
        exact (List.filter_eq_self.mpr hnone).symm

/-- What is left after the keys below a bound is not below it. -/
theorem not_lt_of_mem_dropWhile {l : List (WString × ProgramStatusRecord)} {id : WString}
    (hsorted : l.Pairwise fun a b => a.1 < b.1) :
    ∀ e ∈ l.dropWhile fun e => e.1 < id, ¬e.1 < id := by
  intro e he
  have hdrop := hsorted.sublist (List.dropWhile_sublist fun e => decide (e.1 < id))
  cases hl : l.dropWhile fun e => e.1 < id with
  | nil => rw [hl] at he; cases he
  | cons h t =>
      have hhead : ¬h.1 < id := by
        have := List.head?_dropWhile_not (fun e => decide (e.1 < id)) l
        rw [hl] at this
        simpa using this
      rw [hl] at he hdrop
      rcases List.mem_cons.mp he with rfl | he
      · exact hhead
      · exact fun hlt => hhead (((List.pairwise_cons.mp hdrop).1 e he).trans hlt)

/-- A subtree clear leaves exactly the records outside the subtree. -/
theorem entries_clearSubtree (records : Records) (id : WString) :
    (clearSubtree records id).entries = records.entries.filter fun e => !isInSubtree e.1 id := by
  have hlow : ∀ e ∈ records.entries.takeWhile fun e => e.1 < id,
      (!isInSubtree e.1 id) = true := by
    intro e he
    have hlt : e.1 < id := by simpa using List.mem_takeWhile_imp he
    rw [Bool.not_eq_true']
    by_contra hsub
    exact not_lt_of_prefix (prefix_of_isInSubtree (Bool.not_eq_false _ ▸ hsub)) hlt
  have hscan := clearScan_eq_filter
    (records.sorted.sublist (List.dropWhile_sublist fun e => decide (e.1 < id)))
    (not_lt_of_mem_dropWhile records.sorted)
  conv_rhs => rw [← List.takeWhile_append_dropWhile (p := fun e => decide (e.1 < id))
    (l := records.entries)]
  rw [List.filter_append, List.filter_eq_self.mpr hlow, ← hscan]
  rfl

/-- **A report with `state=clear`**: with an id it removes the record of that id and the records
under it and no other, without one it removes all.
Source: `program-status-osc-7501.md` section 3 -/
theorem programStatusReport_clear {s : Store} (hon : s.enabled = true) {report : Report}
    (hclear : report.state = .clear) (skipped : ℕ) :
    (s.programStatusReport (.report report skipped)).records.entries =
      if report.id = [] then []
      else s.records.entries.filter fun e =>
        ¬(e.1 = report.id ∨ report.id ++ [wide '/'] <+: e.1) := by
  have hrun : s.programStatusReport (.report report skipped) = (s.clear report.id).notify := by
    simp [Store.programStatusReport, hon, hclear]
  rw [hrun, Store.notify_records]
  unfold Store.clear
  by_cases hid : report.id = []
  · rw [if_pos hid, hid]
    rfl
  · rw [if_neg hid]
    have hne : report.id.isEmpty = false := by simpa using hid
    simp only [hne, Bool.false_eq_true, if_false, entries_clearSubtree]
    apply List.filter_congr
    intro e _
    rw [Bool.eq_iff_iff, decide_eq_true_eq, ← isInSubtree_iff]
    simp

/-- Records on both sides of the subtree of `a`. -/
def aroundA : Store :=
  { Store.empty 7 true false with
    records := ⟨[[], L "a", L "a-b", L "a.b", L "a/b", L "ab"].map fun id =>
      (id, recordOf { id := id } 1), by decide⟩ }

theorem programStatusReport_clear_aroundA :
    (aroundA.programStatusReport (.report { id := L "a", state := .clear } 0)).records.entries =
      if L "a" = [] then []
      else aroundA.records.entries.filter fun e =>
        ¬(e.1 = L "a" ∨ L "a" ++ [wide '/'] <+: e.1) :=
  programStatusReport_clear rfl rfl 0

/-- What stays sorts on both sides of what goes. -/
example : (aroundA.programStatusReport
    (.report { id := L "a", state := .clear } 0)).records.entries.map Prod.fst =
      [[], L "a-b", L "a.b", L "ab"] := by
  decide

end Axan.ProgramStatus
