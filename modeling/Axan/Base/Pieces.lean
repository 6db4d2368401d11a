import Axan.Base.Text

/-!
# Texts cut at a separator

A list of pieces joined by a separator and cut again, when pieces may hold the separator and blanks
around a piece do not matter.

* `splitOn_intercalate_flatMap` — joined and cut, the pieces of all pieces.
* `splitOn_append_of_not_mem` — what is put behind a text goes to its last piece.
* `words` — the maximal runs of a class of characters.
* `map_trimBlank_splitOn_trimBlank` — trimming the whole text does not change the trimmed pieces.
-/

namespace Axan.Base

variable {α : Type} [DecidableEq α] {sep : α}

/-- **Join and cut**: every piece is cut for itself. -/
theorem splitOn_intercalate_flatMap {ls : List (List α)} (hls : ls ≠ []) :
    ([sep].intercalate ls).splitOn sep = ls.flatMap fun l => l.splitOn sep := by
  induction ls with
  | nil => exact absurd rfl hls
  | cons l ls ih =>
      cases ls with
      | nil => rw [List.intercalate_singleton, List.flatMap_singleton]
      | cons m ls =>
          rw [List.intercalate_cons_cons, List.append_assoc, List.singleton_append,
            List.splitOn_append_cons_self, ih (List.cons_ne_nil _ _),
            List.flatMap_cons (x := l)]

/-- A text without the separator behind another goes to the last piece. -/
theorem splitOn_append_of_not_mem {b : List α} (hb : sep ∉ b) (t : List α) :
    ∃ init last, t.splitOn sep = init ++ [last] ∧ (t ++ b).splitOn sep = init ++ [last ++ b] := by
  induction t with
  | nil => exact ⟨[], [], List.splitOn_nil sep, List.splitOn_eq_singleton hb⟩
  | cons c t ih =>
      obtain ⟨init, last, ht, htb⟩ := ih
      rw [List.cons_append, List.splitOn_cons_eq_if_modifyHead, ht,
        List.splitOn_cons_eq_if_modifyHead, htb]
      by_cases hc : (c == sep) = true
      · rw [if_pos hc, if_pos hc]
        exact ⟨[] :: init, last, rfl, rfl⟩
      · rw [if_neg hc, if_neg hc]
        cases init with
        | nil => exact ⟨[], c :: last, rfl, rfl⟩
        | cons p init => exact ⟨(c :: p) :: init, last, rfl, rfl⟩

section trim

variable {blank : α → Bool}

omit [DecidableEq α] in
/-- Blanks at the end do not matter. -/
theorem rdropWhile_append_of_blank {b : List α} (hb : ∀ a ∈ b, blank a = true) (l : List α) :
    (l ++ b).rdropWhile blank = l.rdropWhile blank := by
  induction b using List.reverseRecOn with
  | nil => rw [List.append_nil]
  | append_singleton b x ih =>
      rw [← List.append_assoc, List.rdropWhile_concat_pos _ _ _ (hb x (by simp))]
      exact ih fun a ha => hb a (List.mem_append_left _ ha)

omit [DecidableEq α] in
/-- Blanks around a text are trimmed away. -/
theorem trimBlank_pad {a b : List α} (ha : ∀ x ∈ a, blank x = true) (hb : ∀ x ∈ b, blank x = true)
    (s : List α) : trimBlank blank (a ++ s ++ b) = trimBlank blank s := by
  have hdrop : (a ++ s ++ b).dropWhile blank = (s ++ b).dropWhile blank := by
    rw [List.append_assoc, List.dropWhile_append_of_pos ha]
  unfold trimBlank
  rw [hdrop, List.dropWhile_append]
  split_ifs with h
  · rw [List.isEmpty_iff.mp h, List.dropWhile_eq_nil_iff.mpr hb]
  · exact rdropWhile_append_of_blank hb _

omit [DecidableEq α] in
/-- A text is what trimming leaves, with blanks around it. -/
theorem exists_trimBlank_pad (blank : α → Bool) (s : List α) :
    ∃ a b, s = a ++ trimBlank blank s ++ b ∧ (∀ x ∈ a, blank x = true) ∧
      ∀ x ∈ b, blank x = true := by
  refine ⟨s.takeWhile blank, (s.dropWhile blank).rtakeWhile blank, ?_, ?_, ?_⟩
  · unfold trimBlank
    rw [List.append_assoc, List.rdropWhile_append_rtakeWhile, List.takeWhile_append_dropWhile]
  · exact fun x hx => List.mem_takeWhile_imp hx
  · exact fun x hx => List.mem_rtakeWhile_imp hx

omit [DecidableEq α] in
/-- A string without blanks is trimmed already. -/
theorem trimBlank_eq_self {s : List α} (h : ∀ x ∈ s, blank x = false) : trimBlank blank s = s := by
  obtain ⟨a, b, hs, ha, hb⟩ := exists_trimBlank_pad blank s
  have hnil : ∀ l : List α, (∀ x ∈ l, blank x = true) → (∀ x ∈ l, x ∈ s) → l = [] := by
    intro l hl hls
    apply List.eq_nil_iff_forall_not_mem.mpr
    intro x hx
    have hblank := hl x hx
    rw [h x (hls x hx)] at hblank
    cases hblank
  have ha' : a = [] := hnil a ha fun x hx => by
    rw [hs]
    exact List.mem_append_left _ (List.mem_append_left _ hx)
  have hb' : b = [] := hnil b hb fun x hx => by
    rw [hs]
    exact List.mem_append_right _ hx
  rw [ha', hb', List.nil_append, List.append_nil] at hs
  exact hs.symm

/-- Text in front of another goes to its first piece. -/
theorem map_trimBlank_splitOn_blank_append {a : List α} (ha : ∀ x ∈ a, blank x = true)
    (hsep : sep ∉ a) (s : List α) :
    ((a ++ s).splitOn sep).map (trimBlank blank) = (s.splitOn sep).map (trimBlank blank) := by
  induction a with
  | nil => rfl
  | cons x a ih =>
      rw [List.mem_cons, not_or] at hsep
      have hx : ¬(x == sep) = true := by
        rw [beq_iff_eq]
        exact Ne.symm hsep.1
      have hblank : ∀ p : List α, trimBlank blank (x :: p) = trimBlank blank p := by
        intro p
        have h := trimBlank_pad (a := [x]) (b := []) (by simpa using ha x List.mem_cons_self)
          (by simp) p
        rwa [List.append_nil] at h
      rw [← ih (fun y hy => ha y (List.mem_cons_of_mem _ hy)) hsep.2, List.cons_append,
        List.splitOn_cons_eq_if_modifyHead, if_neg hx]
      cases (a ++ s).splitOn sep with
      | nil => rfl
      | cons p ps => rw [List.modifyHead_cons, List.map_cons, List.map_cons, hblank]

/-- **Trimming the whole text does not change the trimmed pieces.** -/
theorem map_trimBlank_splitOn_trimBlank (hsep : blank sep = false) (s : List α) :
    ((trimBlank blank s).splitOn sep).map (trimBlank blank) =
      (s.splitOn sep).map (trimBlank blank) := by
  obtain ⟨a, b, hs, ha, hb⟩ := exists_trimBlank_pad blank s
  have hmem : ∀ l : List α, (∀ x ∈ l, blank x = true) → sep ∉ l := by
    intro l hl h
    rw [hl sep h] at hsep
    cases hsep
  obtain ⟨init, last, htrim, hpad⟩ := splitOn_append_of_not_mem (hmem b hb) (trimBlank blank s)
  have hlast : trimBlank blank (last ++ b) = trimBlank blank last := by
    have h := trimBlank_pad (a := []) (by simp) hb last
    rwa [List.nil_append] at h
  have hfront := map_trimBlank_splitOn_blank_append ha (hmem a ha) (trimBlank blank s ++ b)
  rw [← List.append_assoc, ← hs, hpad] at hfront
  rw [hfront, htrim, List.map_append, List.map_append, List.map_singleton, List.map_singleton,
    hlast]

end trim

/-! ### Words -/

section words

omit [DecidableEq α]

variable (p : α → Bool)

/-- The maximal runs of elements of a class. -/
def words : List α → List (List α)
  | [] => []
  | a :: s => if p a then (a :: s.takeWhile p) :: words (s.dropWhile p) else words s
  termination_by s => s.length
  decreasing_by
    · exact Nat.lt_succ_of_le (List.dropWhile_suffix p).length_le
    · exact Nat.lt_succ_self _

variable {p}

theorem words_of_pos {a : α} (h : p a = true) (s : List α) :
    words p (a :: s) = (a :: s.takeWhile p) :: words p (s.dropWhile p) := by
  rw [words, if_pos h]

theorem words_of_neg {a : α} (h : ¬ p a = true) (s : List α) : words p (a :: s) = words p s := by
  rw [words, if_neg h]

/-- The words hold all the elements of the class, and no other. -/
theorem flatten_words (s : List α) : (words p s).flatten = s.filter p := by
  induction s using words.induct p with
  | case1 => rw [words]; rfl
  | case2 a s h ih =>
      have hrun : (s.takeWhile p).filter p = s.takeWhile p :=
        List.filter_eq_self.mpr fun b hb => List.mem_takeWhile_imp hb
      rw [words_of_pos h, List.flatten_cons, ih, List.filter_cons_of_pos h, List.cons_append]
      nth_rewrite 3 [← List.takeWhile_append_dropWhile (p := p) (l := s)]
      rw [List.filter_append, hrun]
  | case3 a s h ih => rw [words_of_neg h, ih, List.filter_cons_of_neg h]

theorem ne_nil_of_mem_words {s w : List α} (hw : w ∈ words p s) : w ≠ [] := by
  induction s using words.induct p with
  | case1 => rw [words] at hw; cases hw
  | case2 a s h ih =>
      rw [words_of_pos h] at hw
      obtain rfl | hw := List.mem_cons.mp hw
      · exact List.cons_ne_nil _ _
      · exact ih hw
  | case3 a s h ih =>
      rw [words_of_neg h] at hw
      exact ih hw

/-- The characters of a word are of the string, and of the kind. -/
theorem mem_of_mem_words {s w : List α} (hw : w ∈ words p s) {a : α} (ha : a ∈ w) :
    a ∈ s ∧ p a = true := by
  have hmem : a ∈ (words p s).flatten := List.mem_flatten.mpr ⟨w, hw, ha⟩
  rwa [flatten_words, List.mem_filter] at hmem

/-- There is no word when no character is of the kind. -/
theorem words_eq_nil_iff {s : List α} : words p s = [] ↔ ∀ a ∈ s, p a = false := by
  constructor
  · intro h a ha
    by_contra hp
    have hmem : a ∈ (words p s).flatten := by
      rw [flatten_words]
      exact List.mem_filter.mpr ⟨ha, Bool.eq_true_of_not_eq_false hp⟩
    rw [h] at hmem
    cases hmem
  · intro h
    by_contra hne
    obtain ⟨w, hw⟩ := List.exists_mem_of_ne_nil _ hne
    obtain ⟨a, ha⟩ := List.exists_mem_of_ne_nil _ (ne_nil_of_mem_words hw)
    obtain ⟨hs, hp⟩ := mem_of_mem_words hw ha
    rw [h a hs] at hp
    cases hp

/-- A run depends on the kinds of the characters only. -/
theorem run_congr {q : α → Bool} {s : List α} (h : ∀ a ∈ s, p a = q a) :
    s.takeWhile p = s.takeWhile q ∧ s.dropWhile p = s.dropWhile q := by
  induction s with
  | nil => exact ⟨rfl, rfl⟩
  | cons a s ih =>
      obtain ⟨htake, hdrop⟩ := ih fun b hb => h b (List.mem_cons_of_mem _ hb)
      rw [List.takeWhile_cons, List.takeWhile_cons, List.dropWhile_cons, List.dropWhile_cons,
        h a List.mem_cons_self, htake, hdrop]
      exact ⟨rfl, rfl⟩

theorem words_congr {q : α → Bool} {s : List α} (h : ∀ a ∈ s, p a = q a) :
    words p s = words q s := by
  induction s using words.induct p with
  | case1 => rw [words, words]
  | case2 a s hp ih =>
      have hs : ∀ b ∈ s, p b = q b := fun b hb => h b (List.mem_cons_of_mem _ hb)
      obtain ⟨htake, hdrop⟩ := run_congr hs
      rw [words_of_pos hp, words_of_pos ((h a List.mem_cons_self).symm.trans hp), htake,
        ih fun b hb => hs b ((List.dropWhile_suffix p).subset hb), hdrop]
  | case3 a s hp ih =>
      rw [words_of_neg hp, words_of_neg (h a List.mem_cons_self ▸ hp),
        ih fun b hb => h b (List.mem_cons_of_mem _ hb)]

end words

end Axan.Base
