import Axan.Base.Utf8

/-!
# C strings in memory

A pointer is the memory from there on, a list of bytes. A read at its end is a read past what is
allocated: the functions have no result then. A text in memory is followed by a zero, and anything.

* `scanWhile`, `strchr`, `strstr` — the loops that stop at the zero.
* `IsFirst` — the first occurrence: the longest suffix that starts with it.
* `scanWhile_text`, `strchr_text`, `strstr_text` — on a text in memory they stay in it, and find
  what they should.
-/

namespace Axan.Base

namespace CString

/-- `while (*p && q (*p)) p++` -/
def scanWhile (q : ℕ → Bool) : List ℕ → Option (List ℕ)
  | [] => none
  | c :: p => if c ≠ 0 && q c then scanWhile q p else some (c :: p)

/-- No result stands for the null pointer. Source: `strchr` -/
def strchr (c : ℕ) : List ℕ → Option (List ℕ)
  | [] => none
  | d :: p => if d = c then some (d :: p) else if d = 0 then none else strchr c p

/-- No result stands for the null pointer. Source: `strstr` -/
def strstr (needle : List ℕ) : List ℕ → Option (List ℕ)
  | [] => none
  | d :: p =>
      if needle.isPrefixOf (d :: p) then some (d :: p) else if d = 0 then none else strstr needle p

/-- The first occurrence of a needle in a text, and what follows it. -/
structure IsFirst (needle s t : List ℕ) : Prop where
  suffix : t <:+ s
  starts : needle <+: t
  longest : ∀ t', t' <:+ s → needle <+: t' → t' <:+ t

/-- A byte string ends at its first zero. -/
def text (contents : List ℕ) : ByteString := contents.takeWhile (· ≠ 0)

/-- The text of a string ends before the first NUL. -/
theorem zero_not_mem_text (contents : List ℕ) : 0 ∉ text contents := by
  intro h
  have hne := List.mem_takeWhile_imp (p := fun c => decide (c ≠ 0)) h
  exact of_decide_eq_true hne rfl

/-- A byte string with a zero put behind it: its text, a zero, and what is left. -/
theorem exists_memory (contents : List ℕ) : ∃ m, contents ++ [0] = text contents ++ 0 :: m := by
  cases h : contents.dropWhile (· ≠ 0) with
  | nil =>
      refine ⟨[], ?_⟩
      rw [text, List.takeWhile_eq_self_iff.mpr (List.dropWhile_eq_nil_iff.mp h)]
  | cons d rest =>
      obtain rfl : d = 0 := by
        have hhead := List.head?_dropWhile_not (fun c => decide (c ≠ 0)) contents
        rw [h] at hhead
        simpa using hhead
      refine ⟨rest ++ [0], ?_⟩
      rw [text, ← List.cons_append, ← List.append_assoc, ← h, List.takeWhile_append_dropWhile]

/-! ### The loops stay in the text -/

variable {s m : List ℕ}

/-- A scan over a text stops at its NUL at the latest. -/
theorem scanWhile_text (q : ℕ → Bool) (hs : 0 ∉ s) :
    scanWhile q (s ++ 0 :: m) = some (s.dropWhile q ++ 0 :: m) := by
  induction s with
  | nil => rfl
  | cons c s ih =>
      have hc : c ≠ 0 := fun heq => hs (heq ▸ List.mem_cons_self)
      rw [List.cons_append, scanWhile]
      cases hq : q c with
      | true =>
          rw [if_pos (by simp [hc]), ih fun h => hs (List.mem_cons_of_mem _ h),
            List.dropWhile_cons_of_pos hq]
      | false =>
          rw [if_neg (by simp), List.dropWhile_cons_of_neg (by simp [hq])]
          rfl

/-- The part of a text in front of which there is no needle. -/
theorem IsFirst.cons {needle t : List ℕ} {c : ℕ} (h : IsFirst needle s t)
    (hnot : ¬ needle <+: c :: s) : IsFirst needle (c :: s) t where
  suffix := h.suffix.trans (List.suffix_cons c s)
  starts := h.starts
  longest := by
    intro t' ht' hstarts
    rcases List.suffix_cons_iff.mp ht' with rfl | ht'
    · exact absurd hstarts hnot
    · exact h.longest t' ht' hstarts

/-- A string at the front is its first occurrence. -/
theorem IsFirst.self {needle : List ℕ} (h : needle <+: s) : IsFirst needle s s where
  suffix := List.suffix_rfl
  starts := h
  longest := fun _ ht' _ => ht'

/-- A needle without a zero is not found over the end of the text. -/
theorem prefix_text_iff {needle : List ℕ} (hneedle : 0 ∉ needle) :
    needle <+: s ++ 0 :: m ↔ needle <+: s := by
  refine ⟨fun h => ?_, fun h => h.trans (List.prefix_append _ _)⟩
  rcases Nat.lt_or_ge s.length needle.length with hlt | hge
  · have hover : s ++ [0] <+: needle := by
      refine List.prefix_of_prefix_length_le ⟨m, by simp⟩ h ?_
      rwa [List.length_append, List.length_singleton]
    exact absurd (hover.mem (by simp)) hneedle
  · exact List.prefix_of_prefix_length_le h (List.prefix_append _ _) hge

/-- The first occurrence is found. -/
theorem strstr_text {needle : List ℕ} (hne : needle ≠ []) (hneedle : 0 ∉ needle) (hs : 0 ∉ s) :
    (¬ needle <:+: s ∧ strstr needle (s ++ 0 :: m) = none) ∨
      ∃ t, IsFirst needle s t ∧ strstr needle (s ++ 0 :: m) = some (t ++ 0 :: m) := by
  induction s with
  | nil =>
      refine Or.inl ⟨fun h => hne (List.infix_nil.mp h), ?_⟩
      rw [List.nil_append, strstr, if_neg, if_pos rfl]
      rw [List.isPrefixOf_iff_prefix]
      intro h
      have hnil := (prefix_text_iff (s := []) hneedle).mp h
      exact hne (List.prefix_nil.mp hnil)
  | cons c s ih =>
      have hc : c ≠ 0 := fun heq => hs (heq ▸ List.mem_cons_self)
      rw [List.cons_append, strstr]
      by_cases hfound : needle <+: c :: s
      · refine Or.inr ⟨c :: s, IsFirst.self hfound, ?_⟩
        rw [if_pos, List.cons_append]
        rw [List.isPrefixOf_iff_prefix, ← List.cons_append]
        exact (prefix_text_iff hneedle).mpr hfound
      · have hnot : ¬ needle.isPrefixOf (c :: (s ++ 0 :: m)) = true := by
          rw [List.isPrefixOf_iff_prefix, ← List.cons_append]
          exact fun h => hfound ((prefix_text_iff hneedle).mp h)
        rw [if_neg hnot, if_neg hc]
        rcases ih fun h => hs (List.mem_cons_of_mem _ h) with ⟨hnone, heq⟩ | ⟨t, hfirst, heq⟩
        · refine Or.inl ⟨fun h => ?_, heq⟩
          rcases List.infix_cons_iff.mp h with h | h
          · exact hfound h
          · exact hnone h
        · exact Or.inr ⟨t, hfirst.cons hfound, heq⟩

/-- Searching a character is searching the string of it. -/
theorem strchr_eq_strstr (c : ℕ) (p : List ℕ) : strchr c p = strstr [c] p := by
  induction p with
  | nil => rfl
  | cons d p ih =>
      have hstart : [c].isPrefixOf (d :: p) = true ↔ d = c := by
        rw [List.isPrefixOf_iff_prefix, List.cons_prefix_cons]
        simp [eq_comm]
      rw [strchr, strstr, ih]
      simp only [hstart]

/-- The search finds the first occurrence in the text, or there is none. -/
theorem strchr_text {c : ℕ} (hc : c ≠ 0) (hs : 0 ∉ s) :
    (c ∉ s ∧ strchr c (s ++ 0 :: m) = none) ∨
      ∃ t, IsFirst [c] s t ∧ strchr c (s ++ 0 :: m) = some (t ++ 0 :: m) := by
  rw [strchr_eq_strstr]
  have hspec := strstr_text (m := m) (List.cons_ne_nil c []) (by simpa using hc.symm) hs
  rwa [List.singleton_infix_iff] at hspec

/-! ### Where the first occurrence is -/

/-- There is one first occurrence. -/
theorem IsFirst.unique {needle t t' : List ℕ} (h : IsFirst needle s t) (h' : IsFirst needle s t') :
    t = t' :=
  List.IsSuffix.eq_of_length_le (h'.longest t h.suffix h.starts)
    (h.longest t' h'.suffix h'.starts).length_le

/-- A needle that does not start earlier. -/
theorem isFirst_append {needle a : List ℕ} (r : List ℕ)
    (h : ∀ i < a.length, ¬ needle <+: (a ++ needle).drop i) :
    IsFirst needle (a ++ (needle ++ r)) (needle ++ r) := by
  induction a with
  | nil => exact IsFirst.self (List.prefix_append _ _)
  | cons c a ih =>
      have hrest : ∀ i < a.length, ¬ needle <+: (a ++ needle).drop i := by
        intro i hi
        exact h (i + 1) (by simpa using hi)
      refine (ih hrest).cons fun hnow => h 0 (by simp) ?_
      refine List.prefix_of_prefix_length_le hnow ⟨r, by simp⟩ ?_
      rw [List.drop_zero, List.length_append]
      omega

end CString

end Axan.Base
