import Axan.Base.Text

/-!
# From UTF-16 to texts

The converse of `utf16`. A wide text may hold a surrogate that is no half of a pair; its character
is the replacement character.

* `utf16Decode` — the text of a wide text.
* `utf16Decode_utf16` — a text comes back.
* `utf16_utf16Decode` — a wide text comes back when no surrogate was replaced.
-/

namespace Axan.Base

/-- The first half of a surrogate pair. -/
def isHigh (u : WChar) : Bool := 0xD800 ≤ u.val && u.val < 0xDC00

/-- The second half of a surrogate pair. -/
def isLow (u : WChar) : Bool := 0xDC00 ≤ u.val && u.val < 0xE000

/-- U+FFFD -/
def replacement : Char := Char.ofNat 0xFFFD

/-- The character of a unit that is in no pair. -/
def charOfUnit (u : WChar) : Char :=
  if isHigh u || isLow u then replacement else Char.ofNat u.val

/-- The character of a pair. -/
def charOfPair (u v : WChar) : Char :=
  Char.ofNat (0x10000 + (u.val - 0xD800) * 0x400 + (v.val - 0xDC00))

/-- The UTF-8 form of a wide text (`WideCharToMultiByte` without flags). -/
def utf16Decode : WString → List Char
  | [] => []
  | [u] => [charOfUnit u]
  | u :: v :: us =>
      if isHigh u && isLow v then charOfPair u v :: utf16Decode us
      else charOfUnit u :: utf16Decode (v :: us)

/-- A unit that is no high half is decoded alone. -/
theorem utf16Decode_cons {u : WChar} (h : isHigh u = false) (us : WString) :
    utf16Decode (u :: us) = charOfUnit u :: utf16Decode us := by
  cases us with
  | nil => rfl
  | cons v us => rw [utf16Decode, h, Bool.false_and, if_neg Bool.false_ne_true]

/-- Two halves are decoded together. -/
theorem utf16Decode_pair {u v : WChar} (hu : isHigh u = true) (hv : isLow v = true)
    (us : WString) : utf16Decode (u :: v :: us) = charOfPair u v :: utf16Decode us := by
  rw [utf16Decode, hu, hv, Bool.true_and, if_pos rfl]

/-- Decoding reads off the units of one character. -/
theorem utf16Decode_utf16Char (c : Char) (us : WString) :
    utf16Decode (utf16Char c ++ us) = c :: utf16Decode us := by
  have hbounds := toNat_bounds c
  have hc : Char.ofNat c.toNat = c := Char.ofNat_toNat c
  unfold utf16Char
  split_ifs with h
  · have hval : (Fin.ofNat 65536 c.toNat).val = c.toNat := by
      rw [Fin.val_ofNat]
      exact Nat.mod_eq_of_lt h
    have hhigh : isHigh (Fin.ofNat 65536 c.toNat) = false := by
      unfold isHigh
      rw [hval]
      simp only [Bool.and_eq_false_iff, decide_eq_false_iff_not]
      omega
    have hlow : isLow (Fin.ofNat 65536 c.toNat) = false := by
      unfold isLow
      rw [hval]
      simp only [Bool.and_eq_false_iff, decide_eq_false_iff_not]
      omega
    rw [List.singleton_append, utf16Decode_cons hhigh, charOfUnit, hhigh, hlow, Bool.or_false,
      if_neg Bool.false_ne_true, hval, hc]
  · -- a pair
    have hhi : (Fin.ofNat 65536 (0xD800 + (c.toNat - 0x10000) / 0x400)).val =
        0xD800 + (c.toNat - 0x10000) / 0x400 := by
      rw [Fin.val_ofNat]
      omega
    have hlo : (Fin.ofNat 65536 (0xDC00 + (c.toNat - 0x10000) % 0x400)).val =
        0xDC00 + (c.toNat - 0x10000) % 0x400 := by
      rw [Fin.val_ofNat]
      omega
    have hhigh : isHigh (Fin.ofNat 65536 (0xD800 + (c.toNat - 0x10000) / 0x400)) = true := by
      unfold isHigh
      rw [hhi]
      simp only [Bool.and_eq_true, decide_eq_true_eq]
      omega
    have hlow : isLow (Fin.ofNat 65536 (0xDC00 + (c.toNat - 0x10000) % 0x400)) = true := by
      unfold isLow
      rw [hlo]
      simp only [Bool.and_eq_true, decide_eq_true_eq]
      omega
    have hn : 0x10000 + (0xD800 + (c.toNat - 0x10000) / 0x400 - 0xD800) * 0x400 +
        (0xDC00 + (c.toNat - 0x10000) % 0x400 - 0xDC00) = c.toNat := by
      omega
    rw [List.cons_append, List.singleton_append, utf16Decode_pair hhigh hlow, charOfPair, hhi, hlo,
      hn, hc]

/-- **A text comes back.** -/
theorem utf16Decode_utf16 (cs : List Char) : utf16Decode (utf16 cs) = cs := by
  induction cs with
  | nil => rfl
  | cons c cs ih => rw [utf16, List.flatMap_cons, utf16Decode_utf16Char, ← utf16, ih]

/-- The number of a character that has one. -/
theorem toNat_ofNat {n : ℕ} (h : n.isValidChar) : (Char.ofNat n).toNat = n := by
  rw [Char.ofNat, dif_pos h]
  rfl

/-- A unit that is decoded is encoded as it was. -/
theorem utf16Char_charOfUnit {u : WChar} (h : charOfUnit u ≠ replacement) :
    utf16Char (charOfUnit u) = [u] := by
  unfold charOfUnit at h ⊢
  split_ifs at h ⊢ with hsur
  · exact absurd rfl h
  · have hu := u.isLt
    have hvalid : u.val.isValidChar := by
      unfold isHigh isLow at hsur
      simp only [Bool.or_eq_true, Bool.and_eq_true, decide_eq_true_eq, not_or] at hsur
      unfold Nat.isValidChar
      omega
    rw [utf16Char, toNat_ofNat hvalid, if_pos hu]
    simp

theorem utf16Char_charOfPair {u v : WChar} (hu : isHigh u = true) (hv : isLow v = true) :
    utf16Char (charOfPair u v) = [u, v] := by
  unfold isHigh at hu
  unfold isLow at hv
  simp only [Bool.and_eq_true, decide_eq_true_eq] at hu hv
  have hvalid : (0x10000 + (u.val - 0xD800) * 0x400 + (v.val - 0xDC00)).isValidChar := by
    unfold Nat.isValidChar
    omega
  have hhigh : ∀ n, n = u.val → Fin.ofNat 65536 n = u := by
    rintro n rfl
    exact Fin.ofNat_val_eq_self u
  have hlow : ∀ n, n = v.val → Fin.ofNat 65536 n = v := by
    rintro n rfl
    exact Fin.ofNat_val_eq_self v
  rw [utf16Char, charOfPair, toNat_ofNat hvalid, if_neg (by omega), hhigh _ (by omega),
    hlow _ (by omega)]

/-- **A wide text comes back when no surrogate was replaced.** -/
theorem utf16_utf16Decode {w : WString} (h : replacement ∉ utf16Decode w) :
    utf16 (utf16Decode w) = w := by
  induction w using utf16Decode.induct with
  | case1 => rfl
  | case2 u =>
      rw [utf16Decode, List.mem_singleton] at h
      rw [utf16Decode, utf16, List.flatMap_singleton]
      exact utf16Char_charOfUnit (Ne.symm h)
  | case3 u v us hpair ih =>
      rw [utf16Decode, if_pos hpair, List.mem_cons, not_or] at h
      rw [Bool.and_eq_true] at hpair
      rw [utf16Decode_pair hpair.1 hpair.2, utf16, List.flatMap_cons,
        utf16Char_charOfPair hpair.1 hpair.2, ← utf16, ih h.2]
      rfl
  | case4 u v us hpair ih =>
      rw [utf16Decode, if_neg hpair, List.mem_cons, not_or] at h
      rw [utf16Decode, if_neg hpair, utf16, List.flatMap_cons,
        utf16Char_charOfUnit (Ne.symm h.1), ← utf16, ih h.2]
      rfl

/-- A wide text that is decoded to an ASCII text is that text. -/
theorem eq_of_utf16Decode_eq {w : WString} {ds : List Char} (hd : ∀ d ∈ ds, isAscii d = true)
    (h : utf16Decode w = ds) : w = utf16 ds := by
  rw [← h]
  refine (utf16_utf16Decode ?_).symm
  rw [h]
  intro hmem
  have hascii := hd _ hmem
  revert hascii
  decide

/-! ### Joining -/

/-- Joined names are encoded name by name. -/
theorem utf16_intercalate (names : List (List Char)) :
    utf16 ([','].intercalate names) = [wide ','].intercalate (names.map utf16) := by
  induction names with
  | nil => rfl
  | cons n names ih =>
      cases names with
      | nil => rw [List.intercalate_singleton, List.map_singleton, List.intercalate_singleton]
      | cons m names =>
          have happend : ∀ s t : List Char, utf16 (s ++ t) = utf16 s ++ utf16 t :=
            fun s t => List.flatMap_append
          rw [List.intercalate_cons_cons, happend, happend, ih]
          simp only [List.map_cons, List.intercalate_cons_cons]
          rfl

end Axan.Base
