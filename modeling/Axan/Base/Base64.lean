import Mathlib

/-!
# Base64 without an alphabet

Three bytes are four sextets, and a rest of one or two bytes is two or three sextets whose unused
low bits are zero. Reading drops the unused bits, whatever they are.

* `sextets`, `ofSextets` — writing and reading; `ofSextets_sextets` is the round trip.
* `padding` — how many signs complete the last group.
* `length_sextets` — the size.
-/

namespace Axan.Base

/-- The sextets of a sequence of bytes. -/
def sextets : List ℕ → List ℕ
  | a :: b :: c :: rest =>
      a / 4 :: (a % 4 * 16 + b / 16) :: (b % 16 * 4 + c / 64) :: c % 64 :: sextets rest
  | [a, b] => [a / 4, a % 4 * 16 + b / 16, b % 16 * 4]
  | [a] => [a / 4, a % 4 * 16]
  | [] => []

/-- The bytes of a sequence of sextets; a group cut off after its first sextet has none. -/
def ofSextets : List ℕ → List ℕ
  | a :: b :: c :: d :: rest =>
      (a * 4 + b / 16) :: (b % 16 * 16 + c / 4) :: (c % 4 * 64 + d) :: ofSextets rest
  | [a, b, c] => [a * 4 + b / 16, b % 16 * 16 + c / 4]
  | [a, b] => [a * 4 + b / 16]
  | [_] => []
  | [] => []

/-- The number of padding signs after a number of sextets. -/
def padding (n : ℕ) : ℕ := (4 - n % 4) % 4

/-- Every digit has six bits. -/
theorem sextets_lt {bytes : List ℕ} (h : ∀ b ∈ bytes, b < 256) : ∀ v ∈ sextets bytes, v < 64 := by
  induction bytes using sextets.induct with
  | case1 a b c rest ih =>
      simp only [List.forall_mem_cons, sextets] at h ⊢
      obtain ⟨ha, hb, hc, hrest⟩ := h
      exact ⟨by omega, by omega, by omega, by omega, ih hrest⟩
  | case2 a b =>
      simp only [List.forall_mem_cons, sextets] at h ⊢
      obtain ⟨ha, hb, -⟩ := h
      exact ⟨by omega, by omega, by omega, by simp⟩
  | case3 a =>
      simp only [List.forall_mem_cons, sextets] at h ⊢
      exact ⟨by omega, by omega, by simp⟩
  | case4 => simp [sextets]

/-- Every octet has eight bits. -/
theorem ofSextets_lt {vs : List ℕ} (h : ∀ v ∈ vs, v < 64) : ∀ b ∈ ofSextets vs, b < 256 := by
  induction vs using ofSextets.induct with
  | case1 a b c d rest ih =>
      simp only [List.forall_mem_cons, ofSextets] at h ⊢
      obtain ⟨ha, hb, hc, hd, hrest⟩ := h
      exact ⟨by omega, by omega, by omega, ih hrest⟩
  | case2 a b c =>
      simp only [List.forall_mem_cons, ofSextets] at h ⊢
      obtain ⟨ha, hb, hc, -⟩ := h
      exact ⟨by omega, by omega, by simp⟩
  | case3 a b =>
      simp only [List.forall_mem_cons, ofSextets] at h ⊢
      obtain ⟨ha, hb, -⟩ := h
      exact ⟨by omega, by simp⟩
  | case4 a => simp [ofSextets]
  | case5 => simp [ofSextets]

/-- **Reading what was written.** -/
theorem ofSextets_sextets {bytes : List ℕ} (h : ∀ b ∈ bytes, b < 256) :
    ofSextets (sextets bytes) = bytes := by
  induction bytes using sextets.induct with
  | case1 a b c rest ih =>
      simp only [List.forall_mem_cons] at h
      obtain ⟨ha, hb, hc, hrest⟩ := h
      rw [sextets, ofSextets, ih hrest]
      congr 1
      · omega
      congr 1
      · omega
      congr 1
      omega
  | case2 a b =>
      simp only [List.forall_mem_cons] at h
      obtain ⟨ha, hb, -⟩ := h
      rw [sextets, ofSextets]
      congr 1
      · omega
      congr 1
      omega
  | case3 a =>
      simp only [List.forall_mem_cons] at h
      rw [sextets, ofSextets]
      congr 1
      omega
  | case4 => rfl

/-- Four sextets for three bytes, rounded up. -/
theorem length_sextets (bytes : List ℕ) :
    (sextets bytes).length = (4 * bytes.length + 2) / 3 := by
  induction bytes using sextets.induct with
  | case1 a b c rest ih =>
      simp only [sextets, List.length_cons, ih]
      omega
  | case2 a b => simp [sextets]
  | case3 a => simp [sextets]
  | case4 => rfl

/-- A written sequence does not end after the first sextet of a group. -/
theorem length_sextets_mod (bytes : List ℕ) : (sextets bytes).length % 4 ≠ 1 := by
  rw [length_sextets]
  omega

end Axan.Base
