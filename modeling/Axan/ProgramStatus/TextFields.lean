import Axan.Base.Base64
import Axan.Base.Utf8
import Axan.ProgramStatus.Wire

/-!
# The text fields decode exactly

`msg` and `title` are base64 of UTF-8. The decoder keeps a 32-bit accumulator that wraps, and reads
UTF-8 by masks; here both are put beside what they stand for.

* `base64Char`, `IsBase64`, `encode`, `encodePadded` — the standard alphabet, what counts as base64
  of some bytes, and the two standard encodings.
* `decodeBase64_eq_some_iff` — `DecodeBase64` accepts exactly that.
* `decodeUtf8Loop_utf8Char`, `exists_char_of_decode` — one turn of the UTF-8 loop, both ways.
* `shown` — a text as the row shows it, in UTF-16 and without the bidi controls.
* `decodeTextField_exact` — both directions for both fields.
-/

namespace Axan.ProgramStatus

open Axan.Base

/-! ## Base64 -/

/-- The standard alphabet. -/
def base64Alphabet : WString :=
  L "ABCDEFGHIJKLMNOPQRSTUVWXYZabcdefghijklmnopqrstuvwxyz0123456789+/"

/-- The sign of a sextet. -/
def base64Char (v : ℕ) : WChar := base64Alphabet.getD v 0

/-- **What counts as base64 of some bytes**: signs of the alphabet, not one sign after full groups,
and padding that is absent or completes the last group. -/
def IsBase64 (encoded : WString) (bytes : List ℕ) : Prop :=
  ∃ vs k, (∀ v ∈ vs, v < 64) ∧ vs.length % 4 ≠ 1 ∧ (k = 0 ∨ k = padding vs.length) ∧
    encoded = vs.map base64Char ++ List.replicate k (wide '=') ∧ bytes = ofSextets vs

/-- The standard encoding without padding. -/
def encode (bytes : List ℕ) : WString := (sextets bytes).map base64Char

/-- The standard encoding with padding. -/
def encodePadded (bytes : List ℕ) : WString :=
  encode bytes ++ List.replicate (padding (sextets bytes).length) (wide '=')

theorem isBase64_encode {bytes : List ℕ} (h : ∀ b ∈ bytes, b < 256) :
    IsBase64 (encode bytes) bytes :=
  ⟨sextets bytes, 0, sextets_lt h, length_sextets_mod bytes, Or.inl rfl, by simp [encode],
    (ofSextets_sextets h).symm⟩

theorem isBase64_encodePadded {bytes : List ℕ} (h : ∀ b ∈ bytes, b < 256) :
    IsBase64 (encodePadded bytes) bytes :=
  ⟨sextets bytes, _, sextets_lt h, length_sextets_mod bytes, Or.inr rfl, rfl,
    (ofSextets_sextets h).symm⟩

/-! ### The alphabet -/

/-- A digit has the value it was made of. -/
theorem base64Value_base64Char {v : ℕ} (h : v < 64) : base64Value (base64Char v) = some v := by
  revert v
  decide +kernel

/-- The five ranges of the alphabet. -/
theorem base64Value_ranges {ch : WChar} {v : ℕ} (h : base64Value ch = some v) :
    (v < 26 ∧ ch.val = v + 65) ∨ (26 ≤ v ∧ v < 52 ∧ ch.val = v + 71) ∨
      (52 ≤ v ∧ v < 62 ∧ ch.val + 4 = v) ∨ (v = 62 ∧ ch.val = 43) ∨ v = 63 ∧ ch.val = 47 := by
  have hrange (lo hi : Char) : inRange lo hi ch = true ↔ lo.toNat ≤ ch.val ∧ ch.val ≤ hi.toNat := by
    simp [inRange]
  unfold base64Value at h
  simp only [hrange, Char.reduceToNat] at h
  split_ifs at h with h₁ h₂ h₃ h₄ h₅ <;> cases h
  · omega
  · omega
  · omega
  · rw [h₄]
    decide
  · rw [h₅]
    decide

/-- No two digits have the same value. -/
theorem base64Value_inj {a b : WChar} {v : ℕ} (ha : base64Value a = some v)
    (hb : base64Value b = some v) : a = b := by
  have ha := base64Value_ranges ha
  have hb := base64Value_ranges hb
  apply Fin.ext
  omega

theorem base64Value_lt {a : WChar} {v : ℕ} (h : base64Value a = some v) : v < 64 := by
  have := base64Value_ranges h
  omega

/-- A sign has a value exactly when it is the sign of that value. -/
theorem base64Value_eq_some_iff {a : WChar} {v : ℕ} :
    base64Value a = some v ↔ v < 64 ∧ a = base64Char v := by
  constructor
  · intro h
    have hv := base64Value_lt h
    exact ⟨hv, base64Value_inj h (base64Value_base64Char hv)⟩
  · rintro ⟨hv, rfl⟩
    exact base64Value_base64Char hv

/-! ### The accumulator -/

/-- One sign: six bits in, and a byte out when eight are there. The wrap of the accumulator loses
bits that were written already. -/
theorem decodeBase64Loop_cons {v : ℕ} (hv : v < 64) (acc bits : ℕ) (rest : WString) :
    decodeBase64Loop acc bits (base64Char v :: rest) =
      if bits + 6 ≥ 8 then
        (decodeBase64Loop ((acc * 64 + v) % 2 ^ 32) (bits - 2) rest).map fun out =>
          (acc * 64 + v) % 2 ^ 32 / 2 ^ (bits - 2) % 256 :: out
      else decodeBase64Loop ((acc * 64 + v) % 2 ^ 32) (bits + 6) rest := by
  have hshift : (acc <<< 6) ||| v = acc * 64 + v := by
    rw [← Nat.shiftLeft_add_eq_or_of_lt hv, Nat.shiftLeft_eq]
  have hbits : bits + 6 - 8 = bits - 2 := by omega
  rw [decodeBase64Loop, base64Value_base64Char hv]
  simp only [Option.bind_eq_bind, Option.bind_some, hshift, hbits, Nat.shiftRight_eq_div_pow]
  split_ifs
  · cases decodeBase64Loop ((acc * 64 + v) % 2 ^ 32) (bits - 2) rest <;> rfl
  · rfl

/-- The first byte of a group: six bits of the first sextet, two of the second. -/
theorem first_byte {a b : ℕ} (ha : a < 64) (hb : b < 64) (acc : ℕ) :
    ((acc * 64 + a) % 2 ^ 32 * 64 + b) % 2 ^ 32 / 2 ^ 4 % 256 = a * 4 + b / 16 := by
  omega

/-- The second byte of a group: four bits of the second sextet, four of the third. -/
theorem second_byte {c : ℕ} (hc : c < 64) (b acc : ℕ) :
    ((acc * 64 + b) % 2 ^ 32 * 64 + c) % 2 ^ 32 / 2 ^ 2 % 256 = b % 16 * 16 + c / 4 := by
  omega

/-- The third byte of a group: two bits of the third sextet, all of the fourth. -/
theorem third_byte {d : ℕ} (hd : d < 64) (c acc : ℕ) :
    ((acc * 64 + c) % 2 ^ 32 * 64 + d) % 2 ^ 32 / 2 ^ 0 % 256 = c % 4 * 64 + d := by
  omega

/-- At the end nothing is left to decode. -/
@[simp] theorem decodeBase64Loop_nil (acc bits : ℕ) : decodeBase64Loop acc bits [] = some [] := by
  rw [decodeBase64Loop]

/-- At the start of a group the loop reads the sextets, whatever the accumulator holds. -/
theorem decodeBase64Loop_map {vs : List ℕ} (h : ∀ v ∈ vs, v < 64) (acc : ℕ) :
    decodeBase64Loop acc 0 (vs.map base64Char) = some (ofSextets vs) := by
  induction vs using ofSextets.induct generalizing acc with
  | case1 a b c d rest ih =>
      simp only [List.forall_mem_cons] at h
      obtain ⟨ha, hb, hc, hd, hrest⟩ := h
      simp only [List.map_cons, decodeBase64Loop_cons ha, decodeBase64Loop_cons hb,
        decodeBase64Loop_cons hc, decodeBase64Loop_cons hd, first_byte ha hb, second_byte hc,
        third_byte hd, ih hrest, ofSextets, Nat.reduceAdd, Nat.reduceSub, Nat.reduceLeDiff,
        ge_iff_le, if_true, if_false, Option.map_some]
  | case2 a b c =>
      simp only [List.forall_mem_cons] at h
      obtain ⟨ha, hb, hc, -⟩ := h
      simp only [List.map_cons, List.map_nil, decodeBase64Loop_cons ha, decodeBase64Loop_cons hb,
        decodeBase64Loop_cons hc, decodeBase64Loop_nil, first_byte ha hb, second_byte hc, ofSextets,
        Nat.reduceAdd, Nat.reduceSub, Nat.reduceLeDiff, ge_iff_le, if_true, if_false,
        Option.map_some]
  | case3 a b =>
      simp only [List.forall_mem_cons] at h
      obtain ⟨ha, hb, -⟩ := h
      simp only [List.map_cons, List.map_nil, decodeBase64Loop_cons ha, decodeBase64Loop_cons hb,
        decodeBase64Loop_nil, first_byte ha hb, ofSextets, Nat.reduceAdd, Nat.reduceSub,
        Nat.reduceLeDiff, ge_iff_le, if_true, if_false, Option.map_some]
  | case4 a =>
      have ha : a < 64 := h a List.mem_cons_self
      simp only [List.map_cons, List.map_nil, decodeBase64Loop_cons ha, decodeBase64Loop_nil, ofSextets,
        Nat.reduceAdd, Nat.reduceLeDiff, ge_iff_le, if_false]
  | case5 => rfl

/-- The loop accepts signs of the alphabet only. -/
theorem exists_sextets_of_decodeBase64Loop {encoded : WString} {acc bits : ℕ} {bytes : List ℕ}
    (h : decodeBase64Loop acc bits encoded = some bytes) :
    ∃ vs : List ℕ, (∀ v ∈ vs, v < 64) ∧ encoded = vs.map base64Char := by
  induction encoded generalizing acc bits bytes with
  | nil => exact ⟨[], by simp, rfl⟩
  | cons ch rest ih =>
      cases hv : base64Value ch with
      | none =>
          rw [decodeBase64Loop, hv] at h
          cases h
      | some v =>
          obtain ⟨hlt, rfl⟩ := base64Value_eq_some_iff.mp hv
          have hrest : ∃ acc' bits' bytes', decodeBase64Loop acc' bits' rest = some bytes' := by
            rw [decodeBase64Loop_cons hlt] at h
            split_ifs at h
            · obtain ⟨out, hout, -⟩ := Option.map_eq_some_iff.mp h
              exact ⟨_, _, out, hout⟩
            · exact ⟨_, _, bytes, h⟩
          obtain ⟨acc', bits', bytes', hrest⟩ := hrest
          obtain ⟨vs, hvs, rfl⟩ := ih hrest
          exact ⟨v :: vs, List.forall_mem_cons.mpr ⟨hlt, hvs⟩, rfl⟩

/-! ### The padding -/

/-- No digit is a padding. -/
theorem base64Char_ne {v : ℕ} (h : v < 64) : base64Char v ≠ wide '=' := by
  revert v
  decide +kernel

/-- Dropping the padding of an encoding leaves its signs. -/
theorem rdropWhile_encoded {vs : List ℕ} (h : ∀ v ∈ vs, v < 64) (k : ℕ) :
    (vs.map base64Char ++ List.replicate k (wide '=')).rdropWhile (· = wide '=') =
      vs.map base64Char := by
  induction k with
  | zero =>
      rw [List.replicate_zero, List.append_nil, List.rdropWhile_eq_self_iff]
      intro hne
      have hmem := List.getLast_mem hne
      obtain ⟨v, hv, hlast⟩ := List.mem_map.mp hmem
      rw [← hlast]
      simpa using base64Char_ne (h v hv)
  | succ k ih =>
      rw [List.replicate_succ', ← List.append_assoc, List.rdropWhile_concat_pos _ _ _ (by simp)]
      exact ih

/-- A text is its digits and their padding. -/
theorem exists_padding (encoded : WString) :
    ∃ k, encoded = encoded.rdropWhile (· = wide '=') ++ List.replicate k (wide '=') := by
  refine ⟨(encoded.rtakeWhile (· = wide '=')).length, ?_⟩
  conv_lhs => rw [← List.rdropWhile_append_rtakeWhile (p := (· = wide '=')) (l := encoded)]
  congr 1
  refine List.eq_replicate_length.mpr fun b hb => ?_
  simpa using List.mem_rtakeWhile_imp hb

/-- **`DecodeBase64` accepts exactly base64.** -/
theorem decodeBase64_eq_some_iff (encoded : WString) (bytes : List ℕ) :
    decodeBase64 encoded = some bytes ↔ IsBase64 encoded bytes := by
  constructor
  · intro h
    obtain ⟨k, hk⟩ := exists_padding encoded
    have hlen := congrArg List.length hk
    rw [List.length_append, List.length_replicate] at hlen
    unfold decodeBase64 at h
    simp only at h
    split_ifs at h with hpad hgroup hone
    obtain ⟨vs, hvs, hbody⟩ := exists_sextets_of_decodeBase64Loop h
    rw [hbody, decodeBase64Loop_map hvs, Option.some.injEq] at h
    rw [hbody, List.length_map] at hlen hpad hgroup hone
    refine ⟨vs, k, hvs, hone, ?_, hbody ▸ hk, h.symm⟩
    simp only [Bool.and_eq_true, bne_iff_ne, not_and, not_not] at hgroup
    unfold padding
    omega
  · rintro ⟨vs, k, hvs, hone, hk, rfl, rfl⟩
    unfold decodeBase64
    simp only [rdropWhile_encoded hvs, List.length_append, List.length_map, List.length_replicate,
      decodeBase64Loop_map hvs]
    unfold padding at hk
    rw [if_neg (by omega), if_neg ?_, if_neg hone]
    simp only [Bool.and_eq_true, bne_iff_ne, not_and, not_not]
    omega

/-! ## UTF-8 -/

/-- The lead byte by its range. -/
theorem utf8Lead_eq {b : ℕ} (h : b < 256) : utf8Lead b =
    if b < 0x80 then some (b, 1, 0)
    else if b < 0xC0 then none
    else if b < 0xE0 then some (b - 0xC0, 2, 0x80)
    else if b < 0xF0 then some (b - 0xE0, 3, 0x800)
    else if b < 0xF8 then some (b - 0xF0, 4, 0x10000)
    else none := by
  revert b
  decide +kernel

/-- Every sequence has a lead byte. -/
theorem pos_of_utf8Lead {b lead len min : ℕ} (hb : b < 256)
    (h : utf8Lead b = some (lead, len, min)) : 0 < len := by
  rw [utf8Lead_eq hb] at h
  split_ifs at h <;> simp only [Option.some.injEq, Prod.mk.injEq] at h <;> omega

/-- A continuation byte has the upper bits 10. -/
theorem continuation_iff {b : ℕ} (h : b < 256) : b &&& 0xC0 = 0x80 ↔ 0x80 ≤ b ∧ b < 0xC0 := by
  revert b
  decide +kernel

/-- A continuation byte adds its six bits. -/
theorem utf8Continuation_cons {b : ℕ} (h : b < 256) (cp : ℕ) (rest : List ℕ) :
    utf8Continuation cp (b :: rest) =
      if 0x80 ≤ b ∧ b < 0xC0 then utf8Continuation (cp * 64 + b % 64) rest else none := by
  have hlow : b &&& 0x3F = b % 64 := Nat.and_two_pow_sub_one_eq_mod b 6
  have hor : (cp <<< 6) ||| (b % 64) = cp * 64 + b % 64 := by
    rw [← Nat.shiftLeft_add_eq_or_of_lt (Nat.mod_lt b (by decide)), Nat.shiftLeft_eq]
  rw [utf8Continuation, hlow, hor]
  simp only [ne_eq, continuation_iff h, ite_not]

/-- Such a byte adds its lower six bits. -/
theorem of_utf8Continuation_cons {b : ℕ} (h : b < 256) {cp n : ℕ} {rest : List ℕ}
    (hcp : utf8Continuation cp (b :: rest) = some n) :
    (0x80 ≤ b ∧ b < 0xC0) ∧ utf8Continuation (cp * 64 + b % 64) rest = some n := by
  rw [utf8Continuation_cons h] at hcp
  split_ifs at hcp with hb
  exact ⟨hb, hcp⟩

/-- Without more bytes the number is complete. -/
@[simp] theorem utf8Continuation_nil (cp : ℕ) : utf8Continuation cp [] = some cp := by
  rw [utf8Continuation]

/-- The two forms of UTF-16 agree. -/
theorem utf16_toNat (c : Char) : utf16 c.toNat = utf16Char c := by
  have hshift : (c.toNat - 0x10000) >>> 10 = (c.toNat - 0x10000) / 0x400 :=
    Nat.shiftRight_eq_div_pow _ 10
  have hand : (c.toNat - 0x10000) &&& 0x3FF = (c.toNat - 0x10000) % 0x400 :=
    Nat.and_two_pow_sub_one_eq_mod _ 10
  unfold utf16 utf16Char
  rw [hshift, hand]
  split_ifs <;> first | rfl | omega

/-- What the loop makes of a code point once it has read it. -/
def takeCodePoint (cp : ℕ) (rest : Except String WString) : Except String WString :=
  if isControl cp then .error "control-char"
  else
    match rest with
    | .error why => .error why
    | .ok out => .ok (if isBidiControl cp then out else utf16 cp ++ out)

/-- A code point is taken unless it is a control, and shown unless it is a mark of direction. -/
theorem takeCodePoint_eq_ok_iff {cp : ℕ} {rest : Except String WString} {out : WString} :
    takeCodePoint cp rest = .ok out ↔ isControl cp = false ∧
      ∃ out', rest = .ok out' ∧ out = if isBidiControl cp then out' else utf16 cp ++ out' := by
  unfold takeCodePoint
  cases hc : isControl cp with
  | true => simp
  | false =>
      cases rest with
      | error why => simp
      | ok out' =>
          simp only [Bool.false_eq_true, if_false, Except.ok.injEq, true_and, exists_eq_left']
          exact eq_comm

/-- The code points the loop lets through are those of characters. -/
theorem exists_char {cp : ℕ} (hmax : cp ≤ 0x10FFFF) (hs : ¬(0xD800 ≤ cp ∧ cp ≤ 0xDFFF)) :
    ∃ c : Char, c.toNat = cp := by
  have hvalid : cp.isValidChar := by
    unfold Nat.isValidChar
    omega
  exact ⟨Char.ofNatAux cp hvalid, rfl⟩

/-- A turn of the loop, when the lead byte announces a sequence that is there. -/
theorem decodeUtf8Loop_cons {b₀ lead min cp : ℕ} {rest tail : List ℕ} (fuel : ℕ)
    (hlead : utf8Lead b₀ = some (lead, rest.length + 1, min))
    (hcp : utf8Continuation lead rest = some cp) (hmin : min ≤ cp) (hmax : cp ≤ 0x10FFFF)
    (hs : ¬(0xD800 ≤ cp ∧ cp ≤ 0xDFFF)) :
    decodeUtf8Loop (fuel + 1) (b₀ :: rest ++ tail) = takeCodePoint cp (decodeUtf8Loop fuel tail) := by
  have hshort : ¬rest.length + 1 > (rest ++ tail).length + 1 := by
    rw [List.length_append]
    omega
  have hbad : ¬(decide (cp < min) || decide (cp > 0x10FFFF) ||
      (decide (0xD800 ≤ cp) && decide (cp ≤ 0xDFFF))) = true := by
    simp only [Bool.or_eq_true, Bool.and_eq_true, decide_eq_true_eq]
    omega
  rw [List.cons_append, decodeUtf8Loop]
  simp only [hlead, Nat.add_sub_cancel, List.take_left, List.drop_left, hcp, if_neg hshort,
    if_neg hbad]
  rfl

/-- One character: the loop reads its code point. -/
theorem decodeUtf8Loop_utf8Char (fuel : ℕ) (c : Char) (tail : List ℕ) :
    decodeUtf8Loop (fuel + 1) (utf8Char c ++ tail) =
      takeCodePoint c.toNat (decodeUtf8Loop fuel tail) := by
  obtain ⟨hs, hmax⟩ := toNat_bounds c
  rw [utf8Char_eq]
  generalize c.toNat = n at hs hmax
  split_ifs with h₁ h₂ h₃
  · have hlead : utf8Lead n = some (n, 1, 0) := by
      rw [utf8Lead_eq (by omega), if_pos h₁]
    exact decodeUtf8Loop_cons fuel hlead (utf8Continuation_nil n) (Nat.zero_le n) (by omega)
      (by omega)
  · have hlead : utf8Lead (n / 64 + 0xC0) = some (n / 64, 2, 0x80) := by
      rw [utf8Lead_eq (by omega), if_neg (by omega), if_neg (by omega), if_pos (by omega),
        Nat.add_sub_cancel]
    have hcp : utf8Continuation (n / 64) [n % 64 + 0x80] = some n := by
      rw [utf8Continuation_cons (by omega), if_pos (by omega), utf8Continuation_nil]
      congr 1
      omega
    exact decodeUtf8Loop_cons fuel hlead hcp (by omega) (by omega) (by omega)
  · have hlead : utf8Lead (n / 4096 + 0xE0) = some (n / 4096, 3, 0x800) := by
      rw [utf8Lead_eq (by omega), if_neg (by omega), if_neg (by omega), if_neg (by omega),
        if_pos (by omega), Nat.add_sub_cancel]
    have hcp : utf8Continuation (n / 4096) [n / 64 % 64 + 0x80, n % 64 + 0x80] = some n := by
      rw [utf8Continuation_cons (by omega), if_pos (by omega), utf8Continuation_cons (by omega),
        if_pos (by omega), utf8Continuation_nil]
      congr 1
      omega
    exact decodeUtf8Loop_cons fuel hlead hcp (by omega) (by omega) (by omega)
  · have hlead : utf8Lead (n / 262144 + 0xF0) = some (n / 262144, 4, 0x10000) := by
      rw [utf8Lead_eq (by omega), if_neg (by omega), if_neg (by omega), if_neg (by omega),
        if_neg (by omega), if_pos (by omega), Nat.add_sub_cancel]
    have hcp : utf8Continuation (n / 262144)
        [n / 4096 % 64 + 0x80, n / 64 % 64 + 0x80, n % 64 + 0x80] = some n := by
      rw [utf8Continuation_cons (by omega), if_pos (by omega), utf8Continuation_cons (by omega),
        if_pos (by omega), utf8Continuation_cons (by omega), if_pos (by omega),
        utf8Continuation_nil]
      congr 1
      omega
    exact decodeUtf8Loop_cons fuel hlead hcp (by omega) (by omega) (by omega)

/-- The other way: a sequence the loop takes is the bytes of a character. -/
theorem exists_utf8Char {b₀ lead len min cp : ℕ} {rest : List ℕ} (hlt : ∀ b ∈ b₀ :: rest, b < 256)
    (hlead : utf8Lead b₀ = some (lead, len, min)) (hlen : rest.length + 1 = len)
    (hcp : utf8Continuation lead rest = some cp) (hmin : min ≤ cp) {c : Char} (hc : c.toNat = cp) :
    b₀ :: rest = utf8Char c := by
  rw [List.forall_mem_cons] at hlt
  obtain ⟨hb₀, hlt⟩ := hlt
  rw [utf8Lead_eq hb₀] at hlead
  rw [utf8Char_eq, hc]
  split_ifs at hlead with h₁ h₂ h₃ h₄ h₅ <;>
    simp only [Option.some.injEq, Prod.mk.injEq] at hlead <;>
    obtain ⟨hl, hn, hm⟩ := hlead <;> rw [← hn] at hlen
  · obtain rfl : rest = [] := List.length_eq_zero_iff.mp (by omega)
    rw [utf8Continuation_nil, Option.some.injEq] at hcp
    rw [if_pos (by omega), ← hcp, hl]
  · obtain ⟨b₁, rfl⟩ := List.length_eq_one_iff.mp (by omega : rest.length = 1)
    simp only [List.forall_mem_cons] at hlt
    obtain ⟨⟨hlo, hhi⟩, hcp⟩ := of_utf8Continuation_cons hlt.1 hcp
    rw [utf8Continuation_nil, Option.some.injEq] at hcp
    rw [if_neg (by omega), if_pos (by omega)]
    simp only [List.cons.injEq, and_true]
    exact ⟨by omega, by omega⟩
  · obtain ⟨b₁, b₂, rfl⟩ := List.length_eq_two.mp (by omega : rest.length = 2)
    simp only [List.forall_mem_cons] at hlt
    obtain ⟨⟨hlo, hhi⟩, hcp⟩ := of_utf8Continuation_cons hlt.1 hcp
    obtain ⟨⟨hlo', hhi'⟩, hcp⟩ := of_utf8Continuation_cons hlt.2.1 hcp
    rw [utf8Continuation_nil, Option.some.injEq] at hcp
    rw [if_neg (by omega), if_neg (by omega), if_pos (by omega)]
    simp only [List.cons.injEq, and_true]
    exact ⟨by omega, by omega, by omega⟩
  · obtain ⟨b₁, b₂, b₃, rfl⟩ := List.length_eq_three.mp (by omega : rest.length = 3)
    simp only [List.forall_mem_cons] at hlt
    obtain ⟨⟨hlo, hhi⟩, hcp⟩ := of_utf8Continuation_cons hlt.1 hcp
    obtain ⟨⟨hlo', hhi'⟩, hcp⟩ := of_utf8Continuation_cons hlt.2.1 hcp
    obtain ⟨⟨hlo'', hhi''⟩, hcp⟩ := of_utf8Continuation_cons hlt.2.2.1 hcp
    rw [utf8Continuation_nil, Option.some.injEq] at hcp
    rw [if_neg (by omega), if_neg (by omega), if_neg (by omega)]
    simp only [List.cons.injEq, and_true]
    exact ⟨by omega, by omega, by omega, by omega⟩

/-! ### Whole texts -/

/-- No control characters in a text. -/
def NoControls (t : List Char) : Prop := ∀ c ∈ t, isControl c.toNat = false

/-- A text as it is shown: UTF-16 without the bidi controls. -/
def shown (t : List Char) : WString := Base.utf16 (t.filter fun c => !isBidiControl c.toNat)

/-- The text is shown character by character. -/
theorem shown_cons (c : Char) (t : List Char) :
    shown (c :: t) = if isBidiControl c.toNat then shown t else utf16 c.toNat ++ shown t := by
  unfold shown
  rw [utf16_toNat]
  cases h : isBidiControl c.toNat with
  | false => rw [List.filter_cons_of_pos (by simp [h])]; rfl
  | true => rw [List.filter_cons_of_neg (by simp [h])]; rfl

/-- A character has a byte. -/
theorem utf8Char_ne_nil (c : Char) : utf8Char c ≠ [] := by
  rw [utf8Char_eq]
  split_ifs <;> simp

/-- The bytes of a text without controls are read. -/
theorem decodeUtf8Loop_utf8 {t : List Char} (ht : NoControls t) {fuel : ℕ}
    (hfuel : (octets t).length ≤ fuel) : decodeUtf8Loop fuel (octets t) = .ok (shown t) := by
  induction t generalizing fuel with
  | nil => cases fuel <;> rfl
  | cons c t ih =>
      have hpos := List.length_pos_of_ne_nil (utf8Char_ne_nil c)
      rw [octets_cons, List.length_append] at hfuel
      obtain ⟨fuel, rfl⟩ := Nat.exists_eq_succ_of_ne_zero (by omega : fuel ≠ 0)
      have hc : isControl c.toNat = false := ht c List.mem_cons_self
      rw [octets_cons, decodeUtf8Loop_utf8Char,
        ih (fun d hd => ht d (List.mem_cons_of_mem _ hd)) (by omega), shown_cons]
      simp [takeCodePoint, hc]

/-- When the loop succeeds, the bytes start with those of a character. -/
theorem exists_utf8Char_append {b₀ fuel : ℕ} {bytes : List ℕ} {out : WString}
    (hlt : ∀ b ∈ b₀ :: bytes, b < 256) (h : decodeUtf8Loop (fuel + 1) (b₀ :: bytes) = .ok out) :
    ∃ c rest, b₀ :: bytes = utf8Char c ++ rest := by
  rw [decodeUtf8Loop] at h
  cases hlead : utf8Lead b₀ with
  | none => rw [hlead] at h; cases h
  | some triple =>
      obtain ⟨lead, len, min⟩ := triple
      rw [hlead] at h
      simp only at h
      have hlen : ¬len > bytes.length + 1 := fun hlen => by rw [if_pos hlen] at h; cases h
      rw [if_neg hlen] at h
      cases hcp : utf8Continuation lead (bytes.take (len - 1)) with
      | none => rw [hcp] at h; cases h
      | some cp =>
          rw [hcp] at h
          simp only at h
          have hbad : ¬(decide (cp < min) || decide (cp > 0x10FFFF) ||
              (decide (0xD800 ≤ cp) && decide (cp ≤ 0xDFFF))) = true := fun hbad => by
            rw [if_pos hbad] at h
            cases h
          simp only [Bool.or_eq_true, Bool.and_eq_true, decide_eq_true_eq, not_or, not_lt] at hbad
          obtain ⟨⟨hmin, hmax⟩, hs⟩ := hbad
          obtain ⟨c, hc⟩ := exists_char hmax hs
          have hpos := pos_of_utf8Lead (hlt b₀ List.mem_cons_self) hlead
          refine ⟨c, bytes.drop (len - 1), ?_⟩
          have hlt' : ∀ b ∈ b₀ :: bytes.take (len - 1), b < 256 := by
            intro b hb
            rcases List.mem_cons.mp hb with rfl | hb
            · exact hlt _ List.mem_cons_self
            · exact hlt b (List.mem_cons_of_mem _ (List.mem_of_mem_take hb))
          have htake : (bytes.take (len - 1)).length + 1 = len := by
            rw [List.length_take]
            omega
          rw [← exists_utf8Char hlt' hlead htake hcp hmin hc, List.cons_append,
            List.take_append_drop]

/-- **The loop accepts exactly the bytes of texts without controls.** -/
theorem decodeUtf8Text_eq_ok_iff {bytes : List ℕ} (hlt : ∀ b ∈ bytes, b < 256) (out : WString) :
    decodeUtf8Text bytes = .ok out ↔ ∃ t, bytes = octets t ∧ NoControls t ∧ out = shown t := by
  constructor
  · have hgo : ∀ (fuel : ℕ) (bytes : List ℕ) (out : WString), bytes.length ≤ fuel →
        (∀ b ∈ bytes, b < 256) → decodeUtf8Loop fuel bytes = .ok out →
        ∃ t, bytes = octets t ∧ NoControls t ∧ out = shown t := by
      intro fuel
      induction fuel with
      | zero =>
          intro bytes out hlen _ h
          obtain rfl : bytes = [] := List.length_eq_zero_iff.mp (by omega)
          cases h
          exact ⟨[], rfl, List.forall_mem_nil _, rfl⟩
      | succ fuel ih =>
          intro bytes out hlen hlt h
          cases bytes with
          | nil =>
              cases h
              exact ⟨[], rfl, List.forall_mem_nil _, rfl⟩
          | cons b₀ bytes =>
              obtain ⟨c, rest, hsplit⟩ := exists_utf8Char_append hlt h
              have hpos := List.length_pos_of_ne_nil (utf8Char_ne_nil c)
              rw [hsplit] at h hlen hlt ⊢
              rw [List.length_append] at hlen
              rw [decodeUtf8Loop_utf8Char] at h
              obtain ⟨hcontrol, out', hrest, rfl⟩ := takeCodePoint_eq_ok_iff.mp h
              obtain ⟨t, rfl, ht, rfl⟩ := ih rest out' (by omega)
                (fun b hb => hlt b (List.mem_append_right _ hb)) hrest
              exact ⟨c :: t, rfl, List.forall_mem_cons.mpr ⟨hcontrol, ht⟩, (shown_cons c t).symm⟩
    exact hgo bytes.length bytes out le_rfl hlt
  · rintro ⟨t, rfl, ht, rfl⟩
    exact decodeUtf8Loop_utf8 ht le_rfl

/-! ## The fields -/

/-- What is decoded are bytes. -/
theorem isBase64_lt {encoded : WString} {bytes : List ℕ} (h : IsBase64 encoded bytes) :
    ∀ b ∈ bytes, b < 256 := by
  obtain ⟨vs, k, hvs, -, -, -, rfl⟩ := h
  exact ofSextets_lt hvs

/-- **What a text field accepts.** -/
theorem decodeTextField_eq_ok_iff (encoded : WString) (maxEncoded maxDecoded : ℕ) (out : WString) :
    decodeTextField encoded maxEncoded maxDecoded = .ok out ↔
      encoded.length ≤ maxEncoded ∧ ∃ t, IsBase64 encoded (octets t) ∧
        (octets t).length ≤ maxDecoded ∧ NoControls t ∧ out = shown t := by
  unfold decodeTextField
  split_ifs with hlong
  · constructor
    · intro h
      cases h
    · rintro ⟨hle, -⟩
      exact absurd hle (not_le.mpr hlong)
  rw [not_lt] at hlong
  constructor
  · intro h
    cases hb : decodeBase64 encoded with
    | none => rw [hb] at h; cases h
    | some bytes =>
        rw [hb] at h
        simp only at h
        split_ifs at h with hmax
        have hbase := (decodeBase64_eq_some_iff encoded bytes).mp hb
        obtain ⟨t, rfl, ht, rfl⟩ := (decodeUtf8Text_eq_ok_iff (isBase64_lt hbase) out).mp h
        exact ⟨hlong, t, hbase, not_lt.mp hmax, ht, rfl⟩
  · rintro ⟨-, t, hbase, hmax, ht, rfl⟩
    rw [(decodeBase64_eq_some_iff encoded (octets t)).mpr hbase]
    simp only [if_neg (not_lt.mpr hmax)]
    exact (decodeUtf8Text_eq_ok_iff (octets_lt t) _).mpr ⟨t, rfl, ht, rfl⟩

/-- Both encodings of a text within the decoded limit are within the encoded one. -/
theorem length_encode_le {n m : ℕ} (h : 4 * ((n + 2) / 3) = m) {bytes : List ℕ}
    (hlen : bytes.length ≤ n) :
    (encode bytes).length ≤ m ∧ (encodePadded bytes).length ≤ m := by
  unfold encodePadded encode padding
  simp only [List.length_append, List.length_map, List.length_replicate, length_sextets]
  omega

/-- What is shown of a text without controls has neither controls nor bidi controls. -/
theorem exists_clean {t : List Char} (h : NoControls t) :
    ∃ s, shown t = Base.utf16 s ∧
      ∀ c ∈ s, isControl c.toNat = false ∧ isBidiControl c.toNat = false := by
  refine ⟨_, rfl, fun c hc => ?_⟩
  obtain ⟨hmem, hbidi⟩ := List.mem_filter.mp hc
  exact ⟨h c hmem, by simpa using hbidi⟩

/-- A text field with its limits is exact: a text without controls within the decoded limit is read
from both of its encodings, and whatever is read is such a text, shown without the characters that
could disturb the row. -/
def DecodesExactly (maxEncoded maxDecoded : ℕ) : Prop :=
  (∀ t, NoControls t → (octets t).length ≤ maxDecoded →
    ∀ encoded ∈ [encode (octets t), encodePadded (octets t)], encoded.length ≤ maxEncoded ∧
      decodeTextField encoded maxEncoded maxDecoded = .ok (shown t)) ∧
  ∀ encoded out, decodeTextField encoded maxEncoded maxDecoded = .ok out →
    (encoded.length ≤ maxEncoded ∧ ∃ t, IsBase64 encoded (octets t) ∧
      (octets t).length ≤ maxDecoded ∧ NoControls t ∧ out = shown t) ∧
    ∃ s, out = Base.utf16 s ∧
      ∀ c ∈ s, isControl c.toNat = false ∧ isBidiControl c.toNat = false

/-- **The text fields decode exactly.** -/
theorem decodeTextField_exact :
    DecodesExactly maxMsgEncodedBytes maxMsgDecodedBytes ∧
      DecodesExactly maxTitleEncodedBytes maxTitleDecodedBytes := by
  have hgo : ∀ maxEncoded maxDecoded : ℕ, 4 * ((maxDecoded + 2) / 3) = maxEncoded →
      DecodesExactly maxEncoded maxDecoded := by
    intro maxEncoded maxDecoded hlimits
    refine ⟨fun t ht hlen encoded hmem => ?_, fun encoded out h => ?_⟩
    · obtain ⟨hle, hle'⟩ := length_encode_le hlimits hlen
      have hbase : IsBase64 encoded (octets t) ∧ encoded.length ≤ maxEncoded := by
        rcases List.mem_cons.mp hmem with rfl | hmem
        · exact ⟨isBase64_encode (octets_lt t), hle⟩
        · obtain rfl := List.mem_singleton.mp hmem
          exact ⟨isBase64_encodePadded (octets_lt t), hle'⟩
      refine ⟨hbase.2, ?_⟩
      rw [decodeTextField_eq_ok_iff]
      exact ⟨hbase.2, t, hbase.1, hlen, ht, rfl⟩
    · have hread := (decodeTextField_eq_ok_iff encoded maxEncoded maxDecoded out).mp h
      obtain ⟨-, t, -, -, ht, rfl⟩ := id hread
      exact ⟨hread, exists_clean ht⟩
  exact ⟨hgo _ _ rfl, hgo _ _ rfl⟩

end Axan.ProgramStatus
