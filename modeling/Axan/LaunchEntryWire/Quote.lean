import Axan.Base.Toml

/-!
# Quoting for the TOML interchange: `TomlQuote`

`AxanLaunchEntryWire.h` writes every string of the interchange file as a TOML basic string. It
works on the bytes of the UTF-8 form.

* `tomlQuote` — the source's loop, a byte at a time.
* `quoted` — the same on characters; `tomlQuote_utf8` says that the two agree, since no byte of a
  longer UTF-8 sequence is one the loop escapes.
* `body_escaped` — the quoted text is one the TOML grammar reads back, for a text without U+007F.
* `tomlQuote_basicString_iff` — that exception is exact: the grammar forbids a bare U+007F and the
  loop escapes only the control characters below U+0020.
-/

namespace Axan.LaunchEntryWire

open Axan.Base

/-- The digits of an escape. Source: `TomlQuote`, `hex` -/
def hex : List Char := "0123456789ABCDEF".toList

/-- The digit `hex[n & 0xF]`. -/
def hexDigit (n : ℕ) : Char := hex.getD (n % 16) '0'

/-- One byte of the loop. Source: `TomlQuote`, the `switch` -/
def tomlQuoteByte (c : UInt8) : Bytes :=
  if c = '"'.toUInt8 then lit "\\\""
  else if c = '\\'.toUInt8 then lit "\\\\"
  else if c = '\n'.toUInt8 then lit "\\n"
  else if c = '\t'.toUInt8 then lit "\\t"
  else if c = '\r'.toUInt8 then lit "\\r"
  else if c.toNat < 0x20 then
    lit "\\u00" ++ utf8 [hexDigit (c.toNat >>> 4), hexDigit c.toNat]
  else [c]

/-- Quote a UTF-8 string as a TOML basic string. Source: `TomlQuote` -/
def tomlQuote (s : Bytes) : Bytes := lit "\"" ++ s.flatMap tomlQuoteByte ++ lit "\""

/-! ## The quoted text -/

/-- What the loop makes of one character. -/
def escaped (c : Char) : List Char :=
  if c = '"' then ['\\', '"']
  else if c = '\\' then ['\\', '\\']
  else if c = '\n' then ['\\', 'n']
  else if c = '\t' then ['\\', 't']
  else if c = '\r' then ['\\', 'r']
  else if c.toNat < 0x20 then
    ['\\', 'u', '0', '0', hexDigit (c.toNat / 16), hexDigit c.toNat]
  else [c]

/-- The text `tomlQuote` writes for the text `cs`. -/
def quoted (cs : List Char) : List Char := '"' :: (cs.flatMap escaped ++ ['"'])

/-- A byte above the ASCII range is copied. -/
theorem tomlQuoteByte_of_le {b : UInt8} (h : 0x80 ≤ b.toNat) : tomlQuoteByte b = [b] := by
  have hne : ∀ c : UInt8, c.toNat < 0x80 → b ≠ c := by
    rintro c hc rfl
    omega
  unfold tomlQuoteByte
  rw [if_neg (hne _ (by decide)), if_neg (hne _ (by decide)), if_neg (hne _ (by decide)),
    if_neg (hne _ (by decide)), if_neg (hne _ (by decide)), if_neg (by omega)]

/-- The bytes of an ASCII character are quoted as the character. -/
theorem tomlQuoteByte_ascii :
    ∀ n < 0x80, (String.utf8EncodeChar (Char.ofNat n)).flatMap tomlQuoteByte =
      utf8 (escaped (Char.ofNat n)) := by
  decide +kernel

/-- A character above the ASCII range is copied. -/
theorem escaped_of_le {c : Char} (h : 0x80 ≤ c.toNat) : escaped c = [c] := by
  have hne : ∀ d : Char, d.toNat < 0x80 → c ≠ d := by
    rintro d hd rfl
    omega
  unfold escaped
  rw [if_neg (hne _ (by decide)), if_neg (hne _ (by decide)), if_neg (hne _ (by decide)),
    if_neg (hne _ (by decide)), if_neg (hne _ (by decide)), if_neg (by omega)]

/-- The bytes of a character are quoted as the character is. -/
theorem flatMap_tomlQuoteByte (c : Char) :
    (String.utf8EncodeChar c).flatMap tomlQuoteByte = utf8 (escaped c) := by
  by_cases h : c.toNat < 0x80
  · have := tomlQuoteByte_ascii c.toNat h
    rwa [Char.ofNat_toNat] at this
  · have hb : ∀ b ∈ String.utf8EncodeChar c, tomlQuoteByte b = [b] := fun b hb =>
      tomlQuoteByte_of_le (le_of_mem_utf8EncodeChar (not_lt.mp h) hb)
    rw [escaped_of_le (not_lt.mp h), utf8_cons, utf8_nil, List.append_nil,
      List.flatMap_congr hb, List.flatMap_singleton']

/-- **The loop on bytes is the loop on characters.** -/
theorem tomlQuote_utf8 (cs : List Char) : tomlQuote (utf8 cs) = utf8 (quoted cs) := by
  have h : (utf8 cs).flatMap tomlQuoteByte = utf8 (cs.flatMap escaped) := by
    rw [utf8_flatMap, utf8, List.flatMap_assoc]
    exact List.flatMap_congr fun c _ => flatMap_tomlQuoteByte c
  unfold tomlQuote quoted
  rw [h, utf8_cons, utf8_append]
  rfl

/-! ## Reading it back -/

/-- The delete character. -/
def del : Char := Char.ofNat 0x7F

/-- A digit that is written is read. -/
theorem hexVal_hexDigit (n : ℕ) : Toml.hexVal (hexDigit n) = some (n % 16) := by
  have h : ∀ k < 16, Toml.hexVal (hex.getD k '0') = some k := by decide
  exact h _ (Nat.mod_lt _ (by decide))

/-- Prepending what the loop makes of a character to a text the grammar reads. -/
theorem body_escaped_append {c : Char} (hc : c ≠ del) {t v : List Char} (h : Toml.Body t v) :
    Toml.Body (escaped c ++ t) (c :: v) := by
  unfold escaped
  split_ifs with h₁ h₂ h₃ h₄ h₅ h₆
  · exact Toml.Body.escaped (by rw [h₁]; rfl) h
  · exact Toml.Body.escaped (by rw [h₂]; rfl) h
  · exact Toml.Body.escaped (by rw [h₃]; rfl) h
  · exact Toml.Body.escaped (by rw [h₄]; rfl) h
  · exact Toml.Body.escaped (by rw [h₅]; rfl) h
  · -- a control character: the two digits are those of its number
    have hlen : ['0', '0', hexDigit (c.toNat / 16), hexDigit c.toNat].length = 4 := rfl
    refine Toml.Body.unicode4 (n := c.toNat) hlen ?_ ?_ h
    · have h0 : Toml.hexVal '0' = some 0 := rfl
      simp only [Toml.hexNumber, h0, hexVal_hexDigit, Option.some.injEq]
      omega
    · have hv : c.toNat.isValidChar := Or.inl (by omega)
      rw [Toml.scalar, if_pos hv, Char.ofNat_toNat]
  · refine Toml.Body.unescaped ?_ h
    have hd : c.toNat ≠ 0x7F := fun h => hc (by rw [← Char.ofNat_toNat c, h]; rfl)
    have hq : c.toNat ≠ 0x22 := fun h => h₁ (by rw [← Char.ofNat_toNat c, h])
    have hb : c.toNat ≠ 0x5C := fun h => h₂ (by rw [← Char.ofNat_toNat c, h])
    have hs : c = ' ' ∨ c.toNat ≠ 0x20 := by
      by_cases h : c.toNat = 0x20
      · exact Or.inl (by rw [← Char.ofNat_toNat c, h])
      · exact Or.inr h
    simp only [Toml.basicUnescaped, Bool.or_eq_true, Bool.and_eq_true, decide_eq_true_eq]
    rcases hs with rfl | hs
    · exact Or.inl (Or.inl (Or.inl (Or.inl (Or.inr rfl))))
    · have : c.toNat = 0x21 ∨ (0x23 ≤ c.toNat ∧ c.toNat ≤ 0x5B) ∨
          (0x5D ≤ c.toNat ∧ c.toNat ≤ 0x7E) ∨ 0x80 ≤ c.toNat := by omega
      tauto

/-- A text without U+007F is read back. -/
theorem body_escaped {cs : List Char} (h : del ∉ cs) : Toml.Body (cs.flatMap escaped) cs := by
  induction cs with
  | nil => exact Toml.Body.nil
  | cons c cs ih =>
      rw [List.flatMap_cons]
      refine body_escaped_append ?_ (ih fun hm => h (List.mem_cons_of_mem _ hm))
      rintro rfl
      exact h List.mem_cons_self

/-- U+007F reaches the quoted text as it is. -/
theorem del_mem_flatMap_escaped {cs : List Char} (h : del ∈ cs) : del ∈ cs.flatMap escaped :=
  List.mem_flatMap.mpr ⟨del, h, by decide⟩

/-- **Quoting is a correct TOML encoder exactly on the texts without U+007F**: there, and only
there, the quoted bytes are the UTF-8 form of a basic string that stands for the text. -/
theorem tomlQuote_basicString_iff (cs : List Char) :
    (∃ t, tomlQuote (utf8 cs) = utf8 t ∧ Toml.BasicString t cs) ↔ del ∉ cs := by
  constructor
  · rintro ⟨t, ht, body, rfl, hb⟩ hdel
    rw [tomlQuote_utf8] at ht
    have hbody : cs.flatMap escaped = body := by
      have := utf8_injective ht
      simpa [quoted] using this
    -- the grammar has no bare U+007F, and the loop leaves one
    have hm : del ∈ body := hbody ▸ del_mem_flatMap_escaped hdel
    rcases hb.plain_of_mem del hm with h | h
    · exact absurd h (by decide)
    · exact h.2 rfl
  · intro h
    exact ⟨quoted cs, tomlQuote_utf8 cs, cs.flatMap escaped, rfl, body_escaped h⟩

/-- The name `"A\x7f"` is written with a bare U+007F, which no basic string holds. -/
theorem tomlQuote_del :
    tomlQuote [0x41, 0x7F] = [0x22, 0x41, 0x7F, 0x22] ∧
      ¬∃ t v, tomlQuote [0x41, 0x7F] = utf8 t ∧ Toml.BasicString t v := by
  have hq : tomlQuote [0x41, 0x7F] = utf8 ['"', 'A', del, '"'] := by decide
  refine ⟨by decide, ?_⟩
  rintro ⟨t, v, ht, body, rfl, hb⟩
  have hm : del ∈ body := by
    have := utf8_injective (hq.symm.trans ht)
    have hbody : ['A', del] = body := by
      have h' : ['A', del] ++ ['"'] = body ++ ['"'] := List.tail_eq_of_cons_eq this
      exact List.append_cancel_right h'
    rw [← hbody]
    exact List.mem_cons_of_mem _ List.mem_cons_self
  rcases hb.plain_of_mem del hm with h | h
  · exact absurd h (by decide)
  · exact h.2 rfl

end Axan.LaunchEntryWire
