import Axan.Base.Text

/-!
# TOML basic strings

The single-line basic string of TOML 1.0, first as the grammar writes it and then as a machine
that reads one character at a time, and the UTF-8 form in which a file holds either.

* `utf8`, `utf8Decode` — characters as bytes and back (`utf8Decode_utf8`, `utf8_injective`).
* `Body` — the alternatives of `*basic-char`, each with the character it stands for;
  `BasicString` puts the quotation marks around it. No text of the grammar holds a control
  character other than the tab (`Body.plain_of_mem`).
* `readBody` — the machine; `readBody_iff` says that it reads exactly the grammar.
-/

namespace Axan.Base

/-- A byte string (`std::string`). -/
abbrev Bytes := List UInt8

/-- The UTF-8 encoding of a text. -/
def utf8 (cs : List Char) : Bytes := cs.flatMap String.utf8EncodeChar

@[simp] theorem utf8_nil : utf8 [] = [] := rfl

@[simp] theorem utf8_cons (c : Char) (cs : List Char) :
    utf8 (c :: cs) = String.utf8EncodeChar c ++ utf8 cs := rfl

/-- Texts are encoded part by part. -/
@[simp] theorem utf8_append (cs ds : List Char) : utf8 (cs ++ ds) = utf8 cs ++ utf8 ds := by
  simp [utf8]

theorem utf8_flatMap {α : Type} (l : List α) (f : α → List Char) :
    utf8 (l.flatMap f) = l.flatMap fun a => utf8 (f a) := by
  simp [utf8, List.flatMap_assoc]

/-- A byte string literal (`"…"`). -/
def lit (s : String) : Bytes := utf8 s.toList

/-- The text of a byte string, when it is UTF-8. -/
def utf8Decode (b : Bytes) : Option (List Char) := b.toByteArray.utf8Decode?.map Array.toList

/-- What was encoded is decoded again. -/
@[simp] theorem utf8Decode_utf8 (cs : List Char) : utf8Decode (utf8 cs) = some cs := by
  have h : (utf8 cs).toByteArray = cs.utf8Encode := rfl
  unfold utf8Decode
  rw [h, List.utf8Decode?_utf8Encode]
  rfl

/-- Different texts have different bytes. -/
theorem utf8_injective : Function.Injective utf8 := by
  intro cs ds h
  have := congrArg utf8Decode h
  rwa [utf8Decode_utf8, utf8Decode_utf8, Option.some.injEq] at this

/-- A character above the ASCII range is encoded in bytes above it. -/
theorem le_of_mem_utf8EncodeChar {c : Char} (h : 0x80 ≤ c.toNat) {b : UInt8}
    (hb : b ∈ String.utf8EncodeChar c) : 0x80 ≤ b.toNat := by
  have h' : 0x80 ≤ c.val.toNat := h
  unfold String.utf8EncodeChar at hb
  simp only at hb
  split_ifs at hb <;>
    simp only [List.mem_cons, List.not_mem_nil, or_false] at hb <;>
    rcases hb with rfl | rfl | rfl | rfl <;> simp <;> omega

namespace Toml

/-! ## The grammar -/

/-- `basic-unescaped = wschar / %x21 / %x23-5B / %x5D-7E / non-ascii` -/
def basicUnescaped (c : Char) : Bool :=
  c = '\t' || c = ' ' || c.toNat = 0x21 || (0x23 ≤ c.toNat && c.toNat ≤ 0x5B) ||
    (0x5D ≤ c.toNat && c.toNat ≤ 0x7E) || 0x80 ≤ c.toNat

/-- The escapes of one character: `\"`, `\\`, `\b`, `\f`, `\n`, `\r`, `\t`. -/
def simpleEscape (e : Char) : Option Char :=
  if e = '"' then some '"'
  else if e = '\\' then some '\\'
  else if e = 'b' then some (Char.ofNat 8)
  else if e = 'f' then some (Char.ofNat 12)
  else if e = 'n' then some '\n'
  else if e = 'r' then some '\r'
  else if e = 't' then some '\t'
  else none

/-- `HEXDIG`, in either case. -/
def hexVal (c : Char) : Option ℕ :=
  if 0x30 ≤ c.toNat ∧ c.toNat ≤ 0x39 then some (c.toNat - 0x30)
  else if 0x41 ≤ c.toNat ∧ c.toNat ≤ 0x46 then some (c.toNat - 0x41 + 10)
  else if 0x61 ≤ c.toNat ∧ c.toNat ≤ 0x66 then some (c.toNat - 0x61 + 10)
  else none

/-- The number hexadecimal digits continue `acc` to. -/
def hexNumber : ℕ → List Char → Option ℕ
  | acc, [] => some acc
  | acc, d :: ds =>
      match hexVal d with
      | none => none
      | some x => hexNumber (16 * acc + x) ds

/-- The Unicode scalar value of a number; surrogates and larger numbers have none. -/
def scalar (n : ℕ) : Option Char := if n.isValidChar then some (Char.ofNat n) else none

/-- `*basic-char`, with the text it stands for. -/
inductive Body : List Char → List Char → Prop where
  | nil : Body [] []
  /-- `basic-unescaped` -/
  | unescaped {c : Char} {t v : List Char} :
      basicUnescaped c = true → Body t v → Body (c :: t) (c :: v)
  /-- `escape ( %x22 / %x5C / %x62 / %x66 / %x6E / %x72 / %x74 )` -/
  | escaped {e c : Char} {t v : List Char} :
      simpleEscape e = some c → Body t v → Body ('\\' :: e :: t) (c :: v)
  /-- `escape %x75 4HEXDIG` -/
  | unicode4 {ds : List Char} {n : ℕ} {c : Char} {t v : List Char} :
      ds.length = 4 → hexNumber 0 ds = some n → scalar n = some c → Body t v →
      Body ('\\' :: 'u' :: (ds ++ t)) (c :: v)
  /-- `escape %x55 8HEXDIG` -/
  | unicode8 {ds : List Char} {n : ℕ} {c : Char} {t v : List Char} :
      ds.length = 8 → hexNumber 0 ds = some n → scalar n = some c → Body t v →
      Body ('\\' :: 'U' :: (ds ++ t)) (c :: v)

/-- `basic-string = quotation-mark *basic-char quotation-mark`, with the text it stands for. -/
def BasicString (t v : List Char) : Prop := ∃ body, t = '"' :: (body ++ ['"']) ∧ Body body v

/-- Hexadecimal digits are plain characters. -/
theorem plain_of_hexNumber {ds : List Char} {acc n : ℕ} (h : hexNumber acc ds = some n) :
    ∀ d ∈ ds, 0x20 ≤ d.toNat ∧ d.toNat ≠ 0x7F := by
  induction ds generalizing acc with
  | nil => simp
  | cons d ds ih =>
      rw [hexNumber] at h
      cases hd : hexVal d with
      | none => rw [hd] at h; cases h
      | some x =>
          rw [hd] at h
          intro e he
          rcases List.mem_cons.mp he with rfl | he
          · unfold hexVal at hd
            split_ifs at hd <;> omega
          · exact ih h e he

/-- So is what stands behind a backslash. -/
theorem plain_of_simpleEscape {e c : Char} (h : simpleEscape e = some c) :
    0x20 ≤ e.toNat ∧ e.toNat ≠ 0x7F := by
  unfold simpleEscape at h
  split_ifs at h with h₁ h₂ h₃ h₄ h₅ h₆ h₇ <;> subst_vars <;> decide

/-- The grammar has no text with a line break or another bare control character. -/
theorem Body.plain_of_mem {t v : List Char} (h : Body t v) :
    ∀ c ∈ t, c = '\t' ∨ 0x20 ≤ c.toNat ∧ c.toNat ≠ 0x7F := by
  have hback : 0x20 ≤ ('\\').toNat ∧ ('\\').toNat ≠ 0x7F := by decide
  induction h with
  | nil => simp
  | @unescaped c t v hc _ ih =>
      intro d hd
      rcases List.mem_cons.mp hd with rfl | hd
      · have hsp : (' ' : Char).toNat = 0x20 := rfl
        simp only [basicUnescaped, Bool.or_eq_true, Bool.and_eq_true, decide_eq_true_eq] at hc
        rcases hc with ((((hc | hc) | hc) | hc) | hc) | hc
        · exact Or.inl hc
        · right; rw [hc, hsp]; omega
        · right; omega
        · right; omega
        · right; omega
        · right; omega
      · exact ih d hd
  | escaped he _ ih =>
      intro d hd
      rcases List.mem_cons.mp hd with rfl | hd
      · exact Or.inr hback
      · rcases List.mem_cons.mp hd with rfl | hd
        · exact Or.inr (plain_of_simpleEscape he)
        · exact ih d hd
  | unicode4 _ hn _ _ ih =>
      intro d hd
      simp only [List.mem_cons, List.mem_append] at hd
      rcases hd with rfl | rfl | hd | hd
      · exact Or.inr hback
      · exact Or.inr (by decide)
      · exact Or.inr (plain_of_hexNumber hn d hd)
      · exact ih d hd
  | unicode8 _ hn _ _ ih =>
      intro d hd
      simp only [List.mem_cons, List.mem_append] at hd
      rcases hd with rfl | rfl | hd | hd
      · exact Or.inr hback
      · exact Or.inr (by decide)
      · exact Or.inr (plain_of_hexNumber hn d hd)
      · exact ih d hd

/-! ## The machine -/

/-- Where the machine stands inside a basic string. -/
inductive Pending where
  /-- Between characters. -/
  | plain
  /-- After a backslash. -/
  | escape
  /-- In a Unicode escape: one digit owed, and `more` after it. -/
  | hex (more acc : ℕ)
  deriving DecidableEq, Repr

/-- Read up to the closing quotation mark: the text stood for, and what follows the mark. -/
def readBody : Pending → List Char → Option (List Char × List Char)
  | _, [] => none
  | .plain, c :: t =>
      if c = '"' then some ([], t)
      else if c = '\\' then readBody .escape t
      else if basicUnescaped c then (readBody .plain t).map fun r => (c :: r.1, r.2)
      else none
  | .escape, e :: t =>
      if e = 'u' then readBody (.hex 3 0) t
      else if e = 'U' then readBody (.hex 7 0) t
      else
        match simpleEscape e with
        | some c => (readBody .plain t).map fun r => (c :: r.1, r.2)
        | none => none
  | .hex more acc, d :: t =>
      match hexVal d with
      | none => none
      | some x =>
          match more with
          | 0 =>
              match scalar (16 * acc + x) with
              | some c => (readBody .plain t).map fun r => (c :: r.1, r.2)
              | none => none
          | more + 1 => readBody (.hex more (16 * acc + x)) t

/-- The digits of an escape are read as its character. -/
theorem readBody_hex {ds : List Char} {more acc n : ℕ} {c : Char} (hlen : ds.length = more + 1)
    (hn : hexNumber acc ds = some n) (hc : scalar n = some c) (t : List Char) :
    readBody (.hex more acc) (ds ++ t) = (readBody .plain t).map fun r => (c :: r.1, r.2) := by
  induction ds generalizing more acc with
  | nil => simp at hlen
  | cons d ds ih =>
      rw [hexNumber] at hn
      rw [List.cons_append, readBody]
      cases hd : hexVal d with
      | none => rw [hd] at hn; cases hn
      | some x =>
          rw [hd] at hn
          cases more with
          | zero =>
              -- the last digit: the number is complete
              have hnil : ds = [] := by simpa using hlen
              subst hnil
              simp only [hexNumber, Option.some.injEq] at hn
              simp only [hn, hc, List.nil_append]
          | succ more => exact ih (by simpa using hlen) hn

/-- The machine reads what the grammar derives, up to the mark that closes it. -/
theorem readBody_of_body {body v : List Char} (h : Body body v) (rest : List Char) :
    readBody .plain (body ++ '"' :: rest) = some (v, rest) := by
  induction h with
  | nil => rw [List.nil_append, readBody, if_pos rfl]
  | @unescaped c t v hc _ ih =>
      have h₁ : c ≠ '"' := by rintro rfl; exact absurd hc (by decide)
      have h₂ : c ≠ '\\' := by rintro rfl; exact absurd hc (by decide)
      rw [List.cons_append, readBody, if_neg h₁, if_neg h₂, if_pos hc, ih]
      rfl
  | @escaped e c t v he _ ih =>
      have h₁ : e ≠ 'u' := by rintro rfl; cases he
      have h₂ : e ≠ 'U' := by rintro rfl; cases he
      rw [List.cons_append, readBody, if_neg (by decide), if_pos rfl, List.cons_append, readBody,
        if_neg h₁, if_neg h₂, he]
      simp only [ih]
      rfl
  | unicode4 hlen hn hc _ ih =>
      rw [List.cons_append, readBody, if_neg (by decide), if_pos rfl, List.cons_append, readBody,
        if_pos rfl, List.append_assoc, readBody_hex hlen hn hc, ih]
      rfl
  | unicode8 hlen hn hc _ ih =>
      rw [List.cons_append, readBody, if_neg (by decide), if_pos rfl, List.cons_append, readBody,
        if_neg (by decide), if_pos rfl, List.append_assoc, readBody_hex hlen hn hc, ih]
      rfl

/-- What the machine has still to see, by state, when it ends with `v`. -/
def Owed : Pending → List Char → List Char → Prop
  | .plain, body, v => Body body v
  | .escape, body, v => Body ('\\' :: body) v
  | .hex more acc, body, v => ∃ ds t n c v', body = ds ++ t ∧ v = c :: v' ∧
      ds.length = more + 1 ∧ hexNumber acc ds = some n ∧ scalar n = some c ∧ Body t v'

/-- The machine stops only at a closing mark, having read what was owed. -/
theorem owed_of_readBody {q : Pending} {t v rest : List Char}
    (h : readBody q t = some (v, rest)) : ∃ body, t = body ++ '"' :: rest ∧ Owed q body v := by
  induction t generalizing q v rest with
  | nil => simp [readBody] at h
  | cons c t ih =>
      -- after a character `d` the machine goes on between characters
      have hpush : ∀ {d : Char},
          (readBody .plain t).map (fun r => (d :: r.1, r.2)) = some (v, rest) →
          ∃ body v', t = body ++ '"' :: rest ∧ v = d :: v' ∧ Body body v' := by
        intro d h
        obtain ⟨⟨v', r⟩, hr, he⟩ := Option.map_eq_some_iff.mp h
        obtain ⟨rfl, rfl⟩ := Prod.mk.inj he
        obtain ⟨body, rfl, hb⟩ := ih hr
        exact ⟨body, v', rfl, rfl, hb⟩
      cases q with
      | plain =>
          rw [readBody] at h
          by_cases h₁ : c = '"'
          · rw [if_pos h₁, Option.some.injEq, Prod.mk.injEq] at h
            obtain ⟨rfl, rfl⟩ := h
            exact ⟨[], by rw [h₁]; rfl, Body.nil⟩
          rw [if_neg h₁] at h
          by_cases h₂ : c = '\\'
          · rw [if_pos h₂] at h
            obtain ⟨body, rfl, hb⟩ := ih h
            exact ⟨'\\' :: body, by rw [h₂]; rfl, hb⟩
          rw [if_neg h₂] at h
          by_cases h₃ : basicUnescaped c = true
          · rw [if_pos h₃] at h
            obtain ⟨body, v', rfl, rfl, hb⟩ := hpush h
            exact ⟨c :: body, rfl, Body.unescaped h₃ hb⟩
          · rw [if_neg h₃] at h
            cases h
      | escape =>
          rw [readBody] at h
          by_cases h₁ : c = 'u'
          · rw [if_pos h₁] at h
            obtain ⟨body, rfl, ds, t, n, d, v', rfl, rfl, hlen, hn, hd, hb⟩ := ih h
            exact ⟨'u' :: (ds ++ t), by rw [h₁]; rfl, Body.unicode4 hlen hn hd hb⟩
          rw [if_neg h₁] at h
          by_cases h₂ : c = 'U'
          · rw [if_pos h₂] at h
            obtain ⟨body, rfl, ds, t, n, d, v', rfl, rfl, hlen, hn, hd, hb⟩ := ih h
            exact ⟨'U' :: (ds ++ t), by rw [h₂]; rfl, Body.unicode8 hlen hn hd hb⟩
          rw [if_neg h₂] at h
          cases he : simpleEscape c with
          | none => rw [he] at h; cases h
          | some d =>
              rw [he] at h
              obtain ⟨body, v', rfl, rfl, hb⟩ := hpush h
              exact ⟨c :: body, rfl, Body.escaped he hb⟩
      | hex more acc =>
          rw [readBody] at h
          cases hx : hexVal c with
          | none => rw [hx] at h; cases h
          | some x =>
              rw [hx] at h
              cases more with
              | zero =>
                  simp only at h
                  cases hs : scalar (16 * acc + x) with
                  | none => rw [hs] at h; cases h
                  | some d =>
                      rw [hs] at h
                      obtain ⟨body, v', rfl, rfl, hb⟩ := hpush h
                      refine ⟨c :: body, rfl, [c], body, _, d, v', rfl, rfl, rfl, ?_, hs, hb⟩
                      simp [hexNumber, hx]
              | succ more =>
                  obtain ⟨body, rfl, ds, t, n, d, v', rfl, rfl, hlen, hn, hd, hb⟩ := ih h
                  refine ⟨c :: (ds ++ t), rfl, c :: ds, t, n, d, v', rfl, rfl, ?_, ?_, hd, hb⟩
                  · simp [hlen]
                  · simp [hexNumber, hx, hn]

/-- **The machine reads exactly the grammar.** -/
theorem readBody_iff {t v rest : List Char} :
    readBody .plain t = some (v, rest) ↔ ∃ body, t = body ++ '"' :: rest ∧ Body body v := by
  refine ⟨owed_of_readBody, ?_⟩
  rintro ⟨body, rfl, hb⟩
  exact readBody_of_body hb rest

end Toml

end Axan.Base
