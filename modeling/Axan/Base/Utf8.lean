import Axan.Base.Text

/-!
# UTF-8 in numbers

The bytes of a character as natural numbers, by the four lengths.

* `utf8Char`, `octets` — the bytes of a character and of a text.
* `ByteString`, `byte`, `B` — a C string without its terminator, and the bytes of literals.
* `utf8Char_eq` — the bytes by the size of the code point.
* `ValidUtf8`, `valid_flatten_iff` — the bytes of a text, and when beginnings of such strings, one
  behind the other, are one.
-/

namespace Axan.Base

/-- The bytes of a character. -/
def utf8Char (c : Char) : List ℕ := (String.utf8EncodeChar c).map UInt8.toNat

/-- The bytes of a text. -/
def octets (cs : List Char) : List ℕ := cs.flatMap utf8Char

/-- The byte of an ASCII character (`'c'`). -/
def byte (c : Char) : ℕ := c.toNat

/-- A C string, as its bytes before the terminator. -/
abbrev ByteString := List ℕ

/-- A string literal (`"…"` in the Linux sources). -/
def B (s : String) : ByteString := octets s.toList

theorem octets_nil : octets [] = [] := rfl

theorem octets_cons (c : Char) (cs : List Char) : octets (c :: cs) = utf8Char c ++ octets cs := rfl

/-- An octet is less than 256. -/
theorem octets_lt (cs : List Char) : ∀ b ∈ octets cs, b < 256 := by
  intro b hb
  obtain ⟨c, -, hc⟩ := List.mem_flatMap.mp hb
  obtain ⟨u, -, rfl⟩ := List.mem_map.mp hc
  exact u.toNat_lt

/-- The bytes of a character by its number. -/
theorem utf8Char_eq (c : Char) : utf8Char c =
    if c.toNat < 0x80 then [c.toNat]
    else if c.toNat < 0x800 then [c.toNat / 64 + 0xC0, c.toNat % 64 + 0x80]
    else if c.toNat < 0x10000 then
      [c.toNat / 4096 + 0xE0, c.toNat / 64 % 64 + 0x80, c.toNat % 64 + 0x80]
    else
      [c.toNat / 262144 + 0xF0, c.toNat / 4096 % 64 + 0x80, c.toNat / 64 % 64 + 0x80,
        c.toNat % 64 + 0x80] := by
  have hc : c.toNat < 0x110000 := by
    rcases c.valid with hv | hv
    · exact hv.trans (by decide)
    · exact hv.2
  have hval : c.val.toNat = c.toNat := rfl
  unfold utf8Char String.utf8EncodeChar
  simp only [hval]
  split_ifs <;> first | omega | simp only [List.map_cons, List.map_nil, UInt8.toNat_ofNat',
    List.cons.injEq, and_true]
  · omega
  · exact ⟨by omega, by omega⟩
  · exact ⟨by omega, by omega, by omega⟩
  · exact ⟨by omega, by omega, by omega, by omega⟩

/-- Different characters have different bytes. -/
theorem byte_injective : Function.Injective byte := fun _ _ h => eq_of_toNat_eq h

/-- An ASCII character is one byte. -/
theorem utf8Char_of_isAscii {c : Char} (h : isAscii c = true) : utf8Char c = [byte c] := by
  rw [utf8Char_eq, if_pos (of_decide_eq_true h)]
  rfl

/-- The bytes of another one are not ASCII. -/
theorem le_of_mem_utf8Char {c : Char} (h : isAscii c = false) {b : ℕ} (hb : b ∈ utf8Char c) :
    0x80 ≤ b := by
  rw [utf8Char_eq, if_neg (of_decide_eq_false h)] at hb
  split_ifs at hb <;> simp only [List.mem_cons, List.not_mem_nil, or_false] at hb <;> omega

/-! ### Valid strings -/

/-- The bytes of some text. -/
def ValidUtf8 (bs : ByteString) : Prop := ∃ cs, octets cs = bs

/-- Texts are encoded part by part. -/
theorem octets_append (s t : List Char) : octets (s ++ t) = octets s ++ octets t :=
  List.flatMap_append

/-- Valid parts are valid together. -/
theorem ValidUtf8.append {a b : ByteString} (ha : ValidUtf8 a) (hb : ValidUtf8 b) :
    ValidUtf8 (a ++ b) := by
  obtain ⟨s, rfl⟩ := ha
  obtain ⟨t, rfl⟩ := hb
  exact ⟨s ++ t, octets_append s t⟩

/-- The empty string is valid. -/
theorem validUtf8_nil : ValidUtf8 [] := ⟨[], rfl⟩

/-- A byte that only continues a character. -/
def IsContinuation (b : ℕ) : Prop := 0x80 ≤ b ∧ b < 0xC0

/-- The number of bytes a first byte announces. -/
def announced (b : ℕ) : ℕ := if b < 0x80 then 1 else if b < 0xE0 then 2 else if b < 0xF0 then 3 else 4

/-- A character is a byte that announces its length, and bytes that continue it. -/
theorem exists_utf8Char (c : Char) : ∃ b rest, utf8Char c = b :: rest ∧ ¬ IsContinuation b ∧
    (b :: rest).length = announced b ∧ ∀ x ∈ rest, IsContinuation x := by
  have hc : c.toNat < 0x110000 := by
    rcases c.valid with hv | hv
    · exact hv.trans (by decide)
    · exact hv.2
  unfold IsContinuation announced
  rw [utf8Char_eq]
  split_ifs
  · refine ⟨_, _, rfl, by omega, ?_, by simp⟩
    rw [if_pos (by omega)]
    rfl
  · refine ⟨_, _, rfl, by omega, ?_, ?_⟩
    · rw [if_neg (by omega), if_pos (by omega)]
      rfl
    · simp only [List.mem_cons, List.not_mem_nil, or_false, forall_eq]
      omega
  · refine ⟨_, _, rfl, by omega, ?_, ?_⟩
    · rw [if_neg (by omega), if_neg (by omega), if_pos (by omega)]
      rfl
    · simp only [List.mem_cons, List.not_mem_nil, or_false, forall_eq_or_imp, forall_eq]
      omega
  · refine ⟨_, _, rfl, by omega, ?_, ?_⟩
    · rw [if_neg (by omega), if_neg (by omega), if_neg (by omega)]
      rfl
    · simp only [List.mem_cons, List.not_mem_nil, or_false, forall_eq_or_imp, forall_eq]
      omega

/-- A string that does not begin inside a character. -/
def StartsWhole (bs : ByteString) : Prop := ∀ b, bs.head? = some b → ¬ IsContinuation b

/-- Two characters in front of the same string are as long as each other. -/
theorem length_utf8Char_eq {c d : Char} {s t : ByteString} (h : utf8Char c ++ s = utf8Char d ++ t) :
    (utf8Char c).length = (utf8Char d).length := by
  obtain ⟨b, u, hc, -, hlen, -⟩ := exists_utf8Char c
  obtain ⟨b', u', hd, -, hlen', -⟩ := exists_utf8Char d
  rw [hc, hd] at h ⊢
  rw [hlen, hlen', (List.cons.inj h).1]

/-- A character can be taken off the front of a valid string. -/
theorem ValidUtf8.of_cons {c : Char} {s : ByteString} (h : ValidUtf8 (utf8Char c ++ s)) :
    ValidUtf8 s := by
  obtain ⟨ds, hds⟩ := h
  cases ds with
  | nil =>
      obtain ⟨b, u, hc, -⟩ := exists_utf8Char c
      rw [hc] at hds
      cases hds
  | cons d ds =>
      rw [octets_cons] at hds
      exact ⟨ds, (List.append_inj hds (length_utf8Char_eq hds)).2⟩

/-- What follows whole characters in a valid string is valid. -/
theorem ValidUtf8.of_octets (cs : List Char) {s : ByteString} (h : ValidUtf8 (octets cs ++ s)) :
    ValidUtf8 s := by
  induction cs with
  | nil => exact h
  | cons c cs ih =>
      rw [octets_cons, List.append_assoc] at h
      exact ih h.of_cons

/-- A valid string is as long as its first byte announces. -/
theorem ValidUtf8.announced_le {b : ℕ} {s : ByteString} (h : ValidUtf8 (b :: s)) :
    announced b ≤ s.length + 1 := by
  obtain ⟨cs, hcs⟩ := h
  cases cs with
  | nil => cases hcs
  | cons c cs =>
      obtain ⟨x, u, hc, -, hlen, -⟩ := exists_utf8Char c
      rw [octets_cons, hc] at hcs
      obtain ⟨rfl, rfl⟩ := List.cons.inj hcs
      rw [← hlen, List.append_eq, List.length_append, List.length_cons]
      omega

/-- A text starts with a whole character. -/
theorem startsWhole_octets (cs : List Char) : StartsWhole (octets cs) := by
  intro b hb
  cases cs with
  | nil => cases hb
  | cons c cs =>
      obtain ⟨b', u, hc, hfirst, -⟩ := exists_utf8Char c
      rw [octets_cons, hc] at hb
      cases hb
      exact hfirst

/-- So does a prefix of it. -/
theorem startsWhole_of_isPrefix {a b : ByteString} (h : a <+: b) (hb : StartsWhole b) :
    StartsWhole a := by
  obtain ⟨t, rfl⟩ := h
  cases a with
  | nil => exact fun x hx => absurd hx (by simp)
  | cons x a => exact fun y hy => hb y hy

/-- The beginning of a valid string is valid when something that does not begin inside a character
makes it valid. -/
theorem ValidUtf8.of_append {cs : List Char} {b r : ByteString} (hb : b <+: octets cs)
    (h : ValidUtf8 (b ++ r)) (hr : StartsWhole r) : ValidUtf8 b := by
  induction cs generalizing b with
  | nil =>
      rw [List.prefix_nil.mp hb]
      exact validUtf8_nil
  | cons c cs ih =>
      rw [octets_cons] at hb
      by_cases hlen : (utf8Char c).length ≤ b.length
      · -- the character is in it
        obtain ⟨b', rfl⟩ := List.prefix_of_prefix_length_le (List.prefix_append _ _) hb hlen
        rw [List.append_assoc] at h
        obtain ⟨s, hs⟩ := ih ((List.prefix_append_right_inj _).mp hb) h.of_cons
        exact ⟨c :: s, by rw [octets_cons, hs]⟩
      · -- a part of the character, which what follows has to continue
        have hpart : b <+: utf8Char c :=
          List.prefix_of_prefix_length_le hb (List.prefix_append _ _) (by omega)
        cases b with
        | nil => exact validUtf8_nil
        | cons x b =>
            obtain ⟨ds, hds⟩ := h
            cases ds with
            | nil => cases hds
            | cons d ds =>
                obtain ⟨y, u, hc, -, hclen, -⟩ := exists_utf8Char c
                obtain ⟨z, w, hd, -, hdlen, hcont⟩ := exists_utf8Char d
                rw [hc] at hpart hlen
                obtain ⟨rfl, -⟩ := List.cons_prefix_cons.mp hpart
                rw [octets_cons, hd] at hds
                obtain rfl := (List.cons.inj hds).1
                have htail : w ++ octets ds = b ++ r := (List.cons.inj hds).2
                -- what is missing of the character is in front of the rest
                have hlt : b.length < w.length := by
                  rw [hclen, ← hdlen] at hlen
                  exact Nat.lt_of_succ_lt_succ (not_le.mp hlen)
                have hbw : b <+: w := List.prefix_of_prefix_length_le ⟨r, htail.symm⟩
                  (List.prefix_append w (octets ds)) hlt.le
                obtain ⟨t, rfl⟩ := hbw
                cases t with
                | nil => simp at hlt
                | cons v t =>
                    rw [List.append_assoc] at htail
                    have hrv := List.append_cancel_left htail
                    refine absurd (hcont v ?_) (hr v ?_)
                    · exact List.mem_append_right _ List.mem_cons_self
                    · rw [← hrv]
                      rfl

/-- So do two in a row. -/
theorem startsWhole_append {a b : ByteString} (ha : StartsWhole a) (hb : StartsWhole b) :
    StartsWhole (a ++ b) := by
  cases a with
  | nil => exact hb
  | cons x a => exact fun y hy => ha y hy

/-- An ASCII byte is a whole character. -/
theorem startsWhole_of_lt {b : ℕ} (h : b < 0x80) (bs : ByteString) : StartsWhole (b :: bs) := by
  intro x hx
  cases hx
  exact fun hcont => absurd hcont.1 (not_le.mpr h)

/-- Beginnings of valid strings, one behind the other, are valid exactly when each of them is: what
is cut off of a character is not made up for by what follows. -/
theorem valid_flatten_iff {bs : List ByteString} (h : ∀ b ∈ bs, ∃ cs, b <+: octets cs) :
    ValidUtf8 bs.flatten ↔ ∀ b ∈ bs, ValidUtf8 b := by
  constructor
  · intro hvalid
    induction bs with
    | nil => exact fun b hb => absurd hb List.not_mem_nil
    | cons b bs ih =>
        have hbs : ∀ b' ∈ bs, ∃ cs, b' <+: octets cs := fun b' hb' =>
          h b' (List.mem_cons_of_mem _ hb')
        have hstarts : StartsWhole bs.flatten := by
          clear ih hvalid h
          induction bs with
          | nil => exact fun x hx => absurd hx (by simp)
          | cons b' bs ih =>
              obtain ⟨cs, hcs⟩ := hbs b' List.mem_cons_self
              exact startsWhole_append (startsWhole_of_isPrefix hcs (startsWhole_octets cs))
                (ih fun a ha => hbs a (List.mem_cons_of_mem _ ha))
        obtain ⟨cs, hcs⟩ := h b List.mem_cons_self
        rw [List.flatten_cons] at hvalid
        have hb := hvalid.of_append hcs hstarts
        refine List.forall_mem_cons.mpr ⟨hb, ih hbs ?_⟩
        obtain ⟨s, rfl⟩ := hb
        exact hvalid.of_octets s
  · intro hvalid
    induction bs with
    | nil => exact validUtf8_nil
    | cons b bs ih =>
        obtain ⟨hb, hbs⟩ := List.forall_mem_cons.mp hvalid
        exact hb.append (ih (fun b' hb' => h b' (List.mem_cons_of_mem _ hb')) hbs)

/-- The part of a valid string before an ASCII byte is valid. -/
theorem ValidUtf8.of_append_ascii {b r : ByteString} {x : ℕ} (h : ValidUtf8 (b ++ x :: r))
    (hx : x < 0x80) : ValidUtf8 b := by
  obtain ⟨cs, hcs⟩ := h
  have hb : b <+: octets cs := hcs ▸ List.prefix_append _ _
  exact ValidUtf8.of_append hb ⟨cs, hcs⟩ (startsWhole_of_lt hx r)

/-- A string without continuation bytes is valid only when it is ASCII. -/
theorem ValidUtf8.lt_of_no_continuation {bs : ByteString} (h : ValidUtf8 bs)
    (hbs : ∀ b ∈ bs, ¬ IsContinuation b) : ∀ b ∈ bs, b < 0x80 := by
  obtain ⟨cs, rfl⟩ := h
  induction cs with
  | nil => exact fun b hb => absurd hb List.not_mem_nil
  | cons c cs ih =>
      obtain ⟨b, rest, hc, -, hlen, hcont⟩ := exists_utf8Char c
      rw [octets_cons, hc] at hbs ⊢
      cases rest with
      | cons x rest =>
          exact absurd (hcont x List.mem_cons_self) (hbs x (List.mem_cons_of_mem _ List.mem_cons_self))
      | nil =>
          refine List.forall_mem_cons.mpr ⟨?_, ih fun x hx => hbs x (List.mem_cons_of_mem _ hx)⟩
          unfold announced at hlen
          split_ifs at hlen with hlt <;> first | exact hlt | cases hlen

/-- Different characters have different octets. -/
theorem utf8Char_injective : Function.Injective utf8Char := by
  intro c d h
  apply eq_of_toNat_eq
  rw [utf8Char_eq, utf8Char_eq] at h
  split_ifs at h <;> simp only [List.cons.injEq, and_true, reduceCtorEq, and_false] at h <;> omega

/-- Texts whose bytes start alike start alike. -/
theorem prefix_of_octets_prefix {s t : List Char} (h : octets s <+: octets t) : s <+: t := by
  induction s generalizing t with
  | nil => exact List.nil_prefix
  | cons c s ih =>
      obtain ⟨r, hr⟩ := h
      cases t with
      | nil =>
          obtain ⟨b, rest, hc, -⟩ := exists_utf8Char c
          rw [octets_cons, hc] at hr
          cases hr
      | cons d t =>
          rw [octets_cons, octets_cons, List.append_assoc] at hr
          obtain ⟨hcd, hst⟩ := List.append_inj hr (length_utf8Char_eq hr)
          rw [utf8Char_injective hcd]
          exact (List.prefix_cons_inj _).mpr (ih ⟨r, hst⟩)

theorem octets_injective : Function.Injective octets := by
  intro s t h
  have hst : s <+: t := prefix_of_octets_prefix (h ▸ List.prefix_rfl)
  have hts : t <+: s := prefix_of_octets_prefix (h ▸ List.prefix_rfl)
  exact hst.eq_of_length (le_antisymm hst.length_le hts.length_le)

/-- Every character has an octet. -/
theorem length_le_octets (s : List Char) : s.length ≤ (octets s).length := by
  induction s with
  | nil => exact le_rfl
  | cons c s ih =>
      obtain ⟨b, rest, hc, -⟩ := exists_utf8Char c
      rw [octets_cons, hc, List.length_append, List.length_cons, List.length_cons]
      omega

/-- A text that is not empty has octets. -/
theorem octets_ne_nil {s : List Char} (h : s ≠ []) : octets s ≠ [] := by
  intro heq
  have hlen := length_le_octets s
  rw [heq] at hlen
  exact h (List.length_eq_zero_iff.mp (Nat.le_zero.mp hlen))

end Axan.Base
