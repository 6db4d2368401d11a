import Mathlib

/-!
# Wide text

The strings of the Windows sources are `std::wstring` / `hstring` values: sequences of 16-bit
code units, compared unit by unit. Here a code unit is `Fin 65536` (so the lexicographic order on
`WString` is the one `std::map<std::wstring, …>` sorts by) and a wide string is a list of units.

* `wide`, `L` — the wide form of a character and of a literal (`L"…"` in the sources).
* `utf16` — the wide form of a text, with surrogate pairs above the basic plane; different texts
  have different ones (`utf16_injective`).
* `trimBlank` — the two loops that drop a class of units from the front, then from the back.
* `cutAt` — the two sides of the first occurrence of a unit (`find` plus two `substr`s).
-/

namespace Axan.Base

/-- One UTF-16 code unit (`wchar_t`). -/
abbrev WChar := Fin 65536

instance wChar_neZero : NeZero 65536 := ⟨by decide⟩

/-- A wide string, as its code units. -/
abbrev WString := List WChar

/-- The code unit of a character of the basic plane (`L'c'`). -/
def wide (c : Char) : WChar := Fin.ofNat 65536 c.toNat

/-- A wide string literal (`L"…"`). -/
def L (s : String) : WString := s.toList.map wide

/-- Is the unit between two characters, bounds included? -/
def inRange (lo hi : Char) (ch : WChar) : Bool := lo.toNat ≤ ch.val && ch.val ≤ hi.toNat

/-- The code units of a character. -/
def utf16Char (c : Char) : WString :=
  if c.toNat < 0x10000 then [Fin.ofNat 65536 c.toNat]
  else
    [Fin.ofNat 65536 (0xD800 + (c.toNat - 0x10000) / 0x400),
      Fin.ofNat 65536 (0xDC00 + (c.toNat - 0x10000) % 0x400)]

/-- The wide form of a UTF-8 text (`winrt::to_hstring`). -/
def utf16 (cs : List Char) : WString := cs.flatMap utf16Char

/-- Units below the bound are their numbers. -/
theorem eq_of_ofNat_eq {m n : ℕ} (hm : m < 0x10000) (hn : n < 0x10000)
    (h : Fin.ofNat 65536 m = Fin.ofNat 65536 n) : m = n := by
  have hval := congrArg Fin.val h
  rw [Fin.val_ofNat, Fin.val_ofNat] at hval
  rwa [Nat.mod_eq_of_lt hm, Nat.mod_eq_of_lt hn] at hval

/-- A character is its number. -/
theorem eq_of_toNat_eq {c d : Char} (h : c.toNat = d.toNat) : c = d := by
  rw [← Char.ofNat_toNat c, ← Char.ofNat_toNat d, h]

/-- A character is no surrogate, and below the end of the code space. -/
theorem toNat_bounds (c : Char) :
    (c.toNat < 0xD800 ∨ 0xDFFF < c.toNat) ∧ c.toNat < 0x110000 := by
  rcases c.valid with hv | hv
  · exact ⟨Or.inl hv, hv.trans (by decide)⟩
  · exact ⟨Or.inr hv.1, hv.2⟩

/-- Every character has a unit. -/
theorem utf16Char_ne_nil (c : Char) : utf16Char c ≠ [] := by
  rw [utf16Char]
  split <;> exact List.cons_ne_nil _ _

/-- The first units of a wide text tell its first character. -/
theorem utf16Char_append_inj {c d : Char} {s t : WString}
    (h : utf16Char c ++ s = utf16Char d ++ t) : c = d ∧ s = t := by
  obtain ⟨hc, hc'⟩ := toNat_bounds c
  obtain ⟨hd, hd'⟩ := toNat_bounds d
  rw [utf16Char, utf16Char] at h
  split_ifs at h with hlc hld hld
  · obtain ⟨hhead, htail⟩ := List.cons.inj h
    exact ⟨eq_of_toNat_eq (eq_of_ofNat_eq hlc hld hhead), htail⟩
  · -- a high surrogate is no character
    have hhead := eq_of_ofNat_eq (by omega) (by omega) (List.cons.inj h).1
    omega
  · have hhead := eq_of_ofNat_eq (by omega) (by omega) (List.cons.inj h).1
    omega
  · obtain ⟨hhead, htail⟩ := List.cons.inj h
    obtain ⟨hsecond, htail⟩ := List.cons.inj htail
    have hhigh := eq_of_ofNat_eq (by omega) (by omega) hhead
    have hlow := eq_of_ofNat_eq (by omega) (by omega) hsecond
    exact ⟨eq_of_toNat_eq (by omega), htail⟩

/-- Different texts have different units. -/
theorem utf16_injective : Function.Injective utf16 := by
  intro cs
  induction cs with
  | nil =>
      intro ds h
      cases ds with
      | nil => rfl
      | cons d ds => exact absurd (List.append_eq_nil_iff.mp h.symm).1 (utf16Char_ne_nil d)
  | cons c cs ih =>
      intro ds h
      cases ds with
      | nil => exact absurd (List.append_eq_nil_iff.mp h).1 (utf16Char_ne_nil c)
      | cons d ds =>
          obtain ⟨rfl, htail⟩ := utf16Char_append_inj h
          rw [ih htail]

/-- Is the character in the ASCII range? -/
def isAscii (c : Char) : Bool := c.toNat < 0x80

/-- Only the capital ASCII letters have another lower case. -/
theorem toNat_toLower (c : Char) :
    c.toLower.toNat = if 'A' ≤ c ∧ c ≤ 'Z' then c.toNat + 32 else c.toNat := by
  unfold Char.toLower
  split_ifs with h h' h'
  · have hle : c.toNat ≤ 'Z'.toNat := h.2
    have hZ : 'Z'.toNat = 0x5A := rfl
    change (c.val + 32).toNat = c.val.toNat + 32
    rw [UInt32.toNat_add]
    exact Nat.mod_eq_of_lt (by change c.toNat + 32 < _; omega)
  · exact absurd h h'
  · exact absurd h' h
  · rfl

/-- The lower case of an ASCII character is ASCII. -/
theorem isAscii_toLower {c : Char} (h : isAscii c = true) : isAscii c.toLower = true := by
  unfold isAscii at h ⊢
  rw [decide_eq_true_eq] at h ⊢
  rw [toNat_toLower]
  split_ifs with hupper
  · have hZ : c.toNat ≤ 'Z'.toNat := hupper.2
    exact lt_of_le_of_lt (Nat.add_le_add_right hZ 32) (by decide)
  · exact h

/-- The wide form of an ASCII text. -/
theorem utf16_of_ascii {ds : List Char} (hd : ∀ d ∈ ds, isAscii d = true) :
    utf16 ds = ds.map wide := by
  induction ds with
  | nil => rfl
  | cons d ds ih =>
      have hascii : d.toNat < 0x80 := of_decide_eq_true (hd d List.mem_cons_self)
      rw [utf16, List.flatMap_cons, utf16Char, if_pos (by omega), List.map_cons]
      exact congrArg (wide d :: ·) (ih fun d' hd' => hd d' (List.mem_cons_of_mem _ hd'))

/-- A text whose wide form is that of an ASCII text is that text. -/
theorem eq_of_utf16_eq {cs ds : List Char} (hd : ∀ d ∈ ds, isAscii d = true)
    (h : utf16 cs = ds.map wide) : cs = ds :=
  utf16_injective (h.trans (utf16_of_ascii hd).symm)

section trim

variable {α : Type} (blank : α → Bool)

/-- Drop the blank elements at the front, then those at the back. -/
def trimBlank (s : List α) : List α := (s.dropWhile blank).rdropWhile blank

@[simp] theorem trimBlank_nil : trimBlank blank [] = [] := by simp [trimBlank]

/-- Trimming keeps every element that is not blank. -/
theorem mem_trimBlank_of_mem {s : List α} {a : α} (h : a ∈ s) (ha : blank a = false) :
    a ∈ trimBlank blank s := by
  have hdrop : ∀ l : List α, a ∈ l → a ∈ l.dropWhile blank := by
    intro l
    induction l with
    | nil => simp
    | cons b l ih =>
        intro hl
        rw [List.dropWhile_cons]
        split_ifs with hb
        · rcases List.mem_cons.mp hl with rfl | hl
          · rw [ha] at hb; cases hb
          · exact ih hl
        · exact hl
  rw [trimBlank, List.rdropWhile, List.mem_reverse]
  exact hdrop _ (List.mem_reverse.mpr (hdrop s h))

/-- A run of blanks in front of a non-blank last element is trimmed away. -/
theorem trimBlank_replicate_append {b a : α} (hb : blank b = true) (ha : blank a = false)
    (n : ℕ) : trimBlank blank (List.replicate n b ++ [a]) = [a] := by
  induction n with
  | zero => simp [trimBlank, ha, List.rdropWhile]
  | succ n ih =>
      have hd : (List.replicate (n + 1) b ++ [a]).dropWhile blank =
          (List.replicate n b ++ [a]).dropWhile blank := by
        simp [List.replicate_succ, List.dropWhile_cons, hb]
      rw [trimBlank, hd]
      exact ih

end trim

section cut

variable {α : Type} [DecidableEq α] (sep : α)

/-- The parts before and after the first `sep`, or `none` when there is no `sep`. -/
def cutAt : List α → Option (List α × List α)
  | [] => none
  | a :: s => if a = sep then some ([], s) else (cutAt s).map fun p => (a :: p.1, p.2)

/-- There is nothing to cut exactly when the separator does not occur. -/
theorem cutAt_eq_none_iff {s : List α} : cutAt sep s = none ↔ sep ∉ s := by
  induction s with
  | nil => simp [cutAt]
  | cons a s ih =>
      by_cases h : a = sep
      · simp [cutAt, h]
      · simp [cutAt, h, ih, Ne.symm h]

variable {sep}

/-- The two sides of a cut, put together again. -/
theorem eq_of_cutAt {s b r : List α} (h : cutAt sep s = some (b, r)) :
    s = b ++ sep :: r ∧ sep ∉ b := by
  induction s generalizing b with
  | nil => cases h
  | cons a s ih =>
      unfold cutAt at h
      split_ifs at h with ha
      · cases h
        exact ⟨by rw [ha]; rfl, List.not_mem_nil⟩
      · obtain ⟨p, hp, heq⟩ := Option.map_eq_some_iff.mp h
        cases heq
        obtain ⟨hs, hb⟩ := ih hp
        exact ⟨by rw [hs]; rfl, List.not_mem_cons_of_ne_of_not_mem (Ne.symm ha) hb⟩

/-- A text is cut at the first separator. -/
theorem cutAt_append {b : List α} (h : sep ∉ b) (r : List α) :
    cutAt sep (b ++ sep :: r) = some (b, r) := by
  induction b with
  | nil => simp [cutAt]
  | cons a b ih =>
      obtain ⟨ha, hb⟩ := not_or.mp (mt List.mem_cons.mpr h)
      rw [List.cons_append, cutAt, if_neg (Ne.symm ha), ih hb]
      rfl

end cut

/-! ### Joining -/

/-- Joined images are the image of the joined parts. -/
theorem map_intercalate {α β : Type} (f : α → β) (sep : List α) (ls : List (List α)) :
    (sep.intercalate ls).map f = (sep.map f).intercalate (ls.map (List.map f)) := by
  induction ls with
  | nil => rfl
  | cons l ls ih =>
      cases ls with
      | nil => simp
      | cons l' ls =>
          rw [List.intercalate_cons_cons, List.map_append, List.map_append, ih]
          simp only [List.map_cons, List.intercalate_cons_cons]

/-- What is in a part is in the joined text. -/
theorem mem_intercalate_of_mem {α : Type} {sep l : List α} {ls : List (List α)} {a : α}
    (hl : l ∈ ls) (ha : a ∈ l) : a ∈ sep.intercalate ls := by
  induction ls with
  | nil => cases hl
  | cons l' ls ih =>
      cases ls with
      | nil =>
          rw [List.mem_singleton.mp hl] at ha
          rwa [List.intercalate_singleton]
      | cons l'' ls =>
          rw [List.intercalate_cons_cons, List.mem_append, List.mem_append]
          rcases List.mem_cons.mp hl with rfl | hl
          · exact Or.inl (Or.inl ha)
          · exact Or.inr (ih hl)

/-- What is in the joined text is in a part or the separator. -/
theorem mem_intercalate {α : Type} {sep : List α} {ls : List (List α)} {a : α}
    (h : a ∈ sep.intercalate ls) : a ∈ sep ∨ ∃ l ∈ ls, a ∈ l := by
  induction ls with
  | nil => cases h
  | cons l ls ih =>
      cases ls with
      | nil =>
          rw [List.intercalate_singleton] at h
          exact Or.inr ⟨l, List.mem_cons_self, h⟩
      | cons l' ls =>
          rw [List.intercalate_cons_cons, List.mem_append, List.mem_append] at h
          rcases h with (h | h) | h
          · exact Or.inr ⟨l, List.mem_cons_self, h⟩
          · exact Or.inl h
          · rcases ih h with h | ⟨m, hm, h⟩
            · exact Or.inl h
            · exact Or.inr ⟨m, List.mem_cons_of_mem _ hm, h⟩

end Axan.Base
