import Axan.Base.Pieces
import Axan.Base.Utf8

/-!
# The initials of a collapsed cell

A cell of the collapsed column shows up to four characters of the row's label: the first letters of
its words, or the beginning of its first word. The words are cut out character by character, their
first letters and the beginning byte by byte.

* `Glib` — lower case and the class of letters and digits, and what is assumed of them.
* `sidebarMakeInitials` — the function.
* `sidebarMakeInitials_eq` — what it returns, by the words of the lower-cased name.
* `initials_are_characters_iff` — when it returns whole characters.
* `initials_follow_rule_iff` — when it follows the rule in its comment.
-/

namespace Axan.RowLabel

open Axan.Base

/-- The two functions on characters, with what is assumed of them. -/
structure Glib where
  /-- `g_utf8_strdown` -/
  strdown : List Char → List Char
  /-- `g_unichar_isalnum` -/
  isAlnum : Char → Bool
  /-- Lower case leaves a letter or digit where there is one, and makes none. -/
  any_strdown : ∀ s, (strdown s).any isAlnum = s.any isAlnum
  isAlnum_space : isAlnum ' ' = false

/-! ### The function -/

/-- One round of the cleaning loop: the cleaned text, and whether a separator was last. -/
def cleanStep (G : Glib) (st : ByteString × Bool) (c : Char) : ByteString × Bool :=
  if G.isAlnum c then (st.1 ++ utf8Char c, false)
  else if !st.2 then (st.1 ++ [byte ' '], true)
  else st

/-- The words of the name, with a space between. -/
def cleaned (G : Glib) (folded : List Char) : ByteString :=
  (folded.foldl (cleanStep G) ([], true)).1.rdropWhile (· = byte ' ')

/-- The parts between the separators; an empty text has none. Source: `g_strsplit` -/
def gStrsplit (s : ByteString) (delimiter : ℕ) : List ByteString :=
  if s = [] then [] else s.splitOn delimiter

/-- The loop over the parts, with what it has put together. -/
def initialsLoop (maxChars : ℕ) : ByteString → List ByteString → ByteString
  | out, [] => out
  | out, part :: parts =>
      if out.length < maxChars then initialsLoop maxChars (out ++ part.take 1) parts else out

/-- Too few words: the beginning of the first word instead. -/
def orPrefix (maxChars : ℕ) (parts : List ByteString) (out : ByteString) : ByteString :=
  match parts with
  | [] => out
  | first :: _ => if out.length < maxChars ∧ first ≠ [] then first.take maxChars else out

/-- The placeholder of a cell without letters. -/
def placeholder : ByteString := B "·"

/-- The largest number of characters. -/
def clampChars (maxChars : ℕ) : ℕ :=
  let maxChars := if maxChars = 0 then 2 else maxChars
  if 8 < maxChars then 8 else maxChars

/-- Source: `sidebar_make_initials` -/
def sidebarMakeInitials (G : Glib) (name : List Char) (maxChars : ℕ) : ByteString :=
  let maxChars := clampChars maxChars
  if name = [] then placeholder
  else
    let parts := gStrsplit (cleaned G (G.strdown name)) (byte ' ')
    let out := orPrefix maxChars parts (initialsLoop maxChars [] parts)
    if out = [] then placeholder else out

/-! ### The words -/

/-- The words of the lower-cased name. -/
def Glib.wordsOf (G : Glib) (name : List Char) : List (List Char) := words G.isAlnum (G.strdown name)

/-- Words with a space between. -/
def joinWords (ws : List (List Char)) : ByteString := [byte ' '].intercalate (ws.map octets)

/-- A run of letters and digits is copied. -/
theorem foldl_cleanStep_run {G : Glib} {run : List Char} (h : ∀ c ∈ run, G.isAlnum c = true)
    (hne : run ≠ []) (st : ByteString × Bool) :
    run.foldl (cleanStep G) st = (st.1 ++ octets run, false) := by
  induction run generalizing st with
  | nil => exact absurd rfl hne
  | cons c run ih =>
      have hstep : cleanStep G st c = (st.1 ++ utf8Char c, false) := if_pos (h c List.mem_cons_self)
      rw [List.foldl_cons, hstep]
      cases run with
      | nil => rw [List.foldl_nil, octets_cons, octets_nil, List.append_nil]
      | cons d run =>
          rw [ih (fun x hx => h x (List.mem_cons_of_mem _ hx)) (List.cons_ne_nil _ _),
            octets_cons c, List.append_assoc]

/-- One word is joined to itself. -/
theorem joinWords_singleton (w : List Char) : joinWords [w] = octets w :=
  List.intercalate_singleton

/-- Words are joined by a blank. -/
theorem joinWords_cons (w : List Char) {ws : List (List Char)} (h : ws ≠ []) :
    joinWords (w :: ws) = octets w ++ byte ' ' :: joinWords ws := by
  obtain ⟨v, ws, rfl⟩ := List.exists_cons_of_ne_nil h
  unfold joinWords
  rw [List.map_cons, List.map_cons, List.intercalate_cons_cons, List.append_assoc]
  rfl

/-- What the cleaning loop adds to a text that ends between words: the words with a space between,
and one behind them when a separator is last. -/
theorem foldl_cleanStep (G : Glib) (folded : List Char) (out : ByteString) :
    ∃ tail, (tail = [] ∨ (words G.isAlnum folded ≠ [] ∧ tail = [byte ' '])) ∧
      (folded.foldl (cleanStep G) (out, true)).1 =
        out ++ (joinWords (words G.isAlnum folded) ++ tail) := by
  induction folded using words.induct G.isAlnum generalizing out with
  | case1 =>
      refine ⟨[], Or.inl rfl, ?_⟩
      rw [words]
      exact (List.append_nil out).symm
  | case2 a s h ih =>
      have hrun : ∀ c ∈ a :: s.takeWhile G.isAlnum, G.isAlnum c = true :=
        List.forall_mem_cons.mpr ⟨h, fun c hc => List.mem_takeWhile_imp hc⟩
      have hfold : (a :: s).foldl (cleanStep G) (out, true) =
          (s.dropWhile G.isAlnum).foldl (cleanStep G)
            (out ++ octets (a :: s.takeWhile G.isAlnum), false) := by
        rw [← foldl_cleanStep_run hrun (List.cons_ne_nil _ _) (out, true), ← List.foldl_append,
          List.cons_append, List.takeWhile_append_dropWhile]
      rw [hfold, words_of_pos h]
      have hnext := List.head?_dropWhile_not G.isAlnum s
      cases hdrop : s.dropWhile G.isAlnum with
      | nil =>
          refine ⟨[], Or.inl rfl, ?_⟩
          rw [words, joinWords_singleton, List.append_nil, List.foldl_nil]
      | cons d rest =>
          rw [hdrop] at ih hnext
          -- the separator is one space, and the loop goes on between words
          obtain ⟨tail, htail, heq⟩ := ih (out ++ octets (a :: s.takeWhile G.isAlnum) ++ [byte ' '])
          have hd : ¬ G.isAlnum d = true := by simpa using hnext
          rw [List.foldl_cons, cleanStep, if_neg hd] at heq ⊢
          simp only [Bool.not_true, Bool.not_false, Bool.false_eq_true, if_false, if_true] at heq ⊢
          rw [heq]
          by_cases hws : words G.isAlnum (d :: rest) = []
          · obtain rfl := htail.resolve_right fun h => h.1 hws
            refine ⟨[byte ' '], Or.inr ⟨List.cons_ne_nil _ _, rfl⟩, ?_⟩
            rw [hws, joinWords_singleton]
            simp [joinWords]
          · refine ⟨tail, htail.imp id fun h => ⟨List.cons_ne_nil _ _, h.2⟩, ?_⟩
            rw [joinWords_cons _ hws]
            simp
  | case3 a s h ih =>
      obtain ⟨tail, htail, heq⟩ := ih out
      refine ⟨tail, ?_, ?_⟩
      · rw [words_of_neg h]
        exact htail
      · rw [List.foldl_cons, cleanStep, if_neg h, words_of_neg h]
        exact heq

/-- The words of a name have no space in their bytes. -/
theorem space_not_mem_octets {G : Glib} {folded w : List Char} (hw : w ∈ words G.isAlnum folded) :
    byte ' ' ∉ octets w := by
  intro hmem
  obtain ⟨c, hc, hbyte⟩ := List.mem_flatMap.mp hmem
  cases hascii : isAscii c with
  | true =>
      rw [utf8Char_of_isAscii hascii, List.mem_singleton] at hbyte
      have halnum := (mem_of_mem_words hw hc).2
      rw [← byte_injective hbyte, G.isAlnum_space] at halnum
      cases halnum
  | false => exact absurd (le_of_mem_utf8Char hascii hbyte) (by decide)

/-- Joined words end in no space. -/
theorem exists_joinWords_concat {ws : List (List Char)} (hne : ws ≠ [])
    (h : ∀ w ∈ ws, octets w ≠ [] ∧ byte ' ' ∉ octets w) :
    ∃ init b, joinWords ws = init ++ [b] ∧ b ≠ byte ' ' := by
  induction ws with
  | nil => exact absurd rfl hne
  | cons w ws ih =>
      cases ws with
      | nil =>
          obtain ⟨hw, hspace⟩ := h w List.mem_cons_self
          rw [joinWords_singleton]
          refine ⟨_, _, (List.dropLast_append_getLast hw).symm, ?_⟩
          intro heq
          exact hspace (heq ▸ List.getLast_mem hw)
      | cons v ws =>
          obtain ⟨init, b, heq, hb⟩ := ih (List.cons_ne_nil _ _) fun x hx =>
            h x (List.mem_cons_of_mem _ hx)
          refine ⟨octets w ++ byte ' ' :: init, b, ?_, hb⟩
          rw [joinWords_cons _ (List.cons_ne_nil _ _), heq, List.append_assoc, List.cons_append]

/-- The parts are the words of the name. -/
theorem gStrsplit_cleaned (G : Glib) (folded : List Char) :
    gStrsplit (cleaned G folded) (byte ' ') = (words G.isAlnum folded).map octets := by
  have hwords : ∀ w ∈ words G.isAlnum folded, octets w ≠ [] ∧ byte ' ' ∉ octets w := fun w hw =>
    ⟨octets_ne_nil (ne_nil_of_mem_words hw), space_not_mem_octets hw⟩
  obtain ⟨tail, htail, hfold⟩ := foldl_cleanStep G folded []
  have hblank : ∀ b ∈ tail, decide (b = byte ' ') = true := by
    obtain rfl | ⟨-, rfl⟩ := htail <;> simp
  unfold cleaned
  rw [hfold, List.nil_append, rdropWhile_append_of_blank hblank]
  by_cases hne : words G.isAlnum folded = []
  · rw [hne]
    rfl
  · obtain ⟨init, b, hjoin, hb⟩ := exists_joinWords_concat hne hwords
    rw [hjoin, List.rdropWhile_concat_neg _ _ _ (by simpa using hb), ← hjoin]
    unfold gStrsplit
    rw [if_neg (by rw [hjoin]; simp)]
    refine List.splitOn_intercalate _ (List.forall_mem_map.mpr fun w hw => (hwords w hw).2) ?_
    exact fun h => hne (List.map_eq_nil_iff.mp h)

/-! ### The result -/

/-- The first bytes of the words. -/
def firstBytes (ws : List (List Char)) : ByteString := ws.flatMap fun w => (octets w).take 1

/-- The loop takes the first byte of each part, up to the bound. -/
theorem initialsLoop_eq {maxChars : ℕ} {out : ByteString} {parts : List ByteString}
    (hparts : ∀ p ∈ parts, p ≠ []) :
    initialsLoop maxChars out parts =
      out ++ (parts.flatMap (List.take 1)).take (maxChars - out.length) := by
  induction parts generalizing out with
  | nil =>
      rw [List.flatMap_nil, List.take_nil, List.append_nil]
      rfl
  | cons p parts ih =>
      obtain ⟨b, p, rfl⟩ := List.exists_cons_of_ne_nil (hparts p List.mem_cons_self)
      unfold initialsLoop
      split_ifs with hlt
      · obtain ⟨k, hk⟩ : ∃ k, maxChars - out.length = k + 1 := ⟨maxChars - out.length - 1, by omega⟩
        rw [ih fun q hq => hparts q (List.mem_cons_of_mem _ hq), List.flatMap_cons, hk]
        simp only [List.take_succ_cons, List.take_zero, List.length_append, List.length_singleton,
          List.append_assoc, List.cons_append, List.nil_append]
        congr 3
        omega
      · rw [Nat.sub_eq_zero_of_le (not_lt.mp hlt), List.take_zero, List.append_nil]

/-- One byte for every word. -/
theorem length_firstBytes {ws : List (List Char)} (h : ∀ w ∈ ws, w ≠ []) :
    (firstBytes ws).length = ws.length := by
  induction ws with
  | nil => rfl
  | cons w ws ih =>
      obtain ⟨b, s, hb⟩ := List.exists_cons_of_ne_nil (octets_ne_nil (h w List.mem_cons_self))
      unfold firstBytes at ih ⊢
      rw [List.flatMap_cons, hb, List.length_append, ih fun x hx => h x (List.mem_cons_of_mem _ hx),
        List.length_cons]
      exact Nat.add_comm _ _

/-- First bytes are cut with their words. -/
theorem firstBytes_take {ws : List (List Char)} (h : ∀ w ∈ ws, w ≠ []) (k : ℕ) :
    (firstBytes ws).take k = firstBytes (ws.take k) := by
  have htake := @length_firstBytes (ws.take k) fun w hw => h w (List.mem_of_mem_take hw)
  have hall := length_firstBytes h
  have hsplit : firstBytes ws = firstBytes (ws.take k) ++ firstBytes (ws.drop k) := by
    unfold firstBytes
    rw [← List.flatMap_append, List.take_append_drop]
  by_cases hk : k ≤ ws.length
  · rw [List.length_take, Nat.min_eq_left hk] at htake
    rw [hsplit, List.take_left' htake]
  · rw [List.take_of_length_le (by omega), List.take_of_length_le (l := ws) (by omega)]

/-- So the loop gives the first bytes of the first words. -/
theorem initialsLoop_words {ws : List (List Char)} (h : ∀ w ∈ ws, w ≠ []) (maxChars : ℕ) :
    initialsLoop maxChars [] (ws.map octets) = firstBytes (ws.take maxChars) := by
  rw [initialsLoop_eq (List.forall_mem_map.mpr fun w hw => octets_ne_nil (h w hw)), List.nil_append,
    List.length_nil, Nat.sub_zero, List.flatMap_map]
  exact firstBytes_take h maxChars

/-- The empty name has no words. -/
theorem wordsOf_nil (G : Glib) : G.wordsOf [] = [] := by
  refine words_eq_nil_iff.mpr fun c hc => ?_
  have hany := G.any_strdown []
  rw [List.any_nil, List.any_eq_false] at hany
  exact Bool.eq_false_of_not_eq_true (hany c hc)

/-- A length from one to eight is not clamped. -/
theorem clampChars_eq {maxChars : ℕ} (h1 : 1 ≤ maxChars) (h8 : maxChars ≤ 8) :
    clampChars maxChars = maxChars := by
  unfold clampChars
  have hzero : ¬ maxChars = 0 := by omega
  dsimp only
  rw [if_neg hzero, if_neg (not_lt.mpr h8)]

/-- What the function returns: first bytes of words when there are enough of them, and else the
first bytes of the first word. -/
theorem sidebarMakeInitials_eq (G : Glib) (name : List Char) {maxChars : ℕ} (h1 : 1 ≤ maxChars)
    (h8 : maxChars ≤ 8) :
    sidebarMakeInitials G name maxChars =
      match G.wordsOf name with
      | [] => placeholder
      | w :: ws =>
          if maxChars ≤ (w :: ws).length then firstBytes ((w :: ws).take maxChars)
          else (octets w).take maxChars := by
  by_cases hname : name = []
  · subst hname
    rw [wordsOf_nil]
    unfold sidebarMakeInitials
    exact if_pos rfl
  have hne : ∀ w ∈ G.wordsOf name, w ≠ [] := fun w hw => ne_nil_of_mem_words hw
  have hparts : gStrsplit (cleaned G (G.strdown name)) (byte ' ') = (G.wordsOf name).map octets :=
    gStrsplit_cleaned G _
  unfold sidebarMakeInitials
  rw [clampChars_eq h1 h8, if_neg hname]
  dsimp only
  rw [hparts, initialsLoop_words hne]
  cases hws : G.wordsOf name with
  | nil =>
      have hnil : orPrefix maxChars (([] : List (List Char)).map octets)
          (firstBytes (([] : List (List Char)).take maxChars)) = [] := by
        rw [List.take_nil]
        rfl
      exact if_pos hnil
  | cons w ws =>
      rw [hws] at hne
      have hw : octets w ≠ [] := octets_ne_nil (hne w List.mem_cons_self)
      have hlen := @length_firstBytes ((w :: ws).take maxChars) fun v hv =>
        hne v (List.mem_of_mem_take hv)
      rw [List.length_take] at hlen
      have hstart : orPrefix maxChars ((w :: ws).map octets)
          (firstBytes ((w :: ws).take maxChars)) =
          if maxChars ≤ (w :: ws).length then firstBytes ((w :: ws).take maxChars)
          else (octets w).take maxChars := by
        unfold orPrefix
        rw [List.map_cons]
        dsimp only
        rw [hlen]
        by_cases henough : maxChars ≤ (w :: ws).length
        · rw [if_pos henough, if_neg fun h => absurd h.1 (by omega)]
        · rw [if_neg henough, if_pos ⟨by omega, hw⟩]
      have hout : orPrefix maxChars ((w :: ws).map octets)
          (firstBytes ((w :: ws).take maxChars)) ≠ [] := by
        rw [hstart]
        split_ifs with henough
        · intro heq
          rw [heq, List.length_nil] at hlen
          omega
        · rw [Ne, List.take_eq_nil_iff]
          exact not_or.mpr ⟨by omega, hw⟩
      rw [if_neg hout, hstart]

/-! ### Whole characters -/

/-- The first letters of words. -/
def firstLetters (ws : List (List Char)) : List Char := ws.filterMap List.head?

/-- Each word has one first letter. -/
theorem length_firstLetters {ws : List (List Char)} (h : ∀ w ∈ ws, w ≠ []) :
    (firstLetters ws).length = ws.length := by
  induction ws with
  | nil => rfl
  | cons w ws ih =>
      obtain ⟨c, s, rfl⟩ := List.exists_cons_of_ne_nil (h w List.mem_cons_self)
      have hfirst : (c :: s).head? = some c := rfl
      have hws := ih fun v hv => h v (List.mem_cons_of_mem _ hv)
      unfold firstLetters at hws ⊢
      rw [List.filterMap_cons_some hfirst, List.length_cons, List.length_cons, hws]

/-- A first byte is the first byte of the first letter of a word. -/
theorem mem_firstBytes {ws : List (List Char)} {b : ℕ} (h : b ∈ firstBytes ws) :
    ∃ w ∈ ws, ∃ c, w.head? = some c ∧ ∃ rest, utf8Char c = b :: rest := by
  obtain ⟨w, hw, hb⟩ := List.mem_flatMap.mp h
  cases w with
  | nil => cases hb
  | cons c w =>
      obtain ⟨x, rest, hc, -⟩ := exists_utf8Char c
      rw [octets_cons, hc, List.cons_append, List.take_succ_cons, List.take_zero,
        List.mem_singleton] at hb
      exact ⟨c :: w, hw, c, rfl, rest, by rw [hb]; exact hc⟩

/-- It begins with one of the first bytes. -/
theorem firstByte_mem {ws : List (List Char)} {w : List Char} (hw : w ∈ ws) {c : Char}
    (hc : w.head? = some c) : ∃ b rest, utf8Char c = b :: rest ∧ b ∈ firstBytes ws := by
  obtain ⟨s, rfl⟩ := List.head?_eq_some_iff.mp hc
  obtain ⟨b, rest, hb, -⟩ := exists_utf8Char c
  refine ⟨b, rest, hb, List.mem_flatMap.mpr ⟨c :: s, hw, ?_⟩⟩
  rw [octets_cons, hb]
  exact List.mem_cons_self

/-- Letters of ASCII are their first bytes. -/
theorem firstBytes_of_ascii {ws : List (List Char)}
    (h : ∀ w ∈ ws, ∀ c, w.head? = some c → isAscii c = true) :
    firstBytes ws = octets (firstLetters ws) := by
  induction ws with
  | nil => rfl
  | cons w ws ih =>
      have hws := ih fun v hv => h v (List.mem_cons_of_mem _ hv)
      unfold firstBytes firstLetters at hws ⊢
      rw [List.flatMap_cons, hws]
      cases w with
      | nil => rfl
      | cons c w =>
          have hfirst : (c :: w).head? = some c := rfl
          rw [List.filterMap_cons_some hfirst, octets_cons, octets_cons,
            utf8Char_of_isAscii (h (c :: w) List.mem_cons_self c rfl)]
          rfl

/-- First bytes are the bytes of a text exactly when the first letters are ASCII characters. -/
theorem validUtf8_firstBytes_iff {ws : List (List Char)} :
    ValidUtf8 (firstBytes ws) ↔ ∀ w ∈ ws, ∀ c, w.head? = some c → isAscii c = true := by
  constructor
  · intro h w hw c hc
    obtain ⟨b, rest, hb, hmem⟩ := firstByte_mem hw hc
    have hlt := h.lt_of_no_continuation (fun x hx => by
      obtain ⟨v, -, d, -, rest, hd⟩ := mem_firstBytes hx
      obtain ⟨y, u, hy, hfirst, -⟩ := exists_utf8Char d
      rw [hd] at hy
      obtain rfl := (List.cons.inj hy).1
      exact hfirst) b hmem
    by_contra hascii
    have hle := le_of_mem_utf8Char (Bool.eq_false_of_not_eq_true hascii)
      (b := b) (by rw [hb]; exact List.mem_cons_self)
    exact absurd hlt (not_lt.mpr hle)
  · intro h
    exact ⟨firstLetters ws, (firstBytes_of_ascii h).symm⟩

section Characters

variable {maxChars : ℕ} {P : Char → Prop}

/-- First bytes are whole characters when all of the first letters are ASCII characters. -/
theorem exists_characters_firstBytes_iff {ws : List (List Char)} (h1 : 1 ≤ maxChars)
    (henough : maxChars ≤ ws.length) (hne : ∀ w ∈ ws, w ≠ []) (hP : ∀ w ∈ ws, ∀ c ∈ w, P c) :
    (∃ cs, firstBytes (ws.take maxChars) = octets cs ∧ 1 ≤ cs.length ∧ cs.length ≤ maxChars ∧
        ∀ c ∈ cs, P c) ↔
      ∀ v ∈ ws.take maxChars, ∀ c, v.head? = some c → isAscii c = true := by
  rw [← validUtf8_firstBytes_iff]
  constructor
  · rintro ⟨cs, hcs, -⟩
    exact ⟨cs, hcs.symm⟩
  · intro h
    have htake : ∀ v ∈ ws.take maxChars, v ∈ ws := fun v hv => List.mem_of_mem_take hv
    refine ⟨firstLetters (ws.take maxChars), firstBytes_of_ascii (validUtf8_firstBytes_iff.mp h), ?_⟩
    rw [length_firstLetters fun v hv => hne v (htake v hv), List.length_take,
      Nat.min_eq_left henough]
    refine ⟨h1, le_rfl, fun c hc => ?_⟩
    obtain ⟨v, hv, hvc⟩ := List.mem_filterMap.mp hc
    exact hP v (htake v hv) c (List.mem_of_mem_head? hvc)

/-- The first bytes of a word are whole characters when they end behind one. -/
theorem exists_characters_take_iff {w : List Char} (h1 : 1 ≤ maxChars) (hw : w ≠ [])
    (hP : ∀ c ∈ w, P c) :
    (∃ cs, (octets w).take maxChars = octets cs ∧ 1 ≤ cs.length ∧ cs.length ≤ maxChars ∧
        ∀ c ∈ cs, P c) ↔ ValidUtf8 ((octets w).take maxChars) := by
  constructor
  · rintro ⟨cs, hcs, -⟩
    exact ⟨cs, hcs.symm⟩
  · rintro ⟨cs, hcs⟩
    have hpre : cs <+: w := prefix_of_octets_prefix (by
      rw [hcs]
      exact List.take_prefix _ _)
    have hlen := length_le_octets cs
    rw [hcs, List.length_take] at hlen
    refine ⟨cs, hcs.symm, ?_, by omega, fun c hc => hP c (hpre.subset hc)⟩
    rw [Nat.one_le_iff_ne_zero, Ne, List.length_eq_zero_iff]
    rintro rfl
    have hnil := hcs.symm
    rw [octets_nil, List.take_eq_nil_iff] at hnil
    exact hnil.elim (by omega) (octets_ne_nil hw)

end Characters

/-- The initials are whole characters exactly when there is no word, when the words whose first
letters are taken begin in ASCII, and when the bytes taken from a first word end between two
characters. -/
theorem initials_are_characters_iff (G : Glib) (name : List Char) {maxChars : ℕ}
    (h1 : 1 ≤ maxChars) (h8 : maxChars ≤ 8) :
    ((∃ cs, sidebarMakeInitials G name maxChars = octets cs ∧ 1 ≤ cs.length ∧
          cs.length ≤ maxChars ∧ ∀ c ∈ cs, G.isAlnum c = true ∧ c ∈ G.strdown name) ∨
        (name.any G.isAlnum = false ∧ sidebarMakeInitials G name maxChars = octets ['·'])) ↔
      match G.wordsOf name with
      | [] => True
      | w :: ws =>
          (maxChars ≤ (w :: ws).length ∧
              ∀ v ∈ (w :: ws).take maxChars, ∀ c, v.head? = some c → isAscii c = true) ∨
            ((w :: ws).length < maxChars ∧ ValidUtf8 ((octets w).take maxChars)) := by
  rw [sidebarMakeInitials_eq G name h1 h8]
  cases hws : G.wordsOf name with
  | nil =>
      refine iff_of_true (Or.inr ⟨?_, (by decide : placeholder = octets ['·'])⟩) trivial
      rw [← G.any_strdown, List.any_eq_false]
      exact fun c hc => ne_true_of_eq_false (words_eq_nil_iff.mp hws c hc)
  | cons w ws =>
      have hmem : ∀ v ∈ w :: ws, ∀ c ∈ v, G.isAlnum c = true ∧ c ∈ G.strdown name := by
        intro v hv c hc
        rw [← hws] at hv
        exact (mem_of_mem_words hv hc).symm
      have hne : ∀ v ∈ w :: ws, v ≠ [] := fun v hv =>
        ne_nil_of_mem_words (hws ▸ hv : v ∈ G.wordsOf name)
      have hany : name.any G.isAlnum = true := by
        obtain ⟨c, hc⟩ := List.exists_mem_of_ne_nil _ (hne w List.mem_cons_self)
        obtain ⟨halnum, hfolded⟩ := hmem w List.mem_cons_self c hc
        rw [← G.any_strdown]
        exact List.any_eq_true.mpr ⟨c, hfolded, halnum⟩
      rw [hany]
      dsimp only
      by_cases henough : maxChars ≤ (w :: ws).length
      · rw [if_pos henough, exists_characters_firstBytes_iff h1 henough hne hmem]
        simp only [henough, true_and, not_lt.mpr henough, false_and, or_false, Bool.true_eq_false]
      · rw [if_neg henough, exists_characters_take_iff h1 (hne w List.mem_cons_self)
          (hmem w List.mem_cons_self)]
        simp only [henough, not_le.mp henough, true_and, false_and, false_or, or_false,
          Bool.true_eq_false]

/-! ### Two sets of characters -/

/-- A letter stays one in lower case. -/
theorem isAlphanum_toLower (c : Char) : c.toLower.isAlphanum = c.isAlphanum := by
  by_cases h : c.isUpper = true
  · simp [Char.isAlphanum, Char.isAlpha, h]
  · rw [Char.toLower_eq_of_not_isUpper h]

/-- ASCII, and one letter beyond it. -/
def smallGlib : Glib where
  strdown := List.map Char.toLower
  isAlnum := fun c => c.isAlphanum || c = 'é'
  any_strdown := by
    intro s
    rw [List.any_map]
    refine congrArg s.any (funext fun c => ?_)
    by_cases h : c.isUpper = true
    · simp [Char.isAlphanum, Char.isAlpha, h]
    · rw [Function.comp_apply, Char.toLower_eq_of_not_isUpper h]
  isAlnum_space := by decide

theorem initials_are_characters_iff_server :
    ((∃ cs, sidebarMakeInitials smallGlib "dev-server".toList 2 = octets cs ∧ 1 ≤ cs.length ∧
          cs.length ≤ 2 ∧
          ∀ c ∈ cs, smallGlib.isAlnum c = true ∧ c ∈ smallGlib.strdown "dev-server".toList) ∨
        ("dev-server".toList.any smallGlib.isAlnum = false ∧
          sidebarMakeInitials smallGlib "dev-server".toList 2 = octets ['·'])) ↔
      match smallGlib.wordsOf "dev-server".toList with
      | [] => True
      | w :: ws =>
          (2 ≤ (w :: ws).length ∧
              ∀ v ∈ (w :: ws).take 2, ∀ c, v.head? = some c → isAscii c = true) ∨
            ((w :: ws).length < 2 ∧ ValidUtf8 ((octets w).take 2)) :=
  initials_are_characters_iff smallGlib "dev-server".toList (by decide) (by decide)

/-- The initials of `été server` are half a letter and an `s`. -/
theorem not_initials_are_characters :
    ¬ ((∃ cs, sidebarMakeInitials smallGlib "été server".toList 2 = octets cs ∧ 1 ≤ cs.length ∧
          cs.length ≤ 2 ∧
          ∀ c ∈ cs, smallGlib.isAlnum c = true ∧ c ∈ smallGlib.strdown "été server".toList) ∨
        ("été server".toList.any smallGlib.isAlnum = false ∧
          sidebarMakeInitials smallGlib "été server".toList 2 = octets ['·'])) := by
  have hout : sidebarMakeInitials smallGlib "été server".toList 2 = [0xC3, 0x73] := by decide
  rw [hout]
  rintro (⟨cs, hcs, -⟩ | ⟨-, hdot⟩)
  · have hvalid : ValidUtf8 [0xC3, 0x73] := ⟨cs, hcs.symm⟩
    have hlt := hvalid.lt_of_no_continuation (by unfold IsContinuation; decide)
    exact absurd (hlt 0xC3 List.mem_cons_self) (by decide)
  · exact absurd hdot (by decide)

/-! ### The rule for ASCII names -/

/-- What lower case and the class of letters and digits do in ASCII, outside the Turkic locales. -/
structure Glib.AsciiCase (G : Glib) : Prop where
  strdown : ∀ s, s.all isAscii = true → G.strdown s = s.map Char.toLower
  isAlnum : ∀ c, isAscii c = true → G.isAlnum c = c.isAlphanum

/-- The maximal runs of letters and digits of the lower-cased name. -/
def asciiWords (name : List Char) : List (List Char) :=
  words Char.isAlphanum (name.map Char.toLower)

/-- The rule: the beginning of a single word, and else one letter of each leading word. -/
def abbreviation (maxChars : ℕ) : List (List Char) → List Char
  | [w] => w.take maxChars
  | ws => firstLetters (ws.take maxChars)

/-- An ASCII name has its ASCII words. -/
theorem wordsOf_of_ascii {G : Glib} (hG : G.AsciiCase) {name : List Char}
    (h : name.all isAscii = true) : G.wordsOf name = asciiWords name := by
  unfold Glib.wordsOf asciiWords
  rw [hG.strdown name h]
  refine words_congr fun c hc => ?_
  obtain ⟨d, hd, rfl⟩ := List.mem_map.mp hc
  exact hG.isAlnum _ (isAscii_toLower (List.all_eq_true.mp h d hd))

/-- The words of an ASCII name are ASCII. -/
theorem isAscii_of_mem_asciiWords {name w : List Char} (h : name.all isAscii = true)
    (hw : w ∈ asciiWords name) : ∀ c ∈ w, isAscii c = true := by
  intro c hc
  obtain ⟨d, hd, rfl⟩ := List.mem_map.mp (mem_of_mem_words hw hc).1
  exact isAscii_toLower (List.all_eq_true.mp h d hd)

/-- ASCII is one byte a character. -/
theorem octets_of_ascii {s : List Char} (h : ∀ c ∈ s, isAscii c = true) :
    octets s = s.map byte := by
  induction s with
  | nil => rfl
  | cons c s ih =>
      rw [octets_cons, utf8Char_of_isAscii (h c List.mem_cons_self),
        ih fun d hd => h d (List.mem_cons_of_mem _ hd)]
      rfl

/-- A list that is short enough is only the beginning of itself. -/
theorem take_eq_iff {s t : List Char} {n : ℕ} (h : t.length < n) : s.take n = t ↔ s = t := by
  constructor
  · intro heq
    have hlen := congrArg List.length heq
    rw [List.length_take] at hlen
    rwa [List.take_of_length_le (by omega)] at heq
  · rintro rfl
    exact List.take_of_length_le h.le

/-- For an ASCII name the rule is followed exactly when there is one word, when there are at least
as many words as characters, or when the first word happens to be spelled by the first letters:
with fewer words the first letters are thrown away for the beginning of the first word. -/
theorem initials_follow_rule_iff {G : Glib} (hG : G.AsciiCase) {name : List Char}
    (hascii : name.all isAscii = true) (halnum : name.any Char.isAlphanum = true) {maxChars : ℕ}
    (h1 : 1 ≤ maxChars) (h8 : maxChars ≤ 8) :
    sidebarMakeInitials G name maxChars = octets (abbreviation maxChars (asciiWords name)) ↔
      (asciiWords name).length = 1 ∨ maxChars ≤ (asciiWords name).length ∨
        (asciiWords name).head? = some (firstLetters (asciiWords name)) := by
  have hwords := wordsOf_of_ascii hG hascii
  have hchars : ∀ w ∈ asciiWords name, ∀ c ∈ w, isAscii c = true := fun w hw =>
    isAscii_of_mem_asciiWords hascii hw
  have hne : ∀ w ∈ asciiWords name, w ≠ [] := fun w hw => ne_nil_of_mem_words hw
  rw [sidebarMakeInitials_eq G name h1 h8, hwords]
  cases hws : asciiWords name with
  | nil =>
      have hnone := words_eq_nil_iff.mp hws
      obtain ⟨c, hc, hp⟩ := List.any_eq_true.mp halnum
      rw [← isAlphanum_toLower, hnone _ (List.mem_map_of_mem hc)] at hp
      cases hp
  | cons w ws =>
      rw [hws] at hchars hne
      dsimp only
      have htake : (octets w).take maxChars = octets (w.take maxChars) := by
        have hw := hchars w List.mem_cons_self
        rw [octets_of_ascii hw, octets_of_ascii fun c hc => hw c (List.mem_of_mem_take hc),
          List.map_take]
      have hletters : firstBytes ((w :: ws).take maxChars) =
          octets (firstLetters ((w :: ws).take maxChars)) :=
        firstBytes_of_ascii fun v hv c hc =>
          hchars v (List.mem_of_mem_take hv) c (List.mem_of_mem_head? hc)
      cases ws with
      | nil =>
          refine iff_of_true ?_ (Or.inl rfl)
          split_ifs with henough
          · obtain rfl : maxChars = 1 := le_antisymm henough h1
            exact (List.flatMap_singleton _ w).trans htake
          · exact htake
      | cons v ws =>
          by_cases henough : maxChars ≤ (w :: v :: ws).length
          · rw [if_pos henough]
            exact iff_of_true hletters (Or.inr (Or.inl henough))
          -- the beginning of the first word is as short as there are words only when it is all of it
          have hall : (w :: v :: ws).take maxChars = w :: v :: ws :=
            List.take_of_length_le (not_le.mp henough).le
          have hlen : (firstLetters (w :: v :: ws)).length < maxChars :=
            (length_firstLetters hne).trans_lt (not_le.mp henough)
          have hone : (w :: v :: ws).length ≠ 1 := by simp
          rw [if_neg henough, htake, octets_injective.eq_iff, abbreviation, hall, List.head?_cons,
            Option.some.injEq, take_eq_iff hlen]
          · exact ⟨fun h => Or.inr (Or.inr h), fun h =>
              (h.resolve_left hone).resolve_left henough⟩
          · intro u hu
            cases hu

/-- The functions of the witness treat ASCII as GLib does. -/
theorem smallGlib_asciiCase : smallGlib.AsciiCase where
  strdown := fun _ _ => rfl
  isAlnum := by
    intro c hc
    have hne : c ≠ 'é' := by
      rintro rfl
      exact absurd hc (by decide)
    simp [smallGlib, hne]

theorem initials_follow_rule_iff_main :
    sidebarMakeInitials smallGlib "main one two three".toList 3 =
        octets (abbreviation 3 (asciiWords "main one two three".toList)) ↔
      (asciiWords "main one two three".toList).length = 1 ∨
        3 ≤ (asciiWords "main one two three".toList).length ∨
        (asciiWords "main one two three".toList).head? =
          some (firstLetters (asciiWords "main one two three".toList)) :=
  initials_follow_rule_iff smallGlib_asciiCase (by decide) (by decide) (by decide) (by decide)

/-- The first example of the comment: `dev-server` is `dev` and not `ds`. -/
theorem not_initials_follow_rule :
    sidebarMakeInitials smallGlib "dev-server".toList 3 = B "dev" ∧
      octets (abbreviation 3 (asciiWords "dev-server".toList)) = B "ds" ∧
      sidebarMakeInitials smallGlib "dev-server".toList 3 ≠
        octets (abbreviation 3 (asciiWords "dev-server".toList)) := by
  have hinitials : sidebarMakeInitials smallGlib "dev-server".toList 3 = B "dev" := by decide
  have hwords : asciiWords "dev-server".toList = ["dev".toList, "server".toList] := by
    have hlower : "dev-server".toList.map Char.toLower = "dev-server".toList := by decide
    unfold asciiWords
    rw [hlower]
    simp [words]
  have hrule : octets (abbreviation 3 (asciiWords "dev-server".toList)) = B "ds" := by
    rw [hwords]
    decide
  refine ⟨hinitials, hrule, ?_⟩
  rw [hinitials, hrule]
  decide

end Axan.RowLabel
