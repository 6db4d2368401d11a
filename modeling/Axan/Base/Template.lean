import Axan.Base.Text

/-!
# A template language

Templates with `$name`, `$~` and `${file:…}`. The language is that of one pass from left to right:
which pieces a template has does not depend on any value, and what a piece stands for is put in
without being read again.

* `Alphabet` — the units a template is written in: bytes, UTF-16 units or characters.
* `Piece`, `Next`, `Reads` — the grammar: one piece off the front, and a whole template.
* `nextPiece`, `pieces` — the pass as a function; `reads_iff` says that it reads the grammar, and
  that there is one way to do so.
* `Encoding`, `flatMap_pieces_encode` — a template of characters has the same pieces in every
  encoding that leaves ASCII alone.
-/

namespace Axan.Base.Template

open Axan.Base

/-- The characters of a name: ASCII letters, digits, `_` and `-`. -/
def isNameChar (c : Char) : Bool :=
  ('A' ≤ c && c ≤ 'Z') || ('a' ≤ c && c ≤ 'z') || ('0' ≤ c && c ≤ '9') || c = '_' || c = '-'

/-- The characters of a name are ASCII. -/
theorem isAscii_of_isNameChar {c : Char} (h : isNameChar c = true) : isAscii c = true := by
  unfold isNameChar at h
  unfold isAscii
  simp only [Bool.or_eq_true, Bool.and_eq_true, decide_eq_true_eq, Char.le_def,
    UInt32.le_iff_toNat_le] at h ⊢
  have hval : c.toNat = c.val.toNat := rfl
  rcases h with (((⟨-, h⟩ | ⟨-, h⟩) | ⟨-, h⟩) | rfl) | rfl
  · exact hval ▸ lt_of_le_of_lt h (by decide)
  · exact hval ▸ lt_of_le_of_lt h (by decide)
  · exact hval ▸ lt_of_le_of_lt h (by decide)
  · decide
  · decide

/-- The units of a kind of string: the form of an ASCII character, and the units of names. -/
structure Alphabet (α : Type) where
  lit : Char → α
  isName : α → Bool
  lit_inj : ∀ {m n}, isAscii m = true → isAscii n = true → lit m = lit n → m = n
  isName_lit : ∀ {m}, isAscii m = true → isName (lit m) = isNameChar m

/-- The characters themselves. -/
def chars : Alphabet Char where
  lit := id
  isName := isNameChar
  lit_inj := fun _ _ h => h
  isName_lit := fun _ => rfl

/-- Texts of characters are their own alphabet. -/
@[simp] theorem chars_lit (c : Char) : chars.lit c = c := rfl

/-- A piece of a template. -/
inductive Piece (α : Type) where
  /-- Copied unchanged. -/
  | text (s : List α)
  /-- The line of a file. -/
  | file (path : List α)
  /-- `$~` -/
  | home
  | var (name : List α)
  deriving DecidableEq, Repr

variable {α : Type} (A : Alphabet α)

/-- What a brace form starts with that names a file. -/
def fileTag : List Char := ['f', 'i', 'l', 'e', ':']

theorem all_isAscii_fileTag : fileTag.all isAscii = true := by decide

/-- The units of `fileTag`. -/
def Alphabet.fileTag : List α := Template.fileTag.map A.lit

theorem chars_fileTag : chars.fileTag = fileTag := List.map_id _

/-! ### The grammar -/

/-- What a template starts with, and what is left. -/
inductive Next : List α → Piece α → List α → Prop
  | plain {a : α} {r : List α} (h : a ≠ A.lit '$') : Next (a :: r) (.text [a]) r
  /-- The path goes up to the first closing brace. -/
  | file {path r : List α} (h : A.lit '}' ∉ path) :
      Next (A.lit '$' :: A.lit '{' :: (A.fileTag ++ path ++ A.lit '}' :: r)) (.file path) r
  | brace {body r : List α} (h : A.lit '}' ∉ body) (hfile : ¬ A.fileTag <+: body) :
      Next (A.lit '$' :: A.lit '{' :: (body ++ A.lit '}' :: r))
        (.text (A.lit '$' :: A.lit '{' :: (body ++ [A.lit '}']))) r
  /-- Only the two characters are copied; the rest is read on. -/
  | unclosed {r : List α} (h : A.lit '}' ∉ r) :
      Next (A.lit '$' :: A.lit '{' :: r) (.text [A.lit '$', A.lit '{']) r
  | home {r : List α} : Next (A.lit '$' :: A.lit '~' :: r) .home r
  /-- A name is as long as it can be. -/
  | var {name r : List α} (hne : name ≠ []) (hname : ∀ a ∈ name, A.isName a = true)
      (hr : ∀ a, r.head? = some a → A.isName a = false) :
      Next (A.lit '$' :: (name ++ r)) (.var name) r
  | dollar {r : List α}
      (hr : ∀ a, r.head? = some a → a ≠ A.lit '{' ∧ a ≠ A.lit '~' ∧ A.isName a = false) :
      Next (A.lit '$' :: r) (.text [A.lit '$']) r

/-- The pieces of a template. -/
inductive Reads : List α → List (Piece α) → Prop
  | nil : Reads [] []
  | cons {t r : List α} {p : Piece α} {ps : List (Piece α)} (h : Next A t p r) (hr : Reads r ps) :
      Reads t (p :: ps)

section

variable {A}

/-- Two ASCII characters have different letters. -/
theorem lit_ne {m n : Char} (hm : isAscii m = true) (hn : isAscii n = true) (h : m ≠ n) :
    A.lit m ≠ A.lit n := fun heq => h (A.lit_inj hm hn heq)

/-- The tag has no closing brace. -/
theorem brace_not_mem_fileTag : A.lit '}' ∉ A.fileTag := by
  intro hmem
  obtain ⟨c, hc, heq⟩ := List.mem_map.mp hmem
  have hc' := A.lit_inj (List.all_eq_true.mp all_isAscii_fileTag c hc) (by decide) heq
  rw [hc', fileTag] at hc
  revert hc
  decide

/-- A unit of a name is none of the marks. -/
theorem ne_lit_of_isName {a : α} (ha : A.isName a = true) {m : Char} (hm : isAscii m = true)
    (hnot : isNameChar m = false) : a ≠ A.lit m := by
  rintro rfl
  rw [A.isName_lit hm, hnot] at ha
  exact Bool.false_ne_true ha

/-- A run that does not start here is empty. -/
theorem takeWhile_eq_nil_of_head? {p : α → Bool} {r : List α}
    (hr : ∀ a, r.head? = some a → p a = false) : r.takeWhile p = [] ∧ r.dropWhile p = r := by
  cases r with
  | nil => exact ⟨rfl, rfl⟩
  | cons a r =>
      have ha := hr a rfl
      exact ⟨List.takeWhile_cons_of_neg (ne_true_of_eq_false ha),
        List.dropWhile_cons_of_neg (ne_true_of_eq_false ha)⟩

/-- A name is the longest run. -/
theorem takeWhile_name {name r : List α} (hname : ∀ a ∈ name, A.isName a = true)
    (hr : ∀ a, r.head? = some a → A.isName a = false) :
    (name ++ r).takeWhile A.isName = name ∧ (name ++ r).dropWhile A.isName = r := by
  obtain ⟨htake, hdrop⟩ := takeWhile_eq_nil_of_head? hr
  rw [List.takeWhile_append_of_pos hname, htake, List.dropWhile_append_of_pos hname, hdrop,
    List.append_nil]
  exact ⟨rfl, rfl⟩

/-- A name starts with none of the marks. -/
theorem head?_ne_of_isName {name r : List α} (hne : name ≠ [])
    (hname : ∀ a ∈ name, A.isName a = true) {m : Char} (hm : isAscii m = true)
    (hnot : isNameChar m = false) : (name ++ r).head? ≠ some (A.lit m) := by
  intro heq
  rw [List.head?_append_of_ne_nil _ hne] at heq
  exact ne_lit_of_isName (hname _ (List.mem_of_mem_head? heq)) hm hnot rfl

/-- There is a next piece only when there is text. -/
theorem Next.ne_nil {t r : List α} {p : Piece α} (h : Next A t p r) : t ≠ [] := by
  cases h <;> exact List.cons_ne_nil _ _

/-- A piece takes something off the front. -/
theorem Next.length_lt {t r : List α} {p : Piece α} (h : Next A t p r) : r.length < t.length := by
  cases h <;> simp <;> omega

/-! ### Encodings -/

/-- The units of a character: its form when it is an ASCII one, and none of these forms otherwise. -/
structure Encoding (A : Alphabet α) (enc : Char → List α) : Prop where
  ascii : ∀ {c}, isAscii c = true → enc c = [A.lit c]
  ne_nil : ∀ c, enc c ≠ []
  other : ∀ {c}, isAscii c = false → ∀ x ∈ enc c,
    A.isName x = false ∧ ∀ m, isAscii m = true → x ≠ A.lit m

/-- A piece in an encoding. -/
def Piece.encode (enc : Char → List α) : Piece Char → Piece α
  | .text s => .text (s.flatMap enc)
  | .file path => .file (path.flatMap enc)
  | .home => .home
  | .var name => .var (name.flatMap enc)

namespace Encoding

variable {enc : Char → List α} (E : Encoding A enc)

include E

/-- An ASCII text is its letters. -/
theorem flatMap_of_ascii {s : List Char} (hs : s.all isAscii = true) :
    s.flatMap enc = s.map A.lit := by
  induction s with
  | nil => rfl
  | cons c s ih =>
      obtain ⟨hc, hs⟩ := Bool.and_eq_true_iff.mp (List.all_cons.symm.trans hs)
      rw [List.flatMap_cons, E.ascii hc, ih hs]
      rfl

/-- An ASCII form stands in the units exactly when the character stands in the text. -/
theorem lit_mem_flatMap_iff {m : Char} (hm : isAscii m = true) {s : List Char} :
    A.lit m ∈ s.flatMap enc ↔ m ∈ s := by
  rw [List.mem_flatMap]
  constructor
  · rintro ⟨c, hc, hmem⟩
    cases hcase : isAscii c with
    | false => exact absurd rfl ((E.other hcase _ hmem).2 m hm)
    | true =>
        rw [E.ascii hcase, List.mem_singleton] at hmem
        rwa [A.lit_inj hm hcase hmem]
  · intro h
    exact ⟨m, h, by rw [E.ascii hm]; exact List.mem_singleton_self _⟩

/-- The letters of a character are of a name when it is. -/
theorem isName_iff {c : Char} {x : α} (hx : x ∈ enc c) : A.isName x = isNameChar c := by
  cases hcase : isAscii c with
  | true =>
      rw [E.ascii hcase, List.mem_singleton] at hx
      rw [hx, A.isName_lit hcase]
  | false =>
      rw [(E.other hcase x hx).1]
      symm
      rw [Bool.eq_false_iff]
      intro hname
      rw [isAscii_of_isNameChar hname] at hcase
      cases hcase

/-- No letter of a character is that of another, an ASCII one. -/
theorem ne_lit {c m : Char} (hm : isAscii m = true) {x : α} (hx : x ∈ enc c) (h : c ≠ m) :
    x ≠ A.lit m := by
  rintro rfl
  rw [← List.flatMap_singleton enc c, E.lit_mem_flatMap_iff hm, List.mem_singleton] at hx
  exact h hx.symm

/-- The first unit of a text. -/
theorem exists_of_head?_flatMap {s : List Char} {x : α} (h : (s.flatMap enc).head? = some x) :
    ∃ c, s.head? = some c ∧ x ∈ enc c := by
  cases s with
  | nil => cases h
  | cons c s =>
      rw [List.flatMap_cons, List.head?_append_of_ne_nil _ (E.ne_nil c)] at h
      exact ⟨c, rfl, List.mem_of_mem_head? h⟩

/-- An ASCII text stands in front of the units exactly when it stands in front of the text. -/
theorem map_lit_prefix_iff {m : List Char} (hm : m.all isAscii = true) {s : List Char} :
    m.map A.lit <+: s.flatMap enc ↔ m <+: s := by
  induction m generalizing s with
  | nil => simp
  | cons c m ih =>
      obtain ⟨hc, hm⟩ := Bool.and_eq_true_iff.mp (List.all_cons.symm.trans hm)
      cases s with
      | nil => simp
      | cons d s =>
          rw [List.map_cons, List.flatMap_cons, List.cons_prefix_cons]
          cases hcase : isAscii d with
          | true =>
              rw [E.ascii hcase, List.singleton_append, List.cons_prefix_cons, ih hm]
              exact ⟨fun h => ⟨A.lit_inj hc hcase h.1, h.2⟩, fun h => ⟨by rw [h.1], h.2⟩⟩
          | false =>
              obtain ⟨x, xs, hx⟩ := List.exists_cons_of_ne_nil (E.ne_nil d)
              have hother := (E.other hcase x (by rw [hx]; exact List.mem_cons_self)).2 c hc
              rw [hx, List.cons_append, List.cons_prefix_cons]
              refine ⟨fun h => absurd h.1.symm hother, ?_⟩
              rintro ⟨rfl, -⟩
              rw [hc] at hcase
              cases hcase

end Encoding

/-- What starts with a dollar starts with the encoded piece in an encoding. -/
theorem Next.encode {enc : Char → List α} (E : Encoding A enc) {t r : List Char} {p : Piece Char}
    (h : Next chars ('$' :: t) p r) :
    Next A (A.lit '$' :: t.flatMap enc) (p.encode enc) (r.flatMap enc) := by
  have hdollar : enc '$' = [A.lit '$'] := E.ascii (by decide)
  have hopen : enc '{' = [A.lit '{'] := E.ascii (by decide)
  have hclose : enc '}' = [A.lit '}'] := E.ascii (by decide)
  have htilde : enc '~' = [A.lit '~'] := E.ascii (by decide)
  have hpath {path : List Char} (h : '}' ∉ path) : A.lit '}' ∉ path.flatMap enc :=
    mt (E.lit_mem_flatMap_iff (by decide)).mp h
  generalize heq : '$' :: t = s at h
  cases h with
  | plain h => exact absurd (List.cons.inj heq).1.symm h
  | @file path r h =>
      obtain ⟨-, rfl⟩ := List.cons.inj heq
      have htag : fileTag.flatMap enc = A.fileTag := E.flatMap_of_ascii all_isAscii_fileTag
      have henc : (chars.lit '{' :: (chars.fileTag ++ path ++ chars.lit '}' :: r)).flatMap enc =
          A.lit '{' :: (A.fileTag ++ path.flatMap enc ++ A.lit '}' :: r.flatMap enc) := by
        simp [hopen, hclose, htag, chars_fileTag]
      rw [henc]
      exact .file (hpath h)
  | @brace body r h hfile =>
      obtain ⟨-, rfl⟩ := List.cons.inj heq
      have henc : (chars.lit '{' :: (body ++ chars.lit '}' :: r)).flatMap enc =
          A.lit '{' :: (body.flatMap enc ++ A.lit '}' :: r.flatMap enc) := by
        simp [hopen, hclose]
      have hcopy : (chars.lit '$' :: chars.lit '{' :: (body ++ [chars.lit '}'])).flatMap enc =
          A.lit '$' :: A.lit '{' :: (body.flatMap enc ++ [A.lit '}']) := by
        simp [hdollar, hopen, hclose]
      have hfile : ¬ A.fileTag <+: body.flatMap enc :=
        mt (E.map_lit_prefix_iff all_isAscii_fileTag).mp (chars_fileTag ▸ hfile)
      rw [henc, Piece.encode, hcopy]
      exact .brace (hpath h) hfile
  | unclosed h =>
      obtain ⟨-, rfl⟩ := List.cons.inj heq
      have hcopy : [chars.lit '$', chars.lit '{'].flatMap enc = [A.lit '$', A.lit '{'] := by
        simp [hdollar, hopen]
      rw [Piece.encode, hcopy, List.flatMap_cons, chars_lit, hopen]
      exact .unclosed (hpath h)
  | home =>
      obtain ⟨-, rfl⟩ := List.cons.inj heq
      rw [List.flatMap_cons, chars_lit, htilde]
      exact .home
  | @var name r hne hname hr =>
      obtain ⟨-, rfl⟩ := List.cons.inj heq
      rw [List.flatMap_append]
      refine .var ?_ (fun x hx => ?_) fun x hx => ?_
      · obtain ⟨c, s, rfl⟩ := List.exists_cons_of_ne_nil hne
        rw [List.flatMap_cons]
        exact List.append_ne_nil_of_left_ne_nil (E.ne_nil c) _
      · obtain ⟨c, hc, hxc⟩ := List.mem_flatMap.mp hx
        rw [E.isName_iff hxc]
        exact hname c hc
      · obtain ⟨c, hc, hxc⟩ := E.exists_of_head?_flatMap hx
        rw [E.isName_iff hxc]
        exact hr c hc
  | dollar hr =>
      obtain ⟨-, rfl⟩ := List.cons.inj heq
      have hcopy : [chars.lit '$'].flatMap enc = [A.lit '$'] := by simp [hdollar]
      rw [Piece.encode, hcopy]
      refine .dollar fun x hx => ?_
      obtain ⟨c, hc, hxc⟩ := E.exists_of_head?_flatMap hx
      obtain ⟨hbrace, htilde, hname⟩ := hr c hc
      refine ⟨E.ne_lit (by decide) hxc hbrace, E.ne_lit (by decide) hxc htilde, ?_⟩
      rw [E.isName_iff hxc]
      exact hname

end

/-! ### The pass -/

/-- A list with a first element. -/
theorem eq_cons_tail_of_head? {a : α} {l : List α} (h : l.head? = some a) : l = a :: l.tail := by
  obtain ⟨t, rfl⟩ := List.head?_eq_some_iff.mp h
  rfl

variable [DecidableEq α]

/-- The piece at a unit, and what is left of the units behind it. -/
def nextPiece (a : α) (rest : List α) : Piece α × List α :=
  if a ≠ A.lit '$' then (.text [a], rest)
  else if rest.head? = some (A.lit '{') then
    match cutAt (A.lit '}') rest.tail with
    | none => (.text [A.lit '$', A.lit '{'], rest.tail)
    | some (body, after) =>
        if A.fileTag <+: body then (.file (body.drop 5), after)
        else (.text (A.lit '$' :: A.lit '{' :: (body ++ [A.lit '}'])), after)
  else if rest.head? = some (A.lit '~') then (.home, rest.tail)
  else if rest.takeWhile A.isName = [] then (.text [A.lit '$'], rest)
  else (.var (rest.takeWhile A.isName), rest.dropWhile A.isName)

/-- The function takes a piece of the grammar off the front. -/
theorem next_nextPiece (a : α) (rest : List α) :
    Next A (a :: rest) (nextPiece A a rest).1 (nextPiece A a rest).2 := by
  unfold nextPiece
  split_ifs with hplain hbrace htilde hname
  · exact .plain hplain
  · obtain ⟨tail, rfl⟩ := List.head?_eq_some_iff.mp hbrace
    rw [not_not] at hplain
    rw [hplain, List.tail_cons]
    split
    · next hcut => exact .unclosed ((cutAt_eq_none_iff _).mp hcut)
    · next body after hcut =>
        obtain ⟨rfl, hbody⟩ := eq_of_cutAt hcut
        split_ifs with hfile
        · obtain ⟨path, rfl⟩ := hfile
          exact .file fun hmem => hbody (List.mem_append_right _ hmem)
        · exact .brace hbody hfile
  · rw [not_not] at hplain
    rw [hplain, eq_cons_tail_of_head? htilde]
    exact .home
  · rw [not_not] at hplain
    rw [hplain]
    refine .dollar fun b hb => ⟨?_, ?_, ?_⟩
    · rintro rfl
      exact hbrace hb
    · rintro rfl
      exact htilde hb
    · rw [eq_cons_tail_of_head? hb, List.takeWhile_cons] at hname
      split_ifs at hname with h
      exact Bool.eq_false_of_not_eq_true h
  · rw [not_not] at hplain
    rw [hplain]
    nth_rewrite 1 [← List.takeWhile_append_dropWhile (p := A.isName) (l := rest)]
    refine .var hname (fun b hb => List.mem_takeWhile_imp hb) fun b hb => ?_
    have hdrop := List.head?_dropWhile_not A.isName rest
    rw [hb] at hdrop
    exact hdrop

variable {A}

/-- A letter that is no dollar sign is a piece of text. -/
theorem nextPiece_plain {a : α} (h : a ≠ A.lit '$') (rest : List α) :
    nextPiece A a rest = (.text [a], rest) := by
  unfold nextPiece
  rw [if_pos h]

/-- The pass at a brace form. -/
theorem nextPiece_brace (body : List α) :
    nextPiece A (A.lit '$') (A.lit '{' :: body) =
      match cutAt (A.lit '}') body with
      | none => (.text [A.lit '$', A.lit '{'], body)
      | some (body, after) =>
          if A.fileTag <+: body then (.file (body.drop 5), after)
          else (.text (A.lit '$' :: A.lit '{' :: (body ++ [A.lit '}'])), after) := by
  unfold nextPiece
  rw [if_neg (not_not.mpr rfl), List.head?_cons, if_pos rfl, List.tail_cons]

/-- The pass at any other dollar. -/
theorem nextPiece_dollar {r : List α} (hbrace : r.head? ≠ some (A.lit '{')) :
    nextPiece A (A.lit '$') r =
      if r.head? = some (A.lit '~') then (.home, r.tail)
      else if r.takeWhile A.isName = [] then (.text [A.lit '$'], r)
      else (.var (r.takeWhile A.isName), r.dropWhile A.isName) := by
  unfold nextPiece
  rw [if_neg (not_not.mpr rfl), if_neg hbrace]

/-- The grammar leaves no choice. -/
theorem Next.eq_nextPiece {a : α} {rest r : List α} {p : Piece α} (h : Next A (a :: rest) p r) :
    nextPiece A a rest = (p, r) := by
  generalize ht : a :: rest = t at h
  cases h with
  | plain h =>
      obtain ⟨rfl, rfl⟩ := List.cons.inj ht
      exact nextPiece_plain h rest
  | @file path r h =>
      obtain ⟨rfl, rfl⟩ := List.cons.inj ht
      have hbody : A.lit '}' ∉ A.fileTag ++ path := by
        rw [List.mem_append, not_or]
        exact ⟨brace_not_mem_fileTag, h⟩
      rw [nextPiece_brace, cutAt_append hbody]
      exact if_pos (List.prefix_append _ _)
  | brace h hfile =>
      obtain ⟨rfl, rfl⟩ := List.cons.inj ht
      rw [nextPiece_brace, cutAt_append h]
      exact if_neg hfile
  | unclosed h =>
      obtain ⟨rfl, rfl⟩ := List.cons.inj ht
      rw [nextPiece_brace, (cutAt_eq_none_iff _).mpr h]
  | home =>
      obtain ⟨rfl, rfl⟩ := List.cons.inj ht
      have hne : A.lit '~' ≠ A.lit '{' := lit_ne (by decide) (by decide) (by decide)
      rw [nextPiece_dollar (r := A.lit '~' :: r) fun h => hne (Option.some.inj h),
        List.head?_cons, if_pos rfl, List.tail_cons]
  | @var name r hne hname hr =>
      obtain ⟨rfl, rfl⟩ := List.cons.inj ht
      obtain ⟨htake, hdrop⟩ := takeWhile_name hname hr
      rw [nextPiece_dollar (head?_ne_of_isName hne hname (by decide) (by decide)),
        if_neg (head?_ne_of_isName hne hname (by decide) (by decide)), htake, hdrop, if_neg hne]
  | dollar hr =>
      obtain ⟨rfl, rfl⟩ := List.cons.inj ht
      obtain ⟨htake, -⟩ := takeWhile_eq_nil_of_head? fun a ha => (hr a ha).2.2
      rw [nextPiece_dollar fun h => (hr _ h).1 rfl, if_neg fun h => (hr _ h).2.1 rfl, if_pos htake]

variable (A) in
/-- The rest is shorter than the text. -/
theorem length_nextPiece (a : α) (rest : List α) :
    (nextPiece A a rest).2.length ≤ rest.length :=
  Nat.le_of_lt_succ (next_nextPiece A a rest).length_lt

variable (A) in
/-- The pieces of a template, from left to right. -/
def pieces : List α → List (Piece α)
  | [] => []
  | a :: rest => (nextPiece A a rest).1 :: pieces (nextPiece A a rest).2
  termination_by t => t.length
  decreasing_by exact Nat.lt_succ_of_le (length_nextPiece A a rest)

/-- The pieces are the next one and those of the rest. -/
theorem Next.pieces_eq {t r : List α} {p : Piece α} (h : Next A t p r) :
    pieces A t = p :: pieces A r := by
  obtain ⟨a, rest, rfl⟩ := List.exists_cons_of_ne_nil h.ne_nil
  rw [pieces, h.eq_nextPiece]

/-- The pass reads the grammar, and there is one way to. -/
theorem reads_iff {t : List α} {ps : List (Piece α)} : Reads A t ps ↔ ps = pieces A t := by
  constructor
  · intro h
    induction h with
    | nil => rw [pieces]
    | cons h _ ih => rw [h.pieces_eq, ih]
  · rintro rfl
    induction t using pieces.induct A with
    | case1 =>
        rw [pieces]
        exact .nil
    | case2 a rest ih =>
        rw [pieces]
        exact .cons (next_nextPiece A a rest) ih

/-- The names of a template are made of units of names. -/
theorem isName_of_mem_pieces {t name : List α} (h : Piece.var name ∈ pieces A t) :
    ∀ a ∈ name, A.isName a = true := by
  have hreads : Reads A t (pieces A t) := reads_iff.mpr rfl
  generalize pieces A t = ps at h hreads
  induction hreads with
  | nil => cases h
  | cons hnext _ ih =>
      obtain heq | h := List.mem_cons.mp h
      · subst heq
        cases hnext with
        | var _ hname _ => exact hname
      · exact ih h

/-- The units of a character that is no dollar are copied one by one. -/
theorem flatMap_pieces_plain {g : Piece α → List α} (hg : ∀ s, g (.text s) = s) {s : List α}
    (hs : A.lit '$' ∉ s) (r : List α) :
    (pieces A (s ++ r)).flatMap g = s ++ (pieces A r).flatMap g := by
  induction s with
  | nil => rfl
  | cons a s ih =>
      obtain ⟨ha, hs⟩ := not_or.mp (mt List.mem_cons.mpr hs)
      rw [List.cons_append, (Next.plain (Ne.symm ha)).pieces_eq, List.flatMap_cons, hg, ih hs]
      rfl

/-- A template has the same pieces in every encoding. -/
theorem flatMap_pieces_encode {enc : Char → List α} (E : Encoding A enc)
    {g : Piece α → List α} (hg : ∀ s, g (.text s) = s) (t : List Char) :
    (pieces A (t.flatMap enc)).flatMap g =
      (pieces chars t).flatMap fun p => g (p.encode enc) := by
  have hreads : Reads chars t (pieces chars t) := reads_iff.mpr rfl
  generalize pieces chars t = ps at hreads
  induction hreads with
  | nil => rw [List.flatMap_nil, pieces, List.flatMap_nil, List.flatMap_nil]
  | @cons t r p ps h hr ih =>
      obtain ⟨c, t, rfl⟩ := List.exists_cons_of_ne_nil h.ne_nil
      rw [List.flatMap_cons (x := p), ← ih, List.flatMap_cons]
      by_cases hc : c = '$'
      · subst hc
        rw [E.ascii (by decide), List.singleton_append, (h.encode E).pieces_eq, List.flatMap_cons]
      · have hnot : A.lit '$' ∉ enc c := by
          rw [← List.flatMap_singleton enc c, E.lit_mem_flatMap_iff (by decide)]
          exact mt List.mem_singleton.mp (Ne.symm hc)
        obtain ⟨rfl, rfl⟩ := Prod.mk.inj (h.eq_nextPiece.symm.trans (nextPiece_plain hc t))
        rw [flatMap_pieces_plain hg hnot, Piece.encode, hg, List.flatMap_singleton]

end Axan.Base.Template
