import Mathlib.Data.List.DropRight
import Mathlib.Data.List.TakeWhile

/-!
# Tokens of a commandline

A commandline is cut at blanks. A token that starts with a quote goes up to the next quote, blanks
included; a quote inside another token is a character like any other.

* `Quoting` — the quote and the blanks of an alphabet.
* `tokens` — the scan from left to right.
* `endsOpen` — is the last token a quoted one that does not end?
* `tokens_append` — **the seam**: unless the first text ends inside quotes, a text that starts with
  a blank is cut for itself.
-/

namespace Axan.Base

/-- The quote, and the blanks; the quote is none. -/
structure Quoting (α : Type) where
  quote : α
  isBlank : α → Bool
  isBlank_quote : isBlank quote = false

namespace Quoting

variable {α : Type} [DecidableEq α] (Q : Quoting α)

/-- The token at the start of a text, and what is behind it. -/
def nextToken (c : α) (rest : List α) : List α × List α :=
  if c = Q.quote then
    (rest.takeWhile (· ≠ Q.quote), (rest.dropWhile (· ≠ Q.quote)).drop 1)
  else ((c :: rest).takeWhile fun d => !Q.isBlank d, (c :: rest).dropWhile fun d => !Q.isBlank d)

/-- Where the tokens start, at most so many: the character there and what follows it. -/
def startsFrom : ℕ → List α → List (α × List α)
  | 0, _ => []
  | n + 1, s =>
      match s.dropWhile Q.isBlank with
      | [] => []
      | c :: rest => (c, rest) :: startsFrom n (Q.nextToken c rest).2

/-- Where the tokens of a text start. -/
def starts (s : List α) : List (α × List α) := Q.startsFrom s.length s

/-- The tokens of a text. -/
def tokens (s : List α) : List (List α) := (Q.starts s).map fun r => (Q.nextToken r.1 r.2).1

/-- Is there no quote for the one that a token starts with? -/
def IsOpen (r : α × List α) : Prop := r.1 = Q.quote ∧ Q.quote ∉ r.2

instance (r : α × List α) : Decidable (Q.IsOpen r) := inferInstanceAs (Decidable (_ ∧ _))

/-- Does the text end inside a quoted token? -/
def EndsOpen (s : List α) : Prop := ∃ r ∈ Q.starts s, Q.IsOpen r

instance (s : List α) : Decidable (Q.EndsOpen s) := inferInstanceAs (Decidable (∃ _ ∈ _, _))

/-! ### One token at a time -/

variable {Q} {s t rest : List α} {c : α}

omit [DecidableEq α] in
/-- Behind the blanks comes no blank. -/
theorem not_isBlank_of_dropWhile (h : s.dropWhile Q.isBlank = c :: rest) : Q.isBlank c = false := by
  have hhead := List.head?_dropWhile_not Q.isBlank s
  rw [h] at hhead
  simpa using hhead

/-- A token leaves no more than there was. -/
theorem length_nextToken_le (hc : Q.isBlank c = false) :
    (Q.nextToken c rest).2.length ≤ rest.length := by
  unfold nextToken
  split_ifs
  · have hle := (List.dropWhile_suffix (l := rest) fun d => decide (d ≠ Q.quote)).length_le
    rw [List.length_drop]
    omega
  · rw [List.dropWhile_cons_of_pos (by simp [hc])]
    exact (List.dropWhile_suffix _).length_le

/-- What is behind a token is shorter. -/
theorem length_behind_lt (h : s.dropWhile Q.isBlank = c :: rest) :
    (Q.nextToken c rest).2.length < s.length := by
  have hle : (Q.nextToken c rest).2.length ≤ rest.length :=
    length_nextToken_le (not_isBlank_of_dropWhile h)
  have hlen := (List.dropWhile_suffix (l := s) Q.isBlank).length_le
  rw [h, List.length_cons] at hlen
  omega

/-- The length of the text is a bound that does not cut. -/
theorem startsFrom_eq {n m : ℕ} (hn : s.length ≤ n) (hm : s.length ≤ m) :
    Q.startsFrom n s = Q.startsFrom m s := by
  induction n generalizing m s with
  | zero =>
      obtain rfl := List.length_eq_zero_iff.mp (Nat.le_zero.mp hn)
      cases m <;> rfl
  | succ n ih =>
      cases m with
      | zero =>
          obtain rfl := List.length_eq_zero_iff.mp (Nat.le_zero.mp hm)
          rfl
      | succ m =>
          unfold startsFrom
          split
          · rfl
          · next c rest hs =>
              have hlt := length_behind_lt hs
              rw [ih (by omega) (m := m) (by omega)]

/-- A text of blanks has no token. -/
theorem starts_of_nil (h : s.dropWhile Q.isBlank = []) : Q.starts s = [] := by
  unfold starts
  cases s with
  | nil => rfl
  | cons d s => rw [List.length_cons, startsFrom, h]

/-- The first token starts behind the blanks. -/
theorem starts_of_cons (h : s.dropWhile Q.isBlank = c :: rest) :
    Q.starts s = (c, rest) :: Q.starts (Q.nextToken c rest).2 := by
  have hlt := length_behind_lt h
  obtain ⟨n, hn⟩ := Nat.exists_eq_succ_of_ne_zero (Nat.ne_zero_of_lt hlt)
  have hbehind : Q.startsFrom n (Q.nextToken c rest).2 = Q.starts (Q.nextToken c rest).2 :=
    startsFrom_eq (by omega) le_rfl
  rw [starts, hn, startsFrom, h, ← hbehind]

/-- Blanks in front of a text start no token. -/
theorem starts_dropWhile (s : List α) : Q.starts (s.dropWhile Q.isBlank) = Q.starts s := by
  have hidem : (s.dropWhile Q.isBlank).dropWhile Q.isBlank = s.dropWhile Q.isBlank :=
    List.dropWhile_idempotent _ _
  cases h : s.dropWhile Q.isBlank with
  | nil => rw [starts_of_nil h]; rfl
  | cons c rest =>
      rw [h] at hidem
      rw [starts_of_cons h, starts_of_cons hidem]

/-! ### The seam -/

/-- What is put behind a token that ends is behind it. -/
theorem nextToken_append (hopen : ¬ Q.IsOpen (c, rest)) (ht : ∀ d ∈ t.head?, Q.isBlank d = true) :
    Q.nextToken c (rest ++ t) = ((Q.nextToken c rest).1, (Q.nextToken c rest).2 ++ t) := by
  unfold nextToken
  by_cases hc : c = Q.quote
  · have hmem : Q.quote ∈ rest := by
      by_contra hnot
      exact hopen ⟨hc, hnot⟩
    obtain ⟨a, b, rfl, ha⟩ := List.eq_append_cons_of_mem hmem
    have hpos : ∀ d ∈ a, decide (d ≠ Q.quote) = true := by
      intro d hd
      exact decide_eq_true fun heq => ha (heq ▸ hd)
    rw [if_pos hc, if_pos hc, List.append_assoc, List.takeWhile_append_of_pos hpos,
      List.takeWhile_append_of_pos hpos, List.dropWhile_append_of_pos hpos,
      List.dropWhile_append_of_pos hpos]
    simp
  · have htake : t.takeWhile (fun d => !Q.isBlank d) = [] ∧
        t.dropWhile (fun d => !Q.isBlank d) = t := by
      cases t with
      | nil => exact ⟨rfl, rfl⟩
      | cons d t =>
          have hd := ht d rfl
          simp [hd]
    rw [if_neg hc, if_neg hc, ← List.cons_append, List.takeWhile_append, List.dropWhile_append,
      htake.1, htake.2]
    refine Prod.ext ?_ ?_
    · simp only
      split_ifs with hall
      · rw [List.append_nil, (List.takeWhile_prefix _).eq_of_length hall]
      · rfl
    · simp only
      split_ifs with hnil
      · rw [List.isEmpty_iff.mp hnil, List.nil_append]
      · rfl

/-- A text that ends outside of quotes can be scanned apart from what follows a blank. -/
theorem starts_append (hopen : ¬ Q.EndsOpen s) (ht : ∀ d ∈ t.head?, Q.isBlank d = true) :
    Q.starts (s ++ t) = (Q.starts s).map (fun r => (r.1, r.2 ++ t)) ++ Q.starts t := by
  induction hn : s.length using Nat.strong_induction_on generalizing s with
  | _ n ih =>
      subst hn
      cases hs : s.dropWhile Q.isBlank with
      | nil =>
          have hdrop : (s ++ t).dropWhile Q.isBlank = t.dropWhile Q.isBlank :=
            List.dropWhile_append_of_pos (List.dropWhile_eq_nil_iff.mp hs)
          rw [starts_of_nil hs, ← starts_dropWhile (s ++ t), hdrop, starts_dropWhile]
          rfl
      | cons c rest =>
          have hdrop : (s ++ t).dropWhile Q.isBlank = c :: (rest ++ t) := by
            rw [List.dropWhile_append, hs]
            rfl
          have hstarts := starts_of_cons hs
          have hfirst : ¬ Q.IsOpen (c, rest) := by
            intro h
            exact hopen ⟨_, hstarts ▸ List.mem_cons_self, h⟩
          have hbehind : ¬ Q.EndsOpen (Q.nextToken c rest).2 := by
            rintro ⟨r, hr, h⟩
            exact hopen ⟨r, hstarts ▸ List.mem_cons_of_mem _ hr, h⟩
          rw [starts_of_cons hdrop, nextToken_append hfirst ht, hstarts,
            ih _ (length_behind_lt hs) hbehind rfl]
          rfl

/-- **A text that starts with a blank, behind one that does not end inside quotes**, is cut for
itself. -/
theorem tokens_append (hopen : ¬ Q.EndsOpen s) (ht : ∀ d ∈ t.head?, Q.isBlank d = true) :
    Q.tokens (s ++ t) = Q.tokens s ++ Q.tokens t := by
  unfold tokens
  rw [starts_append hopen ht, List.map_append, List.map_map]
  congr 1
  apply List.map_congr_left
  intro r hr
  have hclosed : ¬ Q.IsOpen (r.1, r.2) := fun h => hopen ⟨r, hr, h⟩
  rw [Function.comp_apply, nextToken_append hclosed ht]

end Quoting

end Axan.Base
