import Axan.Base.CString

/-!
# The icon registry: `axan-icons-toml.cc`

The registry is a list of icon names in a TOML file. It is written by hand, and read by hand: the
reader looks for the first `icons`, for the first bracket behind it, and then for quoted strings.

* `validateFilename`, `stripSvgExt`, `writeRegistry` — what is written.
* `parseRegistry` — the reader, with every access to memory.
* `Scans`, `IsRegistry` — what the reader should find in any text.
* `parseRegistry_spec` — it ends on every byte string, stays in memory, and finds exactly that.
* `registry_readsBack` — **what is written is read back**.
-/

namespace Axan.LinuxToml

open Axan.Base Axan.Base.CString

/-! ### The names -/

/-- What may stand behind the place that `$` matches: nothing, or a line break of any kind. -/
def lineBreaks : List ByteString :=
  [[], [0x0A], [0x0B], [0x0C], [0x0D], [0x0D, 0x0A], [0xC2, 0x85], [0xE2, 0x80, 0xA8],
    [0xE2, 0x80, 0xA9]]

/-- `[a-z0-9]` -/
def isAlnumLower (c : ℕ) : Bool :=
  (byte 'a' ≤ c && c ≤ byte 'z') || (byte '0' ≤ c && c ≤ byte '9')

/-- `[a-z0-9][a-z0-9_-]*` -/
def isStem : ByteString → Bool
  | [] => false
  | c :: cs => isAlnumLower c && cs.all fun d => isAlnumLower d || d = byte '_' || d = byte '-'

/-- Source: `kFilenameRegex` -/
def filenameRegex (name : ByteString) : Bool :=
  lineBreaks.any fun br =>
    (B ".svg" ++ br).isSuffixOf name && isStem (name.take (name.length - (B ".svg" ++ br).length))

/-- The reason why a name is refused, if it is. Source: `validate_filename` -/
def validateFilename (name : ByteString) : Option ByteString :=
  if filenameRegex name then none
  else some (B "filename must be lowercase a-z0-9 with -/_, ending in .svg")

/-- Source: `strip_svg_ext` -/
def stripSvgExt (name : ByteString) : ByteString :=
  if 4 < name.length && (B ".svg").isSuffixOf name then name.take (name.length - 4) else name

/-! ### The writer -/

/-- The comment at the start of the file. -/
def registryHeader : ByteString :=
  B "# axan icon registry — written by `axan --import-icons`.\n" ++
    B "# Drop SVGs into ~/.config/axan/icons/, then re-import to refresh.\n" ++
    B "# Files in that directory that aren't listed here will NOT appear\n" ++
    B "# in the picker — usually because they failed validation.\n" ++ B "\n"

/-- The line of an icon. -/
def iconLine (n : ByteString) : ByteString := B "  \"" ++ n ++ B "\",\n"

/-- Source: `write_registry` -/
def writeRegistry (names : List ByteString) : ByteString :=
  registryHeader ++
    if names.isEmpty then B "icons = []\n"
    else B "icons = [\n" ++ names.flatMap iconLine ++ B "]\n"

/-! ### The reader -/

/-- The names that are put out, and the error, if the reader fails. -/
structure Registry where
  names : List ByteString
  error : Option ByteString := none
  deriving DecidableEq, Repr

/-- What stands between two strings. -/
def isBetween (c : ℕ) : Bool :=
  c = byte ' ' || c = byte '\n' || c = byte '\t' || c = byte ',' || c = byte '\r'

/-- The error of a string that does not end. -/
def unterminated (path : ByteString) : ByteString :=
  path ++ B ": unterminated string in icons array"

/-- What one round of the loop comes to. -/
inductive Round where
  /-- The array or the text ends. -/
  | stop
  /-- A comment or a stray character is behind the reader. -/
  | skipped (p : List ℕ)
  | string (name : ByteString) (p : List ℕ)
  /-- A string does not end. -/
  | unterminated
  deriving DecidableEq, Repr

/-- The body of the loop. There is no result when the reader leaves the memory. -/
def parseRound (p : List ℕ) : Option Round := do
  let p ← scanWhile isBetween p
  let c ← p.head?
  if c = byte '#' then
    let p ← scanWhile (· ≠ byte '\n') p
    some (.skipped p)
  else if c ≠ byte '"' then
    if c = byte ']' || c = 0 then some .stop else some (.skipped p.tail)
  else
    let start := p.tail
    let p ← scanWhile (· ≠ byte '"') start
    let c ← p.head?
    if c ≠ byte '"' then some .unterminated
    else some (.string (start.take (start.length - p.length)) p.tail)

/-- The loop, with at most so many rounds; no result is one that does not end, or leaves the
memory. -/
def parseArray (path : ByteString) : ℕ → List ByteString → List ℕ → Option Registry
  | 0, _, _ => none
  | n + 1, names, p => do
      let c ← p.head?
      if c = 0 || c = byte ']' then some { names }
      else
        match ← parseRound p with
        | .stop => some { names }
        | .skipped p => parseArray path n names p
        | .string name p => parseArray path n (names ++ [name]) p
        | .unterminated => some { names, error := some (unterminated path) }

/-- The contents of the file are in memory, with a zero behind them. Source: `parse_registry` -/
def parseRegistry (path contents : ByteString) : Option Registry :=
  let memory := contents ++ [0]
  match strstr (B "icons") memory with
  | none => some { names := [] }
  | some p =>
      match strchr (byte '[') p with
      | none => some { names := [] }
      | some p => parseArray path (memory.length + 1) [] p.tail

/-! ### What the reader should find -/

/-- The strings of an array up to its bracket or the end of the text, and whether they all end. -/
inductive Scans : ByteString → List ByteString → Bool → Prop
  | nil : Scans [] [] true
  | close (s : ByteString) : Scans (byte ']' :: s) [] true
  | skip {c : ℕ} {s : ByteString} {ns : List ByteString} {ok : Bool}
      (hc : c ≠ byte ']' ∧ c ≠ byte '#' ∧ c ≠ byte '"') (h : Scans s ns ok) : Scans (c :: s) ns ok
  /-- A comment goes up to the end of its line. -/
  | comment {body s : ByteString} {ns : List ByteString} {ok : Bool} (hbody : byte '\n' ∉ body)
      (h : Scans (byte '\n' :: s) ns ok) : Scans (byte '#' :: (body ++ byte '\n' :: s)) ns ok
  | lastComment {body : ByteString} (hbody : byte '\n' ∉ body) : Scans (byte '#' :: body) [] true
  | quoted {name s : ByteString} {ns : List ByteString} {ok : Bool} (hname : byte '"' ∉ name)
      (h : Scans s ns ok) : Scans (byte '"' :: (name ++ byte '"' :: s)) (name :: ns) ok
  | unterminated {s : ByteString} (hs : byte '"' ∉ s) : Scans (byte '"' :: s) [] false

/-- The reader's result for a text. -/
inductive IsRegistry (path : ByteString) : ByteString → Registry → Prop
  /-- There is no `icons` in the text. -/
  | noKey {s : ByteString} (h : ¬ B "icons" <:+: s) : IsRegistry path s { names := [] }
  /-- There is no bracket behind the first `icons`. -/
  | noArray {s t : ByteString} (hkey : IsFirst (B "icons") s t) (h : byte '[' ∉ t) :
      IsRegistry path s { names := [] }
  | array {s t body : ByteString} {ns : List ByteString} {ok : Bool}
      (hkey : IsFirst (B "icons") s t) (harray : IsFirst [byte '['] t (byte '[' :: body))
      (hscans : Scans body ns ok) :
      IsRegistry path s
        { names := ns, error := if ok then none else some (LinuxToml.unterminated path) }

/-! ### The reader is right -/

/-- A text up to a character, if it is there. -/
theorem dropWhile_ne_cases (c : ℕ) (s : List ℕ) :
    (c ∉ s ∧ s.dropWhile (· ≠ c) = []) ∨
      ∃ body t, c ∉ body ∧ s = body ++ c :: t ∧ s.dropWhile (· ≠ c) = c :: t := by
  by_cases hmem : c ∈ s
  · obtain ⟨body, t, rfl, hbody⟩ := List.eq_append_cons_of_mem hmem
    have hpos : ∀ d ∈ body, decide (d ≠ c) = true :=
      fun d hd => decide_eq_true fun heq => hbody (heq ▸ hd)
    refine Or.inr ⟨body, t, hbody, rfl, ?_⟩
    rw [List.dropWhile_append_of_pos hpos, List.dropWhile_cons_of_neg (by simp)]
  · refine Or.inl ⟨hmem, List.dropWhile_eq_nil_iff.mpr fun d hd => ?_⟩
    exact decide_eq_true fun heq => hmem (heq ▸ hd)

/-- What stands between two strings is skipped. -/
theorem Scans.between {s : ByteString} {ns : List ByteString} {ok : Bool}
    (h : Scans (s.dropWhile isBetween) ns ok) : Scans s ns ok := by
  induction s with
  | nil => exact h
  | cons c s ih =>
      cases hc : isBetween c with
      | true =>
          rw [List.dropWhile_cons_of_pos hc] at h
          refine .skip ⟨?_, ?_, ?_⟩ (ih h)
          all_goals
            rintro rfl
            revert hc
            decide
      | false => rwa [List.dropWhile_cons_of_neg (by simp [hc])] at h

/-- What a round should come to that starts at a text: what is left is a shorter text. -/
inductive IsRound (s : ByteString) (m : List ℕ) : Round → Prop
  | stop (h : Scans s [] true) : IsRound s m .stop
  | skipped (t : ByteString) (hlt : t.length < s.length) (hzero : 0 ∉ t)
      (h : ∀ ns ok, Scans t ns ok → Scans s ns ok) : IsRound s m (.skipped (t ++ 0 :: m))
  | string (name t : ByteString) (hlt : t.length < s.length) (hzero : 0 ∉ t)
      (h : ∀ ns ok, Scans t ns ok → Scans s (name :: ns) ok) :
      IsRound s m (.string name (t ++ 0 :: m))
  | unterminated (h : Scans s [] false) : IsRound s m .unterminated

/-- A round may start in front of what it starts with. -/
theorem IsRound.between {s : ByteString} {m : List ℕ} {r : Round}
    (h : IsRound (s.dropWhile isBetween) m r) : IsRound s m r := by
  have hlen := (List.dropWhile_suffix (l := s) isBetween).length_le
  cases h with
  | stop h => exact .stop h.between
  | skipped t hlt hzero h =>
      exact .skipped t (by omega) hzero fun ns ok ht => (h ns ok ht).between
  | string name t hlt hzero h =>
      exact .string name t (by omega) hzero fun ns ok ht => (h ns ok ht).between
  | unterminated h => exact .unterminated h.between

/-- The round of a comment. -/
theorem parseRound_hash {t : ByteString} (m : List ℕ) (ht : 0 ∉ t) :
    ∃ r, parseRound (byte '#' :: (t ++ 0 :: m)) = some r ∧ IsRound (byte '#' :: t) m r := by
  have hzero : 0 ∉ byte '#' :: t := List.not_mem_cons_of_ne_of_not_mem (by decide) ht
  have hround : parseRound (byte '#' :: (t ++ 0 :: m)) =
      some (.skipped (t.dropWhile (fun d => decide (d ≠ byte '\n')) ++ 0 :: m)) := by
    have hscan := scanWhile_text (m := m) (fun d => decide (d ≠ byte '\n')) hzero
    rw [List.cons_append, List.dropWhile_cons_of_pos (by decide)] at hscan
    unfold parseRound
    rw [scanWhile, if_neg (by decide)]
    simp only [Option.bind_eq_bind, Option.bind_some, List.head?_cons, if_true, hscan]
  refine ⟨_, hround, ?_⟩
  rcases dropWhile_ne_cases (byte '\n') t with ⟨hnot, hdrop⟩ | ⟨body, u, hbody, rfl, hdrop⟩
  · rw [hdrop]
    refine .skipped [] (by simp) (by simp) fun ns ok h => ?_
    cases h
    exact .lastComment hnot
  · rw [hdrop]
    refine .skipped (byte '\n' :: u) ?_ ?_ fun ns ok h => .comment hbody h
    · simp only [List.length_append, List.length_cons]
      omega
    · exact fun h => ht (List.mem_append_right _ h)

/-- The round of a string. -/
theorem parseRound_quote {t : ByteString} (m : List ℕ) (ht : 0 ∉ t) :
    ∃ r, parseRound (byte '"' :: (t ++ 0 :: m)) = some r ∧ IsRound (byte '"' :: t) m r := by
  unfold parseRound
  rw [scanWhile, if_neg (by decide)]
  simp only [Option.bind_eq_bind, Option.bind_some, List.head?_cons, List.tail_cons]
  rw [if_neg (by decide), if_neg (by simp), scanWhile_text _ ht]
  rcases dropWhile_ne_cases (byte '"') t with ⟨hnot, hdrop⟩ | ⟨name, u, hname, rfl, hdrop⟩
  · refine ⟨.unterminated, ?_, .unterminated (.unterminated hnot)⟩
    rw [hdrop]
    rfl
  · have htake : (name ++ byte '"' :: u ++ 0 :: m).take
        ((name ++ byte '"' :: u ++ 0 :: m).length - (byte '"' :: u ++ 0 :: m).length) = name := by
      rw [List.append_assoc, List.length_append, Nat.add_sub_cancel, List.take_left]
    refine ⟨.string name (u ++ 0 :: m), ?_, ?_⟩
    · rw [hdrop, Option.bind_some, htake]
      rfl
    · refine .string name u ?_ ?_ fun ns ok h => .quoted hname h
      · simp only [List.length_append, List.length_cons]
        omega
      · exact fun h => ht (List.mem_append_right _ (List.mem_cons_of_mem _ h))

/-- What is between the names is passed over. -/
theorem parseRound_dropWhile {s : ByteString} (m : List ℕ) (hs : 0 ∉ s) :
    parseRound (s ++ 0 :: m) = parseRound (s.dropWhile isBetween ++ 0 :: m) := by
  have hdrop : 0 ∉ s.dropWhile isBetween := fun h => hs ((List.dropWhile_suffix isBetween).mem h)
  unfold parseRound
  rw [scanWhile_text _ hs, scanWhile_text _ hdrop, List.dropWhile_idempotent]

/-- A round that starts at a text stays in the text. -/
theorem parseRound_spec {s : ByteString} (m : List ℕ) (hs : 0 ∉ s) :
    ∃ r, parseRound (s ++ 0 :: m) = some r ∧ IsRound s m r := by
  suffices h : ∃ r, parseRound (s.dropWhile isBetween ++ 0 :: m) = some r ∧
      IsRound (s.dropWhile isBetween) m r by
    obtain ⟨r, hr, hround⟩ := h
    exact ⟨r, (parseRound_dropWhile m hs).trans hr, hround.between⟩
  have hzero : 0 ∉ s.dropWhile isBetween := fun h => hs ((List.dropWhile_suffix isBetween).mem h)
  have hhead := List.head?_dropWhile_not isBetween s
  cases hdrop : s.dropWhile isBetween with
  | nil => exact ⟨.stop, rfl, .stop .nil⟩
  | cons c t =>
      rw [hdrop] at hzero hhead
      obtain ⟨hc, ht⟩ := not_or.mp (mt List.mem_cons.mpr hzero)
      have hbetween : isBetween c = false := hhead
      by_cases hhash : c = byte '#'
      · subst hhash
        exact parseRound_hash m ht
      by_cases hquote : c = byte '"'
      · subst hquote
        exact parseRound_quote m ht
      have hround : parseRound (c :: (t ++ 0 :: m)) =
          if c = byte ']' then some .stop else some (.skipped (t ++ 0 :: m)) := by
        unfold parseRound
        rw [scanWhile, if_neg (by simp [hbetween])]
        simp [hhash, hquote, Ne.symm hc]
      rw [List.cons_append, hround]
      by_cases hclose : c = byte ']'
      · subst hclose
        exact ⟨.stop, if_pos rfl, .stop (.close t)⟩
      · exact ⟨_, if_neg hclose,
          .skipped t (by simp) ht fun ns ok h => .skip ⟨hclose, hhash, hquote⟩ h⟩

variable {path : ByteString}

/-- One round of the loop. -/
theorem parseArray_step {n c : ℕ} (names : List ByteString) {p : List ℕ} (hc : c ≠ 0)
    (hclose : c ≠ byte ']') :
    parseArray path (n + 1) names (c :: p) = (parseRound (c :: p)).bind fun r =>
      match r with
      | .stop => some { names }
      | .skipped p => parseArray path n names p
      | .string name p => parseArray path n (names ++ [name]) p
      | .unterminated => some { names, error := some (unterminated path) } := by
  rw [parseArray]
  simp only [List.head?_cons, Option.bind_eq_bind, Option.bind_some, hc, hclose, decide_false,
    Bool.or_self, Bool.false_eq_true, if_false]

/-- **The loop ends, in memory, and finds the strings of the array.** -/
theorem parseArray_spec {n : ℕ} (names : List ByteString) {s : ByteString} (m : List ℕ)
    (hn : s.length < n) (hs : 0 ∉ s) :
    ∃ ns ok, Scans s ns ok ∧ parseArray path n names (s ++ 0 :: m) =
      some { names := names ++ ns, error := if ok then none else some (unterminated path) } := by
  induction n generalizing names s with
  | zero => exact absurd hn (Nat.not_lt_zero _)
  | succ n ih =>
      cases s with
      | nil => exact ⟨[], true, .nil, by rw [List.append_nil]; rfl⟩
      | cons c s =>
          have hc : c ≠ 0 := fun heq => hs (heq ▸ List.mem_cons_self)
          by_cases hclose : c = byte ']'
          · subst hclose
            exact ⟨[], true, .close s, by rw [List.append_nil]; rfl⟩
          · obtain ⟨r, hr, hround⟩ := parseRound_spec m hs
            rw [List.cons_append] at hr ⊢
            rw [parseArray_step names hc hclose, hr, Option.bind_some]
            rw [List.length_cons] at hn
            cases hround with
            | stop h => exact ⟨[], true, h, by rw [List.append_nil]; rfl⟩
            | skipped t hlt hzero h =>
                rw [List.length_cons] at hlt
                obtain ⟨ns, ok, hscans, heq⟩ := ih names (by omega) hzero
                exact ⟨ns, ok, h ns ok hscans, heq⟩
            | string name t hlt hzero h =>
                rw [List.length_cons] at hlt
                obtain ⟨ns, ok, hscans, heq⟩ := ih (names ++ [name]) (by omega) hzero
                refine ⟨name :: ns, ok, h ns ok hscans, ?_⟩
                rw [List.append_assoc] at heq
                exact heq
            | unterminated h => exact ⟨[], false, h, by rw [List.append_nil]; rfl⟩

/-- **The reader ends on every byte string, stays in memory, and finds what it should.** -/
theorem parseRegistry_spec (path contents : ByteString) :
    ∃ r, parseRegistry path contents = some r ∧ IsRegistry path (text contents) r := by
  obtain ⟨m, hm⟩ := exists_memory contents
  have hzero := zero_not_mem_text contents
  unfold parseRegistry
  rw [hm]
  rcases @strstr_text _ m (B "icons") (by decide) (by decide) hzero with
    ⟨hnone, heq⟩ | ⟨t, hkey, heq⟩
  · refine ⟨{ names := [] }, ?_, .noKey hnone⟩
    simp only [heq]
  · have ht : 0 ∉ t := fun h => hzero (hkey.suffix.mem h)
    rcases strchr_text (m := m) (c := byte '[') (by decide) ht with ⟨hnone, heq'⟩ | ⟨u, harray, heq'⟩
    · refine ⟨{ names := [] }, ?_, .noArray hkey hnone⟩
      simp only [heq, heq']
    · obtain ⟨body, rfl⟩ := harray.starts
      have hbody : 0 ∉ body := fun h => ht (harray.suffix.mem (List.mem_append_right _ h))
      have hlt : body.length < (text contents ++ 0 :: m).length + 1 := by
        have hlen := (harray.suffix.trans hkey.suffix).length_le
        simp only [List.length_append, List.length_singleton] at hlen ⊢
        omega
      obtain ⟨ns, ok, hscans, hparse⟩ := @parseArray_spec path _ [] body m hlt hbody
      refine ⟨_, ?_, .array hkey harray hscans⟩
      simp only [heq, heq']
      exact hparse

/-! ### There is one result -/

/-- What a scan says about a text, by its first character. -/
theorem Scans.inv {s : ByteString} {ns : List ByteString} {ok : Bool} (h : Scans s ns ok) :
    match s with
    | [] => ns = [] ∧ ok = true
    | c :: t =>
        (c = byte ']' ∧ ns = [] ∧ ok = true) ∨
        (c = byte '#' ∧ ((∃ body u, byte '\n' ∉ body ∧ t = body ++ byte '\n' :: u ∧
            Scans (byte '\n' :: u) ns ok) ∨ byte '\n' ∉ t ∧ ns = [] ∧ ok = true)) ∨
        (c = byte '"' ∧ ((∃ name u ns', byte '"' ∉ name ∧ t = name ++ byte '"' :: u ∧
            Scans u ns' ok ∧ ns = name :: ns') ∨ byte '"' ∉ t ∧ ns = [] ∧ ok = false)) ∨
        ((c ≠ byte ']' ∧ c ≠ byte '#' ∧ c ≠ byte '"') ∧ Scans t ns ok) := by
  cases h with
  | nil => exact ⟨rfl, rfl⟩
  | close s => exact .inl ⟨rfl, rfl, rfl⟩
  | skip hc h => exact .inr (.inr (.inr ⟨hc, h⟩))
  | comment hbody h => exact .inr (.inl ⟨rfl, .inl ⟨_, _, hbody, rfl, h⟩⟩)
  | lastComment hbody => exact .inr (.inl ⟨rfl, .inr ⟨hbody, rfl, rfl⟩⟩)
  | quoted hname h => exact .inr (.inr (.inl ⟨rfl, .inl ⟨_, _, _, hname, rfl, h, rfl⟩⟩))
  | unterminated hs => exact .inr (.inr (.inl ⟨rfl, .inr ⟨hs, rfl, rfl⟩⟩))

/-- A text has one cut at the first place of a character. -/
theorem cut_unique {c : ℕ} {a a' t t' : List ℕ} (ha : c ∉ a) (ha' : c ∉ a')
    (h : a ++ c :: t = a' ++ c :: t') : a = a' ∧ t = t' := by
  have hcut := cutAt_append ha t
  rw [h, cutAt_append ha' t', Option.some.injEq, Prod.mk.injEq] at hcut
  exact ⟨hcut.1.symm, hcut.2.symm⟩

/-- A text is scanned in one way. -/
theorem Scans.unique {s : ByteString} {ns ns' : List ByteString} {ok ok' : Bool}
    (h : Scans s ns ok) (h' : Scans s ns' ok') : ns = ns' ∧ ok = ok' := by
  induction h generalizing ns' ok' with
  | nil =>
      obtain ⟨rfl, rfl⟩ := h'.inv
      exact ⟨rfl, rfl⟩
  | close s =>
      rcases h'.inv with ⟨-, rfl, rfl⟩ | ⟨hc, -⟩ | ⟨hc, -⟩ | ⟨⟨hc, -⟩, -⟩
      · exact ⟨rfl, rfl⟩
      · cases hc
      · cases hc
      · exact absurd rfl hc
  | skip hc h ih =>
      rcases h'.inv with ⟨hc', -⟩ | ⟨hc', -⟩ | ⟨hc', -⟩ | ⟨-, h'⟩
      · exact absurd hc' hc.1
      · exact absurd hc' hc.2.1
      · exact absurd hc' hc.2.2
      · exact ih h'
  | comment hbody h ih =>
      rcases h'.inv with ⟨hc, -⟩ | ⟨-, ⟨body, u, hbody', heq, h'⟩ | ⟨hnot, -⟩⟩ | ⟨hc, -⟩ | ⟨⟨-, hc, -⟩, -⟩
      · cases hc
      · obtain ⟨-, rfl⟩ := cut_unique hbody hbody' heq
        exact ih h'
      · exact absurd (by simp) hnot
      · cases hc
      · exact absurd rfl hc
  | lastComment hbody =>
      rcases h'.inv with ⟨hc, -⟩ | ⟨-, ⟨body, u, -, rfl, -⟩ | ⟨-, rfl, rfl⟩⟩ | ⟨hc, -⟩ | ⟨⟨-, hc, -⟩, -⟩
      · cases hc
      · exact absurd (by simp) hbody
      · exact ⟨rfl, rfl⟩
      · cases hc
      · exact absurd rfl hc
  | quoted hname h ih =>
      rcases h'.inv with ⟨hc, -⟩ | ⟨hc, -⟩ | ⟨-, ⟨name, u, ns'', hname', heq, h', rfl⟩ | ⟨hnot, -⟩⟩ |
        ⟨⟨-, -, hc⟩, -⟩
      · cases hc
      · cases hc
      · obtain ⟨rfl, rfl⟩ := cut_unique hname hname' heq
        obtain ⟨rfl, rfl⟩ := ih h'
        exact ⟨rfl, rfl⟩
      · exact absurd (by simp) hnot
      · exact absurd rfl hc
  | unterminated hs =>
      rcases h'.inv with ⟨hc, -⟩ | ⟨hc, -⟩ | ⟨-, ⟨name, u, -, -, rfl, -⟩ | ⟨-, rfl, rfl⟩⟩ | ⟨⟨-, -, hc⟩, -⟩
      · cases hc
      · cases hc
      · exact absurd (by simp) hs
      · exact ⟨rfl, rfl⟩
      · exact absurd rfl hc

/-- So there is one registry to read. -/
theorem IsRegistry.unique {s : ByteString} {r r' : Registry} (h : IsRegistry path s r)
    (h' : IsRegistry path s r') : r = r' := by
  cases h with
  | noKey hnone =>
      cases h' with
      | noKey => rfl
      | noArray hkey => exact absurd (hkey.starts.isInfix.trans hkey.suffix.isInfix) hnone
      | array hkey => exact absurd (hkey.starts.isInfix.trans hkey.suffix.isInfix) hnone
  | noArray hkey hnone =>
      cases h' with
      | noKey => rfl
      | noArray => rfl
      | array hkey' harray =>
          obtain rfl := hkey.unique hkey'
          exact absurd (harray.suffix.mem List.mem_cons_self) hnone
  | array hkey harray hscans =>
      cases h' with
      | noKey hnone => exact absurd (hkey.starts.isInfix.trans hkey.suffix.isInfix) hnone
      | noArray hkey' hnone =>
          obtain rfl := hkey.unique hkey'
          exact absurd (harray.suffix.mem List.mem_cons_self) hnone
      | array hkey' harray' hscans' =>
          obtain rfl := hkey.unique hkey'
          obtain ⟨-, rfl⟩ := List.cons.inj (harray.unique harray')
          obtain ⟨rfl, rfl⟩ := hscans.unique hscans'
          rfl

/-! ### What is written -/

/-- The part of the header in front of the first `icons`. -/
def headerFront : ByteString := B "# axan icon registry — written by `axan --import-"

/-- What stands between the first `icons` and the bracket. -/
def headerBack : ByteString :=
  B "`.\n# Drop SVGs into ~/.config/axan/icons/, then re-import to refresh.\n" ++
    B "# Files in that directory that aren't listed here will NOT appear\n" ++
    B "# in the picker — usually because they failed validation.\n\nicons = "

/-- The text of the array. -/
def writtenArray (names : List ByteString) : ByteString :=
  if names.isEmpty then B "]\n" else B "\n" ++ names.flatMap iconLine ++ B "]\n"

/-- The written registry in its parts. -/
theorem writeRegistry_eq (names : List ByteString) : writeRegistry names =
    headerFront ++ (B "icons" ++ (headerBack ++ ([byte '['] ++ writtenArray names))) := by
  have hheader : registryHeader ++ B "icons = [" =
      headerFront ++ (B "icons" ++ (headerBack ++ [byte '['])) := by decide +kernel
  have hnone : B "icons = []\n" = B "icons = [" ++ B "]\n" := by decide
  have hsome : B "icons = [\n" = B "icons = [" ++ B "\n" := by decide
  have hsplit : writeRegistry names = registryHeader ++ B "icons = [" ++ writtenArray names := by
    unfold writeRegistry writtenArray
    rw [hnone, hsome]
    split <;> simp only [List.append_assoc]
  rw [hsplit, hheader]
  simp only [List.append_assoc]

/-- A name without quotes is between its own. -/
theorem scans_lines {names : List ByteString} (h : ∀ n ∈ names, byte '"' ∉ n) :
    Scans (names.flatMap iconLine ++ B "]\n") names true := by
  induction names with
  | nil => exact .close (B "\n")
  | cons n names ih =>
      have hline : (n :: names).flatMap iconLine ++ B "]\n" = byte ' ' :: byte ' ' :: byte '"' ::
          (n ++ byte '"' :: byte ',' :: byte '\n' :: (names.flatMap iconLine ++ B "]\n")) := by
        have hopen : B "  \"" = [byte ' ', byte ' ', byte '"'] := by decide
        have hclose : B "\",\n" = [byte '"', byte ',', byte '\n'] := by decide
        rw [List.flatMap_cons, iconLine, hopen, hclose]
        simp
      rw [hline]
      refine .skip (by decide) (.skip (by decide) (.quoted (h n List.mem_cons_self) ?_))
      refine .skip (by decide) (.skip (by decide) ?_)
      exact ih fun m hm => h m (List.mem_cons_of_mem _ hm)

/-- The written names are scanned back. -/
theorem scans_writtenArray {names : List ByteString} (h : ∀ n ∈ names, byte '"' ∉ n) :
    Scans (writtenArray names) names true := by
  cases names with
  | nil => exact .close (B "\n")
  | cons n names =>
      have hscans := scans_lines h
      exact .skip (by decide) hscans

/-- The first `icons` of the file is in the first comment, and the first bracket behind it is that
of the array. -/
theorem isRegistry_written (path : ByteString) {names : List ByteString}
    (h : ∀ n ∈ names, byte '"' ∉ n) : IsRegistry path (writeRegistry names) { names } := by
  rw [writeRegistry_eq]
  have hkey := @isFirst_append (B "icons") headerFront
    (headerBack ++ ([byte '['] ++ writtenArray names)) (by decide +kernel)
  have harray := @isFirst_append [byte '['] (B "icons" ++ headerBack) (writtenArray names)
    (by decide +kernel)
  rw [List.append_assoc] at harray
  exact .array hkey harray (scans_writtenArray h)

/-- Contents without a NUL are all read. -/
theorem text_of_not_mem {contents : List ℕ} (h : 0 ∉ contents) : text contents = contents :=
  List.takeWhile_eq_self_iff.mpr fun _ hc => decide_eq_true fun heq => h (heq ▸ hc)

/-- The written registry has no NUL. -/
theorem zero_not_mem_written {names : List ByteString} (h : ∀ n ∈ names, 0 ∉ n) :
    0 ∉ writeRegistry names := by
  have hlines : 0 ∉ names.flatMap iconLine := by
    intro hmem
    obtain ⟨n, hn, hmem⟩ := List.mem_flatMap.mp hmem
    unfold iconLine at hmem
    rcases List.mem_append.mp hmem with hmem | hmem
    · rcases List.mem_append.mp hmem with hmem | hmem
      · revert hmem
        decide
      · exact h n hn hmem
    · revert hmem
      decide
  have hheader : 0 ∉ registryHeader := by decide +kernel
  unfold writeRegistry
  split
  · simp only [List.mem_append, not_or]
    exact ⟨hheader, by decide⟩
  · simp only [List.mem_append, not_or]
    exact ⟨hheader, ⟨by decide, hlines⟩, by decide⟩

/-- **Names without quotes and zeros are read back.** -/
theorem parseRegistry_written (path : ByteString) {names : List ByteString}
    (h : ∀ n ∈ names, byte '"' ∉ n ∧ 0 ∉ n) :
    parseRegistry path (writeRegistry names) = some { names } := by
  obtain ⟨r, hparse, hr⟩ := parseRegistry_spec path (writeRegistry names)
  rw [text_of_not_mem (zero_not_mem_written fun n hn => (h n hn).2)] at hr
  rw [hparse, hr.unique (isRegistry_written path fun n hn => (h n hn).1)]

/-! ### Names that are accepted -/

/-- The characters of a stem are letters, digits, `_` and `-`. -/
theorem not_mem_of_isStem {stem : ByteString} (h : isStem stem = true) {c : ℕ}
    (hc : isAlnumLower c = false ∧ c ≠ byte '_' ∧ c ≠ byte '-') : c ∉ stem := by
  cases stem with
  | nil => exact List.not_mem_nil
  | cons d ds =>
      obtain ⟨hd, hds⟩ := Bool.and_eq_true_iff.mp h
      intro hmem
      rcases List.mem_cons.mp hmem with rfl | hmem
      · rw [hc.1] at hd
        cases hd
      · have hone := List.all_eq_true.mp hds c hmem
        simp [hc] at hone

/-- A file name has no quote and no NUL. -/
theorem not_mem_of_filenameRegex {name : ByteString} (h : filenameRegex name = true) :
    byte '"' ∉ name ∧ 0 ∉ name := by
  obtain ⟨br, hbr, hname⟩ := List.any_eq_true.mp h
  obtain ⟨hsuffix, hstem⟩ := Bool.and_eq_true_iff.mp hname
  obtain ⟨stem, rfl⟩ := List.isSuffixOf_iff_suffix.mp hsuffix
  rw [List.length_append, Nat.add_sub_cancel, List.take_left] at hstem
  have hbreaks : ∀ br ∈ lineBreaks, byte '"' ∉ B ".svg" ++ br ∧ 0 ∉ B ".svg" ++ br := by decide
  obtain ⟨hquote, hzero⟩ := hbreaks br hbr
  constructor
  · intro hmem
    rcases List.mem_append.mp hmem with hmem | hmem
    · exact not_mem_of_isStem hstem (by decide) hmem
    · exact hquote hmem
  · intro hmem
    rcases List.mem_append.mp hmem with hmem | hmem
    · exact not_mem_of_isStem hstem (by decide) hmem
    · exact hzero hmem

/-- The name of an icon has no other characters than its file. -/
theorem mem_of_mem_stripSvgExt {name : ByteString} {c : ℕ} (h : c ∈ stripSvgExt name) : c ∈ name := by
  unfold stripSvgExt at h
  split_ifs at h
  · exact List.mem_of_mem_take h
  · exact h

/-- **The registry reads back what it writes**, for every list of files whose names are accepted;
and on every byte string the reader ends, stays in memory, and collects the quoted strings of the
array, or reports the one that does not end. -/
theorem registry_readsBack (path : ByteString) {files : List ByteString}
    (hfiles : ∀ f ∈ files, validateFilename f = none) :
    parseRegistry path (writeRegistry (files.map stripSvgExt)) =
        some { names := files.map stripSvgExt } ∧
      ∀ contents, ∃ r, parseRegistry path contents = some r ∧ IsRegistry path (text contents) r := by
  refine ⟨parseRegistry_written path fun n hn => ?_, parseRegistry_spec path⟩
  obtain ⟨f, hf, rfl⟩ := List.mem_map.mp hn
  have hregex : filenameRegex f = true := by
    have hnone := hfiles f hf
    unfold validateFilename at hnone
    split_ifs at hnone with hregex
    exact hregex
  obtain ⟨hquote, hzero⟩ := not_mem_of_filenameRegex hregex
  exact ⟨fun h => hquote (mem_of_mem_stripSvgExt h), fun h => hzero (mem_of_mem_stripSvgExt h)⟩

/-- Two files, one of them with a line break at its end, and a string that does not end. -/
theorem registry_readsBack_sample :
    parseRegistry (B "icons.toml") (writeRegistry ([B "a.svg", B "b-2.svg\n"].map stripSvgExt)) =
        some { names := [B "a", B "b-2.svg\n"] } ∧
      ∃ r, parseRegistry (B "icons.toml") (B "icons = [\"a\", # b\n \"c") = some r ∧
        IsRegistry (B "icons.toml") (text (B "icons = [\"a\", # b\n \"c")) r := by
  have hnames : [B "a.svg", B "b-2.svg\n"].map stripSvgExt = [B "a", B "b-2.svg\n"] := by decide
  obtain ⟨hback, hall⟩ := @registry_readsBack (B "icons.toml") [B "a.svg", B "b-2.svg\n"] (by decide)
  rw [hnames] at hback ⊢
  exact ⟨hback, hall _⟩

end Axan.LinuxToml
