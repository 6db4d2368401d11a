import Axan.Base.Template
import Axan.Base.Utf8

/-!
# The two label expanders

The label of a row is a template with variables. Linux expands it byte by byte with a pointer into
a C string, Windows unit by unit with an index into a wide string.

* `Var`, `LabelValues` — the variables, and what they and the files are worth.
* `lookupKey` — the known names, the same on both sides.
* `sidebarExpandNameTemplate` — the Linux expander; `expandLabelTemplate` — the Windows expander.
* `render` — what the pieces of a template stand for.
* `sidebarExpandNameTemplate_eq`, `expandLabelTemplate_eq` — each expander reads the template
  language of `Axan.Base.Template`, on any string.
* `label_expanders_agree` — on the same template and values they produce the same text.
-/

namespace Axan.RowLabel

open Axan.Base Axan.Base.Template

/-! ### Values -/

/-- The known variables. -/
inductive Var where
  | pwd
  | dir
  | user
  | host
  | shell
  | title
  | branch
  | repo
  deriving DecidableEq, Repr

/-- What there is to put into a template. -/
structure LabelValues (α : Type) where
  /-- `$~`, the directory with the home directory collapsed. -/
  home : List α
  var : Var → List α
  /-- The first line of a file, empty when it cannot be read. -/
  fileLine : List α → List α

section lookup

variable {α : Type} [DecidableEq α] (lits : String → List α)

/-- The known names, against a name in lower case without `_` and `-`. -/
def lookupKey (v : LabelValues α) (key : List α) : Option (List α) :=
  if key = lits "pwd" || key = lits "cwd" then some (v.var .pwd)
  else if key = lits "dir" then some (v.var .dir)
  else if key = lits "user" then some (v.var .user)
  else if key = lits "host" || key = lits "hostname" then some (v.var .host)
  else if key = lits "shell" then some (v.var .shell)
  else if key = lits "cmd" || key = lits "title" then some (v.var .title)
  else if key = lits "branch" || key = lits "gitbranch" then some (v.var .branch)
  else if key = lits "repo" || key = lits "gitrepo" then some (v.var .repo)
  else none

end lookup

/-! ### Linux -/

/-- Source: `g_ascii_isalnum` -/
def gAsciiIsalnum (b : ℕ) : Bool :=
  (byte 'A' ≤ b && b ≤ byte 'Z') || (byte 'a' ≤ b && b ≤ byte 'z') ||
    (byte '0' ≤ b && b ≤ byte '9')

/-- Source: `g_ascii_tolower` -/
def gAsciiTolower (b : ℕ) : ℕ := if byte 'A' ≤ b && b ≤ byte 'Z' then b + 32 else b

/-- The bytes of a variable name. -/
def isNameByte (b : ℕ) : Bool := gAsciiIsalnum b || b = byte '_' || b = byte '-'

/-- Source: `sidebar_lookup_template_var` -/
def sidebarLookupTemplateVar (v : LabelValues ℕ) (name : ByteString) : Option ByteString :=
  if name = B "~" then some v.home
  else lookupKey B v ((name.map gAsciiTolower).filter fun b => b ≠ byte '-' && b ≠ byte '_')

/-- One round at the byte `c`, with the bytes behind it: what is appended, and where the pointer
goes. -/
def sidebarExpandStep (v : LabelValues ℕ) (c : ℕ) (p : ByteString) : ByteString × ByteString :=
  if c ≠ byte '$' then ([c], p)
  else if p.head? = some (byte '{') then
    let bodyStart := p.tail
    match cutAt (byte '}') bodyStart with
    | none => (B "$\x7b", bodyStart)
    | some (body, after) =>
        if B "file:" <+: body then (v.fileLine (body.drop 5), after)
        else (B "$\x7b" ++ body ++ [byte '}'], after)
  else if p.head? = some (byte '~') then ((sidebarLookupTemplateVar v (B "~")).getD [], p.tail)
  else
    let name := p.takeWhile isNameByte
    if name = [] then ([byte '$'], p)
    else
      match sidebarLookupTemplateVar v name with
      | some val => (val, p.dropWhile isNameByte)
      | none => (byte '$' :: name, p.dropWhile isNameByte)

/-- The loop of the expander; every round uses a byte up. -/
def sidebarExpandLoop (v : LabelValues ℕ) : ℕ → ByteString → ByteString → ByteString
  | 0, out, _ => out
  | _ + 1, out, [] => out
  | n + 1, out, c :: p =>
      sidebarExpandLoop v n (out ++ (sidebarExpandStep v c p).1) (sidebarExpandStep v c p).2

/-- Source: `sidebar_expand_name_template` -/
def sidebarExpandNameTemplate (v : LabelValues ℕ) (tmpl : Option ByteString) : ByteString :=
  match tmpl with
  | none => []
  | some t => sidebarExpandLoop v t.length [] t

/-! ### Windows -/

/-- Source: `_asciiLowerInPlace`, one unit -/
def asciiLower (c : WChar) : WChar :=
  if inRange 'A' 'Z' c then Fin.ofNat 65536 (c.val + 32) else c

/-- Source: `isIdent` -/
def isIdent (c : WChar) : Bool :=
  inRange 'A' 'Z' c || inRange 'a' 'z' c || inRange '0' '9' c || c = wide '_' || c = wide '-'

/-- Source: `_lookupVar` -/
def lookupVar (v : LabelValues WChar) (rawName : WString) : Option WString :=
  if rawName = L "~" then some v.home
  else lookupKey L v ((rawName.filter fun c => c ≠ wide '_' && c ≠ wide '-').map asciiLower)

/-- The first index of a unit, from a position on. Source: `std::wstring_view::find` -/
def findFrom (s : WString) (c : WChar) (pos : ℕ) : Option ℕ :=
  ((s.drop pos).findIdx? (· = c)).map (pos + ·)

/-- One round at the index `i` of a unit `c`: what is appended, and the next index. -/
def expandStep (v : LabelValues WChar) (tmpl : WString) (i : ℕ) (c : WChar) : WString × ℕ :=
  if c ≠ wide '$' then ([c], i + 1)
  else if tmpl[i + 1]? = some (wide '{') then
    let bodyStart := i + 2
    match findFrom tmpl (wide '}') bodyStart with
    | none => (L "$\x7b", i + 2)
    | some close =>
        let body := (tmpl.drop bodyStart).take (close - bodyStart)
        if L "file:" <+: body then (v.fileLine (body.drop 5), close + 1)
        else (wide '$' :: wide '{' :: body ++ [wide '}'], close + 1)
  else if tmpl[i + 1]? = some (wide '~') then ((lookupVar v (L "~")).getD [], i + 2)
  else
    let nameStart := i + 1
    let name := (tmpl.drop nameStart).takeWhile isIdent
    if name = [] then ([wide '$'], i + 1)
    else
      match lookupVar v name with
      | some val => (val, nameStart + name.length)
      | none => (wide '$' :: name, nameStart + name.length)

/-- The loop of the expander; every round moves the index on. -/
def expandLoop (v : LabelValues WChar) (tmpl : WString) : ℕ → ℕ → WString → WString
  | 0, _, out => out
  | n + 1, i, out =>
      match tmpl[i]? with
      | none => out
      | some c => expandLoop v tmpl n (expandStep v tmpl i c).2 (out ++ (expandStep v tmpl i c).1)

/-- Source: `ExpandLabelTemplate` -/
def expandLabelTemplate (v : LabelValues WChar) (tmpl : WString) : WString :=
  expandLoop v tmpl tmpl.length 0 []

/-! ### The language -/

/-- What a piece stands for. -/
def renderWith {α : Type} (A : Alphabet α) (v : LabelValues α) (lookup : List α → Option (List α)) :
    Piece α → List α
  | .text s => s
  | .file path => v.fileLine path
  | .home => v.home
  | .var name => (lookup name).getD (A.lit '$' :: name)

/-- The names of a variable. -/
def Var.names : Var → List String
  | .pwd => ["pwd", "cwd"]
  | .dir => ["dir"]
  | .user => ["user"]
  | .host => ["host", "hostname"]
  | .shell => ["shell"]
  | .title => ["cmd", "title"]
  | .branch => ["branch", "gitbranch"]
  | .repo => ["repo", "gitrepo"]

/-- A name in lower case, without `_` and `-`. -/
def normalise (name : List Char) : List Char :=
  (name.filter fun c => c ≠ '_' && c ≠ '-').map Char.toLower

/-- The variable of a name. -/
def varNamed (name : List Char) : Option Var :=
  [Var.pwd, .dir, .user, .host, .shell, .title, .branch, .repo].find? fun x =>
    x.names.any fun s => s.toList = normalise name

/-- What a piece of a template of characters stands for. -/
def render (v : LabelValues Char) : Piece Char → List Char :=
  renderWith chars v fun name => (varNamed name).map v.var

/-! ### Linux reads the language -/

/-- Characters are ordered as their bytes. -/
theorem le_iff_byte_le {c d : Char} : c ≤ d ↔ byte c ≤ byte d := Iff.rfl

/-- The bytes. -/
def byteAlphabet : Alphabet ℕ where
  lit := byte
  isName := isNameByte
  lit_inj := fun _ _ h => byte_injective h
  isName_lit := fun {m} _ => by
    simp [isNameByte, gAsciiIsalnum, isNameChar, le_iff_byte_le, byte_injective.eq_iff]

/-- What a piece stands for in a C string. -/
def renderBytes (v : LabelValues ℕ) : Piece ℕ → ByteString :=
  renderWith byteAlphabet v (sidebarLookupTemplateVar v)

/-- A dollar and a brace begin a file, or a text that is copied. -/
theorem sidebarExpandStep_brace (v : LabelValues ℕ) (bodyStart : ByteString) :
    sidebarExpandStep v (byte '$') (byte '{' :: bodyStart) =
      match cutAt (byteAlphabet.lit '}') bodyStart with
      | none => (B "$\x7b", bodyStart)
      | some (body, after) =>
          if B "file:" <+: body then (v.fileLine (body.drop 5), after)
          else (B "$\x7b" ++ body ++ [byte '}'], after) := by
  unfold sidebarExpandStep
  rw [if_neg (not_not.mpr rfl), List.head?_cons, if_pos rfl]
  rfl

/-- Any other dollar begins a variable, or stands for itself. -/
theorem sidebarExpandStep_dollar (v : LabelValues ℕ) {p : ByteString}
    (hbrace : p.head? ≠ some (byteAlphabet.lit '{'))
    (htilde : p.head? ≠ some (byteAlphabet.lit '~')) :
    sidebarExpandStep v (byte '$') p =
      if p.takeWhile byteAlphabet.isName = [] then ([byte '$'], p)
      else (renderBytes v (.var (p.takeWhile byteAlphabet.isName)),
        p.dropWhile byteAlphabet.isName) := by
  unfold sidebarExpandStep
  refine (if_neg (not_not.mpr rfl)).trans ((if_neg hbrace).trans ((if_neg htilde).trans ?_))
  change (if p.takeWhile isNameByte = [] then _ else _) = if p.takeWhile isNameByte = [] then _ else _
  congr 1
  unfold renderBytes renderWith
  change _ = ((sidebarLookupTemplateVar v (p.takeWhile isNameByte)).getD _, _)
  cases sidebarLookupTemplateVar v (p.takeWhile isNameByte) <;> rfl

/-- One round takes a piece of the language off the front. -/
theorem sidebarExpandStep_of_next (v : LabelValues ℕ) {c : ℕ} {p r : ByteString} {q : Piece ℕ}
    (h : Next byteAlphabet (c :: p) q r) : sidebarExpandStep v c p = (renderBytes v q, r) := by
  generalize ht : c :: p = t at h
  cases h with
  | plain h =>
      obtain ⟨rfl, rfl⟩ := List.cons.inj ht
      unfold sidebarExpandStep
      exact if_pos h
  | @file path r h =>
      obtain ⟨rfl, rfl⟩ := List.cons.inj ht
      have hbody : byteAlphabet.lit '}' ∉ byteAlphabet.fileTag ++ path := by
        rw [List.mem_append, not_or]
        exact ⟨brace_not_mem_fileTag, h⟩
      refine (sidebarExpandStep_brace v _).trans ?_
      rw [cutAt_append hbody]
      exact if_pos (List.prefix_append _ _)
  | brace h hfile =>
      obtain ⟨rfl, rfl⟩ := List.cons.inj ht
      refine (sidebarExpandStep_brace v _).trans ?_
      rw [cutAt_append h]
      exact if_neg hfile
  | unclosed h =>
      obtain ⟨rfl, rfl⟩ := List.cons.inj ht
      refine (sidebarExpandStep_brace v _).trans ?_
      rw [(cutAt_eq_none_iff _).mpr h]
      rfl
  | home =>
      obtain ⟨rfl, rfl⟩ := List.cons.inj ht
      rfl
  | @var name r hne hname hr =>
      obtain ⟨rfl, rfl⟩ := List.cons.inj ht
      have hbrace := head?_ne_of_isName (r := r) hne hname (m := '{') (by decide) (by decide)
      have htilde := head?_ne_of_isName (r := r) hne hname (m := '~') (by decide) (by decide)
      obtain ⟨htake, hdrop⟩ := takeWhile_name hname hr
      refine (sidebarExpandStep_dollar v hbrace htilde).trans ?_
      rw [htake, hdrop, if_neg hne]
  | dollar hr =>
      obtain ⟨rfl, rfl⟩ := List.cons.inj ht
      refine (sidebarExpandStep_dollar v (fun h => (hr _ h).1 rfl) fun h => (hr _ h).2.1 rfl).trans ?_
      rw [(takeWhile_eq_nil_of_head? fun a ha => (hr a ha).2.2).1, if_pos rfl]
      rfl

/-- The Linux expander reads the language, on every C string. -/
theorem sidebarExpandLoop_eq (v : LabelValues ℕ) {n : ℕ} (out : ByteString) {p : ByteString}
    (hn : p.length ≤ n) :
    sidebarExpandLoop v n out p = out ++ (pieces byteAlphabet p).flatMap (renderBytes v) := by
  induction n generalizing out p with
  | zero =>
      obtain rfl := List.length_eq_zero_iff.mp (Nat.le_zero.mp hn)
      rw [pieces]
      exact (List.append_nil out).symm
  | succ n ih =>
      cases p with
      | nil =>
          rw [pieces]
          exact (List.append_nil out).symm
      | cons c p =>
          have hnext := next_nextPiece byteAlphabet c p
          have hlen := length_nextPiece byteAlphabet c p
          rw [sidebarExpandLoop, sidebarExpandStep_of_next v hnext,
            ih _ (hlen.trans (Nat.le_of_succ_le_succ hn)), pieces, List.flatMap_cons,
            List.append_assoc]

/-- The sidebar renders the pieces of the template. -/
theorem sidebarExpandNameTemplate_eq (v : LabelValues ℕ) (tmpl : ByteString) :
    sidebarExpandNameTemplate v (some tmpl) =
      (pieces byteAlphabet tmpl).flatMap (renderBytes v) :=
  sidebarExpandLoop_eq v [] le_rfl

/-! ### Windows reads the language -/

/-- The value of an ASCII character is its code. -/
theorem val_wide {c : Char} (h : isAscii c = true) : (wide c).val = c.toNat := by
  unfold wide
  rw [Fin.val_ofNat]
  exact Nat.mod_eq_of_lt ((of_decide_eq_true h).trans (by decide))

/-- No two of them are the same unit. -/
theorem wide_inj {c d : Char} (hc : isAscii c = true) (hd : isAscii d = true)
    (h : wide c = wide d) : c = d := by
  apply eq_of_toNat_eq
  rw [← val_wide hc, ← val_wide hd, h]

/-- Ranges are those of the characters. -/
theorem inRange_wide {lo hi c : Char} (h : isAscii c = true) :
    inRange lo hi (wide c) = (lo ≤ c && c ≤ hi) := by
  unfold inRange
  rw [val_wide h]
  rfl

/-- The units. -/
def wideAlphabet : Alphabet WChar where
  lit := wide
  isName := isIdent
  lit_inj := wide_inj
  isName_lit := fun {m} hm => by
    have heq : ∀ {n}, isAscii n = true → (wide m = wide n ↔ m = n) := fun hn =>
      ⟨wide_inj hm hn, congrArg wide⟩
    unfold isIdent isNameChar
    rw [inRange_wide hm, inRange_wide hm, inRange_wide hm, decide_eq_decide.mpr (heq (by decide)),
      decide_eq_decide.mpr (heq (by decide))]

/-- What a piece stands for in a wide string. -/
def renderUnits (v : LabelValues WChar) : Piece WChar → WString :=
  renderWith wideAlphabet v (lookupVar v)

/-- A text is dropped piece by piece. -/
theorem drop_of_drop {α : Type} {s b r : List α} {i : ℕ} (h : s.drop i = b ++ r) :
    s.drop (i + b.length) = r := by
  rw [← List.drop_drop, h, List.drop_left]

/-- The end of a text without the character is where it is found. -/
theorem findFrom_of_drop {s b r : WString} {c : WChar} {pos : ℕ} (h : s.drop pos = b ++ c :: r)
    (hb : c ∉ b) : findFrom s c pos = some (pos + b.length) := by
  unfold findFrom
  rw [h, List.findIdx?_append, List.findIdx?_eq_none_iff.mpr]
  · simp [List.findIdx?_cons]
  · intro x hx
    refine decide_eq_false ?_
    rintro rfl
    exact hb hx

/-- Without the character nothing is found. -/
theorem findFrom_of_not_mem {s : WString} {c : WChar} {pos : ℕ} (h : c ∉ s.drop pos) :
    findFrom s c pos = none := by
  unfold findFrom
  rw [List.findIdx?_eq_none_iff.mpr]
  · rfl
  · intro x hx
    refine decide_eq_false ?_
    rintro rfl
    exact h hx

/-- A brace form that is closed. -/
theorem expandStep_closed (v : LabelValues WChar) {tmpl body r : WString} {i : ℕ}
    (hdrop : tmpl.drop (i + 1) = wide '{' :: (body ++ wide '}' :: r)) (hbody : wide '}' ∉ body) :
    expandStep v tmpl i (wide '$') =
        (if L "file:" <+: body then (v.fileLine (body.drop 5), i + 2 + body.length + 1)
        else (wide '$' :: wide '{' :: body ++ [wide '}'], i + 2 + body.length + 1)) ∧
      tmpl.drop (i + 2 + body.length + 1) = r := by
  have htail : tmpl.drop (i + 2) = body ++ wide '}' :: r := drop_of_drop (b := [wide '{']) hdrop
  constructor
  · unfold expandStep
    rw [if_neg (not_not.mpr rfl), ← List.head?_drop, hdrop, List.head?_cons, if_pos rfl]
    dsimp only
    rw [findFrom_of_drop htail hbody]
    dsimp only
    rw [htail, Nat.add_sub_cancel_left, List.take_left]
  · exact drop_of_drop (b := [wide '}']) (drop_of_drop htail)

/-- A dollar that starts no brace form. -/
theorem expandStep_dollar (v : LabelValues WChar) {tmpl p : WString} {i : ℕ}
    (hdrop : tmpl.drop (i + 1) = p) (hbrace : p.head? ≠ some (wideAlphabet.lit '{'))
    (htilde : p.head? ≠ some (wideAlphabet.lit '~')) :
    expandStep v tmpl i (wide '$') =
      if p.takeWhile wideAlphabet.isName = [] then ([wide '$'], i + 1)
      else (renderUnits v (.var (p.takeWhile wideAlphabet.isName)),
        i + 1 + (p.takeWhile wideAlphabet.isName).length) := by
  unfold expandStep
  rw [if_neg (not_not.mpr rfl), ← List.head?_drop, hdrop]
  refine (if_neg hbrace).trans ((if_neg htilde).trans ?_)
  dsimp only
  rw [hdrop]
  change (if p.takeWhile isIdent = [] then _ else _) = if p.takeWhile isIdent = [] then _ else _
  congr 1
  unfold renderUnits renderWith
  change _ = ((lookupVar v (p.takeWhile isIdent)).getD _, _)
  cases lookupVar v (p.takeWhile isIdent) <;> rfl

/-- One round takes a piece of the language off the front. -/
theorem expandStep_of_next (v : LabelValues WChar) {tmpl p r : WString} {i : ℕ} {c : WChar}
    {q : Piece WChar} (hdrop : tmpl.drop i = c :: p) (h : Next wideAlphabet (c :: p) q r) :
    (expandStep v tmpl i c).1 = renderUnits v q ∧ tmpl.drop (expandStep v tmpl i c).2 = r := by
  have hp : tmpl.drop (i + 1) = p := drop_of_drop (b := [c]) hdrop
  clear hdrop
  generalize ht : c :: p = t at h
  cases h with
  | plain h =>
      obtain ⟨rfl, rfl⟩ := List.cons.inj ht
      have hstep : expandStep v tmpl i c = ([c], i + 1) := by
        unfold expandStep
        exact if_pos h
      rw [hstep]
      exact ⟨rfl, hp⟩
  | @file path r h =>
      obtain ⟨rfl, rfl⟩ := List.cons.inj ht
      have hbody : wideAlphabet.lit '}' ∉ wideAlphabet.fileTag ++ path := by
        rw [List.mem_append, not_or]
        exact ⟨brace_not_mem_fileTag, h⟩
      obtain ⟨hstep, hr⟩ := expandStep_closed v hp hbody
      have htag : L "file:" <+: wideAlphabet.fileTag ++ path := List.prefix_append _ _
      rw [show wideAlphabet.lit '$' = wide '$' from rfl, hstep, if_pos htag]
      exact ⟨rfl, hr⟩
  | brace h hfile =>
      obtain ⟨rfl, rfl⟩ := List.cons.inj ht
      obtain ⟨hstep, hr⟩ := expandStep_closed v hp h
      have htag : ¬ L "file:" <+: _ := hfile
      rw [show wideAlphabet.lit '$' = wide '$' from rfl, hstep, if_neg htag]
      exact ⟨rfl, hr⟩
  | unclosed h =>
      obtain ⟨rfl, rfl⟩ := List.cons.inj ht
      have htail : tmpl.drop (i + 2) = r := drop_of_drop (b := [wide '{']) hp
      have hstep : expandStep v tmpl i (wide '$') = (L "$\x7b", i + 2) := by
        unfold expandStep
        rw [if_neg (not_not.mpr rfl), ← List.head?_drop, hp, List.head?_cons]
        refine (if_pos rfl).trans ?_
        dsimp only
        rw [findFrom_of_not_mem (by rw [htail]; exact h)]
      rw [show wideAlphabet.lit '$' = wide '$' from rfl, hstep]
      exact ⟨rfl, htail⟩
  | home =>
      obtain ⟨rfl, rfl⟩ := List.cons.inj ht
      have hne : wideAlphabet.lit '~' ≠ wideAlphabet.lit '{' := by decide
      have hstep : expandStep v tmpl i (wide '$') = (v.home, i + 2) := by
        unfold expandStep
        rw [if_neg (not_not.mpr rfl), ← List.head?_drop, hp, List.head?_cons]
        exact (if_neg fun heq => hne (Option.some.inj heq)).trans (if_pos rfl)
      rw [show wideAlphabet.lit '$' = wide '$' from rfl, hstep]
      exact ⟨rfl, drop_of_drop (b := [wide '~']) hp⟩
  | @var name r hne hname hr =>
      obtain ⟨rfl, rfl⟩ := List.cons.inj ht
      have hbrace := head?_ne_of_isName (r := r) hne hname (m := '{') (by decide) (by decide)
      have htilde := head?_ne_of_isName (r := r) hne hname (m := '~') (by decide) (by decide)
      have hstep := expandStep_dollar v hp hbrace htilde
      rw [(takeWhile_name hname hr).1, if_neg hne] at hstep
      rw [show wideAlphabet.lit '$' = wide '$' from rfl, hstep]
      exact ⟨rfl, drop_of_drop hp⟩
  | dollar hr =>
      obtain ⟨rfl, rfl⟩ := List.cons.inj ht
      have hstep := expandStep_dollar v hp (fun h => (hr _ h).1 rfl) fun h => (hr _ h).2.1 rfl
      rw [(takeWhile_eq_nil_of_head? fun a ha => (hr a ha).2.2).1, if_pos rfl] at hstep
      rw [show wideAlphabet.lit '$' = wide '$' from rfl, hstep]
      exact ⟨rfl, hp⟩

/-- The Windows expander reads the language, on every wide string. -/
theorem expandLoop_eq (v : LabelValues WChar) {tmpl : WString} {n i : ℕ} (out : WString)
    (hn : (tmpl.drop i).length ≤ n) :
    expandLoop v tmpl n i out =
      out ++ (pieces wideAlphabet (tmpl.drop i)).flatMap (renderUnits v) := by
  induction n generalizing i out with
  | zero =>
      rw [List.length_eq_zero_iff.mp (Nat.le_zero.mp hn), pieces]
      exact (List.append_nil out).symm
  | succ n ih =>
      rw [expandLoop, ← List.head?_drop]
      cases hdrop : tmpl.drop i with
      | nil =>
          rw [pieces]
          exact (List.append_nil out).symm
      | cons c p =>
          obtain ⟨hout, hr⟩ := expandStep_of_next v hdrop (next_nextPiece wideAlphabet c p)
          have hlen := length_nextPiece wideAlphabet c p
          rw [hdrop, List.length_cons] at hn
          rw [List.head?_cons]
          dsimp only
          rw [ih _ (by rw [hr]; omega), hout, hr, pieces, List.flatMap_cons, List.append_assoc]

/-- The tree renders the same pieces. -/
theorem expandLabelTemplate_eq (v : LabelValues WChar) (tmpl : WString) :
    expandLabelTemplate v tmpl = (pieces wideAlphabet tmpl).flatMap (renderUnits v) :=
  expandLoop_eq v [] le_rfl

/-! ### The same text -/

/-- A byte beyond ASCII is no part of a name. -/
theorem isNameByte_of_le {b : ℕ} (h : 0x80 ≤ b) : isNameByte b = false := by
  unfold isNameByte gAsciiIsalnum
  simp only [Bool.or_eq_false_iff, Bool.and_eq_false_iff, decide_eq_false_iff_not]
  have hZ : byte 'Z' = 0x5A := rfl
  have hz : byte 'z' = 0x7A := rfl
  have h9 : byte '9' = 0x39 := rfl
  have hlow : byte '_' = 0x5F := rfl
  have hdash : byte '-' = 0x2D := rfl
  refine ⟨⟨⟨⟨?_, ?_⟩, ?_⟩, ?_⟩, ?_⟩ <;> omega

/-- UTF-8 leaves ASCII alone. -/
theorem utf8_encoding : Encoding byteAlphabet utf8Char where
  ascii := utf8Char_of_isAscii
  ne_nil := by
    intro c
    rw [utf8Char_eq]
    split_ifs <;> exact List.cons_ne_nil _ _
  other := by
    intro c h b hb
    have hle := le_of_mem_utf8Char h hb
    refine ⟨isNameByte_of_le hle, fun m hm => ?_⟩
    have hlt : byte m < 0x80 := of_decide_eq_true hm
    exact (lt_of_lt_of_le hlt hle).ne'

/-- The units of a character beyond ASCII are beyond it too. -/
theorem le_of_mem_utf16Char {c : Char} (h : isAscii c = false) {u : WChar}
    (hu : u ∈ utf16Char c) : 0x80 ≤ u.val := by
  have hc := (toNat_bounds c).2
  have hle := not_lt.mp (of_decide_eq_false h)
  unfold utf16Char at hu
  split_ifs at hu with hbasic
  · obtain rfl := List.mem_singleton.mp hu
    rw [Fin.val_ofNat]
    omega
  · simp only [List.mem_cons, List.not_mem_nil, or_false] at hu
    obtain rfl | rfl := hu <;> rw [Fin.val_ofNat] <;> omega

/-- And no part of a name. -/
theorem isIdent_of_le {u : WChar} (h : 0x80 ≤ u.val) : isIdent u = false := by
  have hne : ∀ {m}, isAscii m = true → u ≠ wide m := by
    rintro m hm rfl
    rw [val_wide hm] at h
    exact absurd (of_decide_eq_true hm) (not_lt.mpr h)
  unfold isIdent inRange
  simp only [Bool.or_eq_false_iff, Bool.and_eq_false_iff, decide_eq_false_iff_not]
  have hZ : 'Z'.toNat = 0x5A := rfl
  have hz : 'z'.toNat = 0x7A := rfl
  have h9 : '9'.toNat = 0x39 := rfl
  refine ⟨⟨⟨⟨?_, ?_⟩, ?_⟩, hne (by decide)⟩, hne (by decide)⟩ <;> omega

/-- UTF-16 leaves ASCII alone. -/
theorem utf16_encoding : Encoding wideAlphabet utf16Char where
  ascii := by
    intro c h
    unfold utf16Char
    rw [if_pos ((of_decide_eq_true h).trans (by decide))]
    rfl
  ne_nil := utf16Char_ne_nil
  other := by
    intro c h u hu
    have hle := le_of_mem_utf16Char h hu
    refine ⟨isIdent_of_le hle, ?_⟩
    rintro m hm rfl
    rw [show wideAlphabet.lit m = wide m from rfl, val_wide hm] at hle
    exact absurd (of_decide_eq_true hm) (not_lt.mpr hle)

/-! ### The names -/

/-- A name of ASCII characters in lower case, without `_` and `-`. -/
theorem all_isAscii_normalise {name : List Char} (h : name.all isAscii = true) :
    (normalise name).all isAscii = true := by
  unfold normalise
  rw [List.all_map, List.all_eq_true]
  intro c hc
  exact isAscii_toLower (List.all_eq_true.mp h c (List.mem_of_mem_filter hc))

/-- Two ASCII texts have the same bytes iff they are the same. -/
theorem map_inj_of_ascii {α : Type} {lit : Char → α}
    (hlit : ∀ {m n}, isAscii m = true → isAscii n = true → lit m = lit n → m = n)
    {s t : List Char} (hs : s.all isAscii = true) (ht : t.all isAscii = true) :
    s.map lit = t.map lit ↔ s = t := by
  refine ⟨fun h => ?_, congrArg _⟩
  induction s generalizing t with
  | nil => exact (List.map_eq_nil_iff.mp h.symm).symm
  | cons c s ih =>
      obtain ⟨d, t', rfl⟩ := List.exists_cons_of_ne_nil (l := t) (by rintro rfl; cases h)
      obtain ⟨hc, hs⟩ := Bool.and_eq_true_iff.mp (List.all_cons.symm.trans hs)
      obtain ⟨hd, ht⟩ := Bool.and_eq_true_iff.mp (List.all_cons.symm.trans ht)
      obtain ⟨hcd, hst⟩ := List.cons.inj h
      rw [hlit hc hd hcd, ih hs ht hst]

/-- The known names in an alphabet of ASCII forms. -/
theorem lookupKey_map {α : Type} [DecidableEq α] {lit : Char → α} {lits : String → List α}
    (hlits : ∀ s, s.toList.all isAscii = true → lits s = s.toList.map lit)
    (hlit : ∀ {m n}, isAscii m = true → isAscii n = true → lit m = lit n → m = n)
    (w : LabelValues α) {name : List Char} (h : name.all isAscii = true) :
    lookupKey lits w ((normalise name).map lit) = (varNamed name).map w.var := by
  have hkey := all_isAscii_normalise h
  have heq : ∀ s : String, s.toList.all isAscii = true →
      ((normalise name).map lit = lits s ↔ s.toList = normalise name) := by
    intro s hs
    rw [hlits s hs, map_inj_of_ascii hlit hkey hs]
    exact eq_comm
  unfold lookupKey varNamed
  simp only [heq "pwd" (by decide), heq "cwd" (by decide), heq "dir" (by decide),
    heq "user" (by decide), heq "host" (by decide), heq "hostname" (by decide),
    heq "shell" (by decide), heq "cmd" (by decide), heq "title" (by decide),
    heq "branch" (by decide), heq "gitbranch" (by decide), heq "repo" (by decide),
    heq "gitrepo" (by decide), Var.names, List.find?_cons, List.any_cons, List.any_nil,
    Bool.or_false, List.find?_nil]
  split_ifs <;> simp only [*, decide_true, decide_false, Option.map_some, Option.map_none]

theorem isAscii_of_isName {name : List Char} (h : ∀ c ∈ name, isNameChar c = true) :
    name.all isAscii = true :=
  List.all_eq_true.mpr fun c hc => isAscii_of_isNameChar (h c hc)

/-- No name is a tilde. -/
theorem map_ne_tilde {α : Type} {lit : Char → α}
    (hlit : ∀ {m n}, isAscii m = true → isAscii n = true → lit m = lit n → m = n)
    {name : List Char} (h : ∀ c ∈ name, isNameChar c = true) : name.map lit ≠ ['~'].map lit := by
  rw [Ne, map_inj_of_ascii hlit (isAscii_of_isName h) (by decide)]
  rintro rfl
  exact absurd (h '~' List.mem_cons_self) (by decide)

/-- The sidebar's lower case is that of the character. -/
theorem gAsciiTolower_byte (c : Char) : gAsciiTolower (byte c) = byte c.toLower := by
  unfold gAsciiTolower
  rw [show byte c.toLower = c.toLower.toNat from rfl, toNat_toLower]
  simp only [Bool.and_eq_true, decide_eq_true_eq]
  rfl

theorem asciiLower_wide {c : Char} (h : isAscii c = true) : asciiLower (wide c) = wide c.toLower := by
  unfold asciiLower
  rw [inRange_wide h]
  unfold wide
  rw [toNat_toLower]
  simp only [Bool.and_eq_true, decide_eq_true_eq]
  split_ifs with hupper
  · rw [← show wide c = Fin.ofNat 65536 c.toNat from rfl, val_wide h]
  · rfl

/-- Lower case neither makes nor removes the two marks. -/
theorem toLower_eq_mark_iff {c d : Char} (hd : d = '-' ∨ d = '_') : c.toLower = d ↔ c = d := by
  constructor
  · intro h
    have hnat := congrArg Char.toNat h
    rw [toNat_toLower] at hnat
    split_ifs at hnat with hupper
    · have hA : 'A'.toNat ≤ c.toNat := hupper.1
      have hZ : c.toNat ≤ 'Z'.toNat := hupper.2
      have hA' : 'A'.toNat = 0x41 := rfl
      have hZ' : 'Z'.toNat = 0x5A := rfl
      have hdash : '-'.toNat = 0x2D := rfl
      have hlow : '_'.toNat = 0x5F := rfl
      obtain rfl | rfl := hd <;> omega
    · exact eq_of_toNat_eq hnat
  · rintro rfl
    obtain rfl | rfl := hd <;> decide

/-- The sidebar finds the variable of the name. -/
theorem sidebarLookupTemplateVar_map (w : LabelValues ℕ) {name : List Char}
    (h : ∀ c ∈ name, isNameChar c = true) :
    sidebarLookupTemplateVar w (name.map byte) = (varNamed name).map w.var := by
  have htilde : name.map byte ≠ B "~" :=
    map_ne_tilde (fun _ _ heq => byte_injective heq) h
  unfold sidebarLookupTemplateVar
  rw [if_neg htilde]
  have hkey : ((name.map byte).map gAsciiTolower).filter (fun b => b ≠ byte '-' && b ≠ byte '_') =
      (normalise name).map byte := by
    unfold normalise
    rw [List.map_map, List.filter_map, List.map_map]
    have hmarks : ((fun b => decide (b ≠ byte '-') && decide (b ≠ byte '_')) ∘
        (gAsciiTolower ∘ byte)) = fun c => decide (c ≠ '_') && decide (c ≠ '-') := by
      funext c
      simp only [Function.comp_apply, gAsciiTolower_byte, ne_eq, byte_injective.eq_iff,
        toLower_eq_mark_iff (Or.inl rfl), toLower_eq_mark_iff (Or.inr rfl)]
      exact Bool.and_comm _ _
    rw [hmarks]
    exact List.map_congr_left fun c _ => gAsciiTolower_byte c
  rw [hkey]
  exact lookupKey_map (fun s hs => utf8_encoding.flatMap_of_ascii hs)
    (fun _ _ heq => byte_injective heq) w (isAscii_of_isName h)

theorem lookupVar_map (w : LabelValues WChar) {name : List Char}
    (h : ∀ c ∈ name, isNameChar c = true) :
    lookupVar w (name.map wide) = (varNamed name).map w.var := by
  have hascii := isAscii_of_isName h
  have htilde : name.map wide ≠ L "~" := map_ne_tilde wide_inj h
  unfold lookupVar
  rw [if_neg htilde]
  have hkey : ((name.map wide).filter fun c => c ≠ wide '_' && c ≠ wide '-').map asciiLower =
      (normalise name).map wide := by
    unfold normalise
    rw [List.filter_map, List.map_map, List.map_map]
    have hmarks : ∀ c ∈ name, ((fun u => decide (u ≠ wide '_') && decide (u ≠ wide '-')) ∘ wide) c =
        (decide (c ≠ '_') && decide (c ≠ '-')) := by
      intro c hc
      have heq : ∀ {n}, isAscii n = true → (wide c = wide n ↔ c = n) := fun hn =>
        ⟨wide_inj (List.all_eq_true.mp hascii c hc) hn, congrArg wide⟩
      simp only [Function.comp_apply, ne_eq, heq (show isAscii '_' = true by decide),
        heq (show isAscii '-' = true by decide)]
    rw [List.filter_congr hmarks]
    exact List.map_congr_left fun c hc =>
      asciiLower_wide (List.all_eq_true.mp hascii c (List.mem_of_mem_filter hc))
  rw [hkey]
  exact lookupKey_map (fun s hs => rfl) wide_inj w hascii

/-- The values in an encoding. -/
structure Encodes {α : Type} (enc : Char → List α) (v : LabelValues Char) (w : LabelValues α) :
    Prop where
  home : w.home = v.home.flatMap enc
  var : ∀ x, w.var x = (v.var x).flatMap enc
  fileLine : ∀ path, w.fileLine (path.flatMap enc) = (v.fileLine path).flatMap enc

/-- What a piece stands for, in an encoding. -/
theorem renderWith_encode {α : Type} [DecidableEq α] {A : Alphabet α} {enc : Char → List α}
    (E : Encoding A enc) {v : LabelValues Char} {w : LabelValues α} (hw : Encodes enc v w)
    {lookup : List α → Option (List α)}
    (hlookup : ∀ name : List Char, (∀ c ∈ name, isNameChar c = true) →
      lookup (name.map A.lit) = (varNamed name).map w.var) (t : List Char) :
    (pieces A (t.flatMap enc)).flatMap (renderWith A w lookup) =
      ((pieces chars t).flatMap (render v)).flatMap enc := by
  rw [flatMap_pieces_encode E (fun _ => rfl), List.flatMap_assoc]
  refine List.flatMap_congr fun p hp => ?_
  cases p with
  | text s => rfl
  | file path => exact hw.fileLine path
  | home => exact hw.home
  | var name =>
      have hname : ∀ c ∈ name, isNameChar c = true := isName_of_mem_pieces hp
      rw [Piece.encode, E.flatMap_of_ascii (isAscii_of_isName hname), renderWith, hlookup name hname]
      unfold render renderWith
      dsimp only
      cases varNamed name with
      | none =>
          rw [Option.map_none, Option.map_none, Option.getD_none, Option.getD_none,
            List.flatMap_cons, chars_lit, E.ascii (by decide),
            E.flatMap_of_ascii (isAscii_of_isName hname)]
          rfl
      | some x => exact hw.var x

/-- Values for tests; every variable is worth a `$user`. -/
def sampleValues {α : Type} (lits : String → List α) : LabelValues α where
  home := lits "~/axan"
  var := fun _ => lits "$user"
  fileLine := fun _ => lits "line"

/-- On the same template and the same values the expanders produce the same text: what the pieces
of the template stand for, one after the other. -/
theorem label_expanders_agree {v : LabelValues Char} {lv : LabelValues ℕ} {wv : LabelValues WChar}
    (hl : Encodes utf8Char v lv) (hw : Encodes utf16Char v wv) (tmpl : List Char) :
    ∃ ps, (∀ qs, Reads chars tmpl qs ↔ qs = ps) ∧
      sidebarExpandNameTemplate lv (some (octets tmpl)) = octets (ps.flatMap (render v)) ∧
      expandLabelTemplate wv (utf16 tmpl) = utf16 (ps.flatMap (render v)) := by
  refine ⟨pieces chars tmpl, fun qs => reads_iff, ?_, ?_⟩
  · rw [sidebarExpandNameTemplate_eq]
    exact renderWith_encode utf8_encoding hl (fun name => sidebarLookupTemplateVar_map lv) tmpl
  · rw [expandLabelTemplate_eq]
    exact renderWith_encode utf16_encoding hw (fun name => lookupVar_map wv) tmpl

/-- A value is not read again, and an open brace form hides nothing behind it. -/
theorem label_expanders_agree_sample :
    expandLabelTemplate (sampleValues L) (L "$Git_Branch $\x7bfile:x\x7d$~ $nope $\x7ba\x7d$ $\x7b$dir") =
        L "$user line~/axan $nope $\x7ba\x7d$ $\x7b$user" ∧
      ∃ ps, (∀ qs, Reads chars "$Git_Branch $\x7bfile:x\x7d$~ $nope $\x7ba\x7d$ $\x7b$dir".toList qs ↔ qs = ps) ∧
        sidebarExpandNameTemplate (sampleValues B)
            (some (octets "$Git_Branch $\x7bfile:x\x7d$~ $nope $\x7ba\x7d$ $\x7b$dir".toList)) =
          octets (ps.flatMap (render (sampleValues String.toList))) ∧
        expandLabelTemplate (sampleValues L)
            (utf16 "$Git_Branch $\x7bfile:x\x7d$~ $nope $\x7ba\x7d$ $\x7b$dir".toList) =
          utf16 (ps.flatMap (render (sampleValues String.toList))) :=
  ⟨by decide, label_expanders_agree ⟨rfl, fun _ => rfl, fun _ => rfl⟩
    ⟨by decide, fun _ => (by decide : L "$user" = utf16 "$user".toList),
      fun _ => (by decide : L "line" = utf16 "line".toList)⟩ _⟩

end Axan.RowLabel
