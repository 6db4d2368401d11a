import Axan.Base.Pieces

/-!
# Hoist overrides: `AxanHoistRule.h` and `AxanNameMask.h`

Which states of a session the sidebar lists on top is a set of names from a fixed vocabulary,
kept as a bit mask. Per entry it travels as one string: empty, `never`, or names joined by commas.

* `NameMask` — lists of names as masks.
* `HoistRule.parse`, `HoistRule.format`, `HoistRule.normalize` — the string and the mask.
* `HoistRule.isHoisted` — whether an entry is listed on top.
* `HoistRule.canonical_form` — **the canonical form**: what is normalized, written or matched.
* `HoistRule.canonical_cases` — what a string is that normalizing leaves alone;
  `HoistRule.canonical_pieces` is the same for UTF-8 texts, cut at their commas.
-/

namespace Axan.NameMask

open Axan.Base

/-- Source: `NameMask::Trim` -/
def trim (s : WString) : WString := trimBlank (fun c => c ∈ L " \t\r\n") s

/-- Source: `NameMask::Bit` -/
def bit (vocabulary : List WString) (name : WString) : ℕ :=
  match vocabulary.findIdx? (· = name) with
  | some i => 1 <<< i
  | none => 0

/-- Source: `NameMask::MaskFromNames` -/
def maskFromNames (vocabulary names : List WString) : ℕ :=
  names.foldl
    (fun m raw =>
      let name := trim raw
      if name.isEmpty then m
      else
        let b := bit vocabulary name
        if b = 0 then m else m ||| b)
    0

/-- Source: `NameMask::NamesFromMask` -/
def namesFromMask {α : Type} (vocabulary : List α) (m : ℕ) : List α :=
  (vocabulary.zipIdx.filter fun p => m.testBit p.2).map Prod.fst

/-- The names of a mask in another spelling. -/
theorem namesFromMask_map {α β : Type} (f : α → β) (vocabulary : List α) (m : ℕ) :
    namesFromMask (vocabulary.map f) m = (namesFromMask vocabulary m).map f := by
  rw [namesFromMask, List.zipIdx_map, List.filter_map, List.map_map, namesFromMask, List.map_map]
  rfl

/-- The names of a mask are of the vocabulary. -/
theorem mem_of_mem_namesFromMask {α : Type} {vocabulary : List α} {m : ℕ} {name : α}
    (h : name ∈ namesFromMask vocabulary m) : name ∈ vocabulary := by
  obtain ⟨p, hp, rfl⟩ := List.mem_map.mp h
  exact List.fst_mem_of_mem_zipIdx (List.mem_filter.mp hp).1

/-- They are those whose bits are set. -/
theorem mem_namesFromMask {vocabulary : List WString} {m : ℕ} {name : WString} :
    name ∈ namesFromMask vocabulary m ↔ ∃ i, vocabulary[i]? = some name ∧ m.testBit i = true := by
  unfold namesFromMask
  simp only [List.mem_map, List.mem_filter, List.mk_mem_zipIdx_iff_getElem?, Prod.exists]
  constructor
  · rintro ⟨n, i, ⟨hi, hbit⟩, rfl⟩
    exact ⟨i, hi, hbit⟩
  · rintro ⟨i, hi, hbit⟩
    exact ⟨name, i, ⟨hi, hbit⟩, rfl⟩

/-- The bit of a name is its place in the vocabulary. -/
theorem testBit_bit {vocabulary : List WString} (hnodup : vocabulary.Nodup) (name : WString)
    (i : ℕ) : (bit vocabulary name).testBit i = true ↔ vocabulary[i]? = some name := by
  unfold bit
  cases hfind : vocabulary.findIdx? (· = name) with
  | none =>
      simp only [Nat.zero_testBit, Bool.false_eq_true, false_iff]
      intro hi
      rw [List.findIdx?_eq_none_iff] at hfind
      simpa using hfind name (List.mem_of_getElem? hi)
  | some j =>
      obtain ⟨hj, hname, -⟩ := List.findIdx?_eq_some_iff_getElem.mp hfind
      have hname' : vocabulary[j] = name := of_decide_eq_true hname
      simp only [Nat.one_shiftLeft, Nat.testBit_two_pow, decide_eq_true_eq]
      constructor
      · rintro rfl
        rw [List.getElem?_eq_getElem hj, hname']
      · intro hi
        obtain ⟨hi', heq⟩ := List.getElem?_eq_some_iff.mp hi
        exact (List.Nodup.getElem_inj_iff hnodup).mp (hname'.trans heq.symm)

/-- **The mask of a list of names** has the bits of the names it holds, trimmed. -/
theorem testBit_maskFromNames {vocabulary : List WString} (hnodup : vocabulary.Nodup)
    (hempty : [] ∉ vocabulary) (names : List WString) (i : ℕ) :
    (maskFromNames vocabulary names).testBit i = true ↔
      ∃ n ∈ names, vocabulary[i]? = some (trim n) := by
  unfold maskFromNames
  induction names using List.reverseRecOn with
  | nil => simp
  | append_singleton names raw ih =>
      rw [List.foldl_append, List.foldl_cons, List.foldl_nil]
      have hlast : (∃ n ∈ names ++ [raw], vocabulary[i]? = some (trim n)) ↔
          (∃ n ∈ names, vocabulary[i]? = some (trim n)) ∨ vocabulary[i]? = some (trim raw) := by
        simp [or_and_right, exists_or]
      rw [hlast, ← ih]
      simp only
      split_ifs with hnil hzero
      · -- an empty name is none of the vocabulary
        refine (or_iff_left ?_).symm
        intro hi
        rw [List.isEmpty_iff.mp hnil] at hi
        exact hempty (List.mem_of_getElem? hi)
      · refine (or_iff_left ?_).symm
        rw [← testBit_bit hnodup, hzero]
        simp
      · rw [Nat.testBit_or, Bool.or_eq_true, testBit_bit hnodup]

end Axan.NameMask

namespace Axan.HoistRule

open Axan.Base

/-- The vocabulary as texts. -/
def names : List String :=
  ["idle", "working", "blocked", "done", "error", "running", "permission", "question", "auth"]

/-- Source: `HoistRule::kNames` -/
def kNames : List WString := names.map L
/-- Source: `HoistRule::kNever` -/
def kNever : WString := L "never"

/-- Source: `HoistRule::Mode` -/
inductive Mode where
  | default
  | never
  | custom
  deriving DecidableEq, Repr

/-- Source: `HoistRule::Override` -/
structure Override where
  mode : Mode := .default
  mask : ℕ := 0
  deriving DecidableEq, Repr

/-- Source: `HoistRule::FromMask` -/
def fromMask (m : ℕ) : Override := if m = 0 then ⟨.never, 0⟩ else ⟨.custom, m⟩

/-- A rule from a mask has that mask. -/
@[simp] theorem mask_fromMask (m : ℕ) : (fromMask m).mask = m := by
  unfold fromMask
  split_ifs with h
  · exact h.symm
  · rfl

/-- It is never the default rule. -/
theorem mode_fromMask_ne_default (m : ℕ) : (fromMask m).mode ≠ .default := by
  unfold fromMask
  split_ifs
  · exact Mode.noConfusion
  · exact Mode.noConfusion

/-- Source: `HoistRule::Parse` -/
def parse (canonical : WString) : Override :=
  let s := NameMask.trim canonical
  if s.isEmpty || s = L "default" then {}
  else if s = kNever then ⟨.never, 0⟩
  else fromMask (NameMask.maskFromNames kNames (s.splitOn (wide ',')))

/-- Source: `HoistRule::Format` -/
def format (o : Override) : WString :=
  match o.mode with
  | .never => kNever
  | .custom =>
      if o.mask = 0 then kNever
      else [wide ','].intercalate (NameMask.namesFromMask kNames o.mask)
  | .default => []

/-- Source: `HoistRule::Normalize` -/
def normalize (canonical : WString) : WString := format (parse canonical)

/-! ### Masks -/

theorem nodup_kNames : kNames.Nodup := by decide

theorem nil_not_mem_kNames : [] ∉ kNames := by decide

/-- The bits that are set are those of the names. -/
theorem testBit_maskFromNames (ns : List WString) (i : ℕ) :
    (NameMask.maskFromNames kNames ns).testBit i = true ↔
      ∃ n ∈ ns, kNames[i]? = some (NameMask.trim n) :=
  NameMask.testBit_maskFromNames nodup_kNames nil_not_mem_kNames ns i

/-- A state name holds no comma. -/
theorem comma_not_mem_of_mem_kNames : ∀ n ∈ kNames, wide ',' ∉ n := by decide

/-- A state name holds no blank. -/
theorem not_blank_of_mem_kNames {n : WString} (hn : n ∈ kNames) :
    ∀ c ∈ n, decide (c ∈ L " \t\r\n") = false := by
  have hall : (kNames.all fun n => n.all fun c => !decide (c ∈ L " \t\r\n")) = true := by
    decide +kernel
  intro c hc
  have h := List.all_eq_true.mp (List.all_eq_true.mp hall n hn) c hc
  rwa [Bool.not_eq_true'] at h

/-- A name has no blanks around it. -/
theorem trim_of_mem_kNames {n : WString} (hn : n ∈ kNames) : NameMask.trim n = n :=
  trimBlank_eq_self (not_blank_of_mem_kNames hn)

/-- Two lists have the same mask when they hold the same state names. -/
theorem maskFromNames_eq_iff {ns ns' : List WString} :
    NameMask.maskFromNames kNames ns = NameMask.maskFromNames kNames ns' ↔
      ∀ w ∈ kNames, (∃ n ∈ ns, NameMask.trim n = w) ↔ ∃ n ∈ ns', NameMask.trim n = w := by
  have hbit : ∀ (l : List WString) (i : ℕ) (w : WString), kNames[i]? = some w →
      ((NameMask.maskFromNames kNames l).testBit i = true ↔ ∃ n ∈ l, NameMask.trim n = w) := by
    intro l i w hi
    rw [testBit_maskFromNames, hi]
    simp only [Option.some_inj, eq_comm]
  constructor
  · intro h w hw
    obtain ⟨i, hi⟩ := List.mem_iff_getElem?.mp hw
    rw [← hbit ns i w hi, h, hbit ns' i w hi]
  · intro h
    apply Nat.eq_of_testBit_eq
    intro i
    rw [Bool.eq_iff_iff]
    cases hi : kNames[i]? with
    | none => rw [testBit_maskFromNames, testBit_maskFromNames, hi]; simp
    | some w => rw [hbit ns i w hi, hbit ns' i w hi, h w (List.mem_of_getElem? hi)]

/-- The names of a mask have that mask. -/
theorem maskFromNames_namesFromMask {ns : List WString} :
    NameMask.maskFromNames kNames
        (NameMask.namesFromMask kNames (NameMask.maskFromNames kNames ns)) =
      NameMask.maskFromNames kNames ns := by
  apply maskFromNames_eq_iff.mpr
  intro w hw
  constructor
  · rintro ⟨n, hn, rfl⟩
    obtain ⟨i, hi, hbit⟩ := NameMask.mem_namesFromMask.mp hn
    obtain ⟨m, hm, hmi⟩ := (testBit_maskFromNames ns i).mp hbit
    rw [hi, Option.some_inj] at hmi
    exact ⟨m, hm, by rw [← hmi, trim_of_mem_kNames (List.mem_of_getElem? hi)]⟩
  · rintro ⟨n, hn, rfl⟩
    obtain ⟨i, hi⟩ := List.mem_iff_getElem?.mp hw
    refine ⟨NameMask.trim n, NameMask.mem_namesFromMask.mpr ⟨i, hi, ?_⟩, trim_of_mem_kNames hw⟩
    exact (testBit_maskFromNames ns i).mpr ⟨n, hn, hi⟩

/-- Words joined by commas are none of the words that hold no comma, unless there is one word. -/
theorem intercalate_eq_word {ns : List WString} (hns : ns ≠ []) (hcomma : ∀ n ∈ ns, wide ',' ∉ n)
    {w : WString} (hw : wide ',' ∉ w) (h : [wide ','].intercalate ns = w) : ns = [w] := by
  rw [← List.splitOn_intercalate (wide ',') hcomma hns, h]
  exact List.splitOn_eq_singleton hw

/-- **What a list of names is written as is read as the list.** -/
theorem parse_format_fromMask (ns : List WString) :
    parse (format (fromMask (NameMask.maskFromNames kNames ns))) =
      fromMask (NameMask.maskFromNames kNames ns) := by
  by_cases hzero : NameMask.maskFromNames kNames ns = 0
  · rw [hzero]
    decide
  · have hmem : ∀ n ∈ NameMask.namesFromMask kNames (NameMask.maskFromNames kNames ns),
        n ∈ kNames := fun n hn => NameMask.mem_of_mem_namesFromMask hn
    have hcomma : ∀ n ∈ NameMask.namesFromMask kNames (NameMask.maskFromNames kNames ns),
        wide ',' ∉ n := fun n hn => comma_not_mem_of_mem_kNames n (hmem n hn)
    have hne : NameMask.namesFromMask kNames (NameMask.maskFromNames kNames ns) ≠ [] := by
      intro hnil
      apply hzero
      rw [← maskFromNames_namesFromMask, hnil]
      rfl
    have hword : ∀ w : WString, wide ',' ∉ w → w ∉ kNames →
        [wide ','].intercalate (NameMask.namesFromMask kNames (NameMask.maskFromNames kNames ns)) ≠
          w := by
      intro w hw hwn heq
      apply hwn
      apply hmem
      rw [intercalate_eq_word hne hcomma hw heq]
      exact List.mem_singleton.mpr rfl
    have htrim : NameMask.trim ([wide ','].intercalate
        (NameMask.namesFromMask kNames (NameMask.maskFromNames kNames ns))) =
          [wide ','].intercalate
            (NameMask.namesFromMask kNames (NameMask.maskFromNames kNames ns)) := by
      apply trimBlank_eq_self
      intro c hc
      rcases mem_intercalate hc with hc | ⟨n, hn, hc⟩
      · rw [List.mem_singleton.mp hc]
        decide
      · exact not_blank_of_mem_kNames (hmem n hn) c hc
    have hformat : format (fromMask (NameMask.maskFromNames kNames ns)) = [wide ','].intercalate
        (NameMask.namesFromMask kNames (NameMask.maskFromNames kNames ns)) := by
      unfold fromMask format
      rw [if_neg hzero]
      simp only [if_neg hzero]
    have hnil := hword [] (by decide) (by decide)
    have hdefault := hword (L "default") (by decide) (by decide)
    have hnever := hword kNever (by decide) (by decide)
    rw [hformat]
    unfold parse
    rw [htrim]
    simp only
    rw [if_neg (by simp [hnil, hdefault]), if_neg hnever, List.splitOn_intercalate _ hcomma hne,
      maskFromNames_namesFromMask]

/-- What a string is read as: a word, or a list of names. -/
theorem parse_cases (h : WString) :
    parse h = {} ∨ parse h = ⟨.never, 0⟩ ∨
      ∃ ns, parse h = fromMask (NameMask.maskFromNames kNames ns) := by
  unfold parse
  simp only
  split_ifs
  · exact Or.inl rfl
  · exact Or.inr (Or.inl rfl)
  · exact Or.inr (Or.inr ⟨_, rfl⟩)

/-- **The canonical form is read as the string it is the form of.** -/
theorem parse_normalize (h : WString) : parse (normalize h) = parse h := by
  unfold normalize
  rcases parse_cases h with hp | hp | ⟨ns, hp⟩
  · rw [hp]
    decide
  · rw [hp]
    decide
  · rw [hp, parse_format_fromMask]

/-- The names are ASCII, without a comma, and not empty. -/
theorem names_plain {n : String} (hn : n ∈ names) :
    n.toList ≠ [] ∧ ',' ∉ n.toList ∧ ∀ c ∈ n.toList, isAscii c = true := by
  have hall : (names.all fun n => n.toList ≠ [] && ',' ∉ n.toList && n.toList.all isAscii) =
      true := by decide
  have h := List.all_eq_true.mp hall n hn
  rw [Bool.and_eq_true, Bool.and_eq_true, List.all_eq_true] at h
  exact ⟨of_decide_eq_true h.1.1, of_decide_eq_true h.1.2, h.2⟩

/-- A state name is an ASCII text. -/
theorem exists_of_mem_kNames {n : WString} (hn : n ∈ kNames) : ∃ cs, n = utf16 cs := by
  obtain ⟨s, hs, rfl⟩ := List.mem_map.mp hn
  exact ⟨s.toList, (utf16_of_ascii (names_plain hs).2.2).symm⟩

/-- A string that normalizing leaves alone. -/
theorem canonical_cases {h : WString} (hc : normalize h = h) :
    h = [] ∨ h = kNever ∨ ∃ ns : List String, ns ≠ [] ∧ (∀ n ∈ ns, n ∈ names) ∧
      h = [wide ','].intercalate (ns.map L) := by
  rw [normalize, format] at hc
  cases hm : (parse h).mode with
  | default =>
      rw [hm] at hc
      exact Or.inl hc.symm
  | never =>
      rw [hm] at hc
      exact Or.inr (Or.inl hc.symm)
  | custom =>
      rw [hm] at hc
      simp only at hc
      by_cases h0 : (parse h).mask = 0
      · rw [if_pos h0] at hc
        exact Or.inr (Or.inl hc.symm)
      · rw [if_neg h0, kNames, NameMask.namesFromMask_map] at hc
        by_cases hne : NameMask.namesFromMask names (parse h).mask = []
        · left
          rw [← hc, hne]
          rfl
        · right
          right
          exact ⟨_, hne, fun n hn => NameMask.mem_of_mem_namesFromMask hn, hc.symm⟩

/-- **A canonical list of names, cut at its commas and joined again.** -/
theorem canonical_pieces {h : List Char} (hc : normalize (utf16 h) = utf16 h) (hne : h ≠ [])
    (hnever : h ≠ "never".toList) : ∀ piece ∈ h.splitOn ',', piece ≠ [] := by
  rcases canonical_cases hc with h0 | h0 | ⟨ns, hns, hmem, h0⟩
  · exact absurd (eq_of_utf16_eq (by simp) h0) hne
  · exact absurd (eq_of_utf16_eq (List.all_eq_true.mp (by decide)) h0) hnever
  · have hwide : utf16 h = ([','].intercalate (ns.map String.toList)).map wide := by
      rw [map_intercalate, h0, List.map_map]
      rfl
    have hascii : ∀ c ∈ [','].intercalate (ns.map String.toList), isAscii c = true := by
      intro c hc
      rcases mem_intercalate hc with hc | ⟨l, hl, hc⟩
      · rw [List.mem_singleton.mp hc]
        decide
      · obtain ⟨n, hn, rfl⟩ := List.mem_map.mp hl
        exact (names_plain (hmem n hn)).2.2 c hc
    have hcomma : ∀ l ∈ ns.map String.toList, ',' ∉ l := by
      intro l hl
      obtain ⟨n, hn, rfl⟩ := List.mem_map.mp hl
      exact (names_plain (hmem n hn)).2.1
    rw [eq_of_utf16_eq hascii hwide, List.splitOn_intercalate _ hcomma (by simpa using hns)]
    intro piece hp
    obtain ⟨n, hn, rfl⟩ := List.mem_map.mp hp
    exact (names_plain (hmem n hn)).1

/-! ### Which masks have a text -/

/-- A mask has nine bits. -/
theorem maskFromNames_lt (ns : List WString) : NameMask.maskFromNames kNames ns < 2 ^ 9 := by
  apply Nat.lt_pow_two_of_testBit
  intro i hi
  rw [← Bool.not_eq_true, testBit_maskFromNames]
  rintro ⟨n, -, hn⟩
  have hlen := (List.getElem?_eq_some_iff.mp hn).1
  exact absurd hlen (not_lt.mpr hi)

/-- A mask of bits of the vocabulary is the one of its names. -/
theorem maskFromNames_namesFromMask_of_lt {m : ℕ} (hm : m < 2 ^ 9) :
    NameMask.maskFromNames kNames (NameMask.namesFromMask kNames m) = m := by
  apply Nat.eq_of_testBit_eq
  intro i
  rw [Bool.eq_iff_iff, testBit_maskFromNames]
  constructor
  · rintro ⟨n, hn, hni⟩
    obtain ⟨j, hj, hbit⟩ := NameMask.mem_namesFromMask.mp hn
    rw [trim_of_mem_kNames (List.mem_of_getElem? hj)] at hni
    have hlt := (List.getElem?_eq_some_iff.mp hni).1
    rw [(List.getElem?_inj hlt nodup_kNames).mp (hni.trans hj.symm)]
    exact hbit
  · intro hbit
    have hi : i < kNames.length := by
      by_contra hle
      rw [Nat.testBit_lt_two_pow (lt_of_lt_of_le hm (Nat.pow_le_pow_right (by decide)
        (not_lt.mp hle)))] at hbit
      cases hbit
    have hget : kNames[i]? = some kNames[i] := List.getElem?_eq_getElem hi
    refine ⟨kNames[i], NameMask.mem_namesFromMask.mpr ⟨i, hget, hbit⟩, ?_⟩
    rw [trim_of_mem_kNames (List.getElem_mem hi), hget]

/-- **The masks whose text is read as the mask** are those of the vocabulary. -/
theorem parse_format_fromMask_iff (m : ℕ) :
    parse (format (fromMask m)) = fromMask m ↔ m < 2 ^ 9 := by
  constructor
  · intro h
    have hmask := congrArg Override.mask h
    rw [mask_fromMask] at hmask
    rw [← hmask]
    rcases parse_cases (format (fromMask m)) with hp | hp | ⟨ns, hp⟩
    · rw [hp]
      decide
    · rw [hp]
      decide
    · rw [hp, mask_fromMask]
      exact maskFromNames_lt ns
  · intro hm
    have h := parse_format_fromMask (NameMask.namesFromMask kNames m)
    rwa [maskFromNames_namesFromMask_of_lt hm] at h

/-! ### Matching -/

/-- Source: `HoistRule::Override::operator==` -/
def same (a b : Override) : Bool := a.mode = b.mode && (a.mode ≠ .custom || a.mask = b.mask)

/-- Source: `HoistRule::Has` -/
def has (m : ℕ) (name : WString) : Bool :=
  NameMask.bit kNames name ≠ 0 && m &&& NameMask.bit kNames name ≠ 0

/-- Is the text one of the kinds of `blocked`? -/
def isKind (s : WString) : Bool := s = L "permission" || s = L "question" || s = L "auth"

/-- Source: `HoistRule::Matches` -/
def matchesList (m : ℕ) (slotKey kind : WString) : Bool :=
  if slotKey.isEmpty then false
  else if slotKey = L "blocked" then has m (L "blocked") || (isKind kind && has m kind)
  else if isKind slotKey then false
  else has m slotKey

/-- Source: `HoistRule::Effective` -/
def effective (entry : Override) (globalMask : ℕ) : ℕ :=
  match entry.mode with
  | .never => 0
  | .custom => entry.mask
  | .default => globalMask

/-- Source: `HoistRule::IsHoisted` -/
def isHoisted (slotKey kind : WString) (entry : Override) (globalMask : ℕ) : Bool :=
  matchesList (effective entry globalMask) slotKey kind

example : isHoisted (L "blocked") (L "auth") (parse (L " auth, auth,nosuch")) 0 = true := by decide

/-- **The canonical form of a hoist rule**: normalizing twice changes nothing further, every
override that is parsed or made of names of the vocabulary is read back from its text, and a rule
hoists what its canonical form hoists. -/
theorem canonical_form :
    (∀ s, normalize (normalize s) = normalize s) ∧
    (∀ s, parse (format (parse s)) = parse s) ∧
    (∀ m, parse (format (fromMask m)) = fromMask m ↔ m < 2 ^ 9) ∧
    ∀ s globalMask slotKey kind, isHoisted slotKey kind (parse (normalize s)) globalMask =
      isHoisted slotKey kind (parse s) globalMask := by
  refine ⟨?_, parse_normalize, parse_format_fromMask_iff, ?_⟩
  · intro s
    rw [normalize, parse_normalize, normalize]
  · intro s globalMask slotKey kind
    rw [parse_normalize]

/-- A mask that holds no bit of the vocabulary is written as the empty text, the one of an entry
that follows the global list. -/
theorem foreign_mask_not_read_back :
    same (parse (format (fromMask 512))) (fromMask 512) = false ∧
      format (fromMask 512) = [] ∧ (parse (format (fromMask 512))).mode = .default := by
  decide

end Axan.HoistRule
