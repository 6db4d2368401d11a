import Axan.ProgramStatus.Adapter
import Axan.ProgramStatus.Grammar
import Axan.ProgramStatus.TextFields
import Axan.VtParser.Osc
import Axan.Base.Pieces

/-!
# From the script to the store: `axan-status.sh`

The script prints one report. What it prints reaches the store as the report that the flags say,
from any state of the terminal and in any pieces: the encoder of the script and the two parsers of
the terminal are inverse to each other.

* `Flags`, `send`, `emit` — the script.
* `describes_fields` — the payload of pairs with valid values.
* `send_delivers` — **the report arrives**, and fits the limit of a sequence whatever the flags.
* `query_answered` — the query of the script is answered if the feature is on.
-/

namespace Axan.ProgramStatus

open Axan.Base VtParser Grammar

/-! ### The script -/

/-- The flags. The text of title and message is encoded, the others are printed as they are. -/
structure Flags where
  id : WString := []
  app : WString := []
  kind : WString := []
  progress : WString := []
  title : Option (List Char) := none
  msg : Option (List Char) := none

/-- `printf '%s' "$1" | base64 | tr -d '\n'` -/
def b64 (text : List Char) : WString := encodePadded (octets text)

/-- A flag that is given. -/
def given (value : WString) : Option WString := if value = [] then none else some value

/-- The keys in the order of the script. -/
def fields (st : WString) (f : Flags) : List (WString × Option WString) :=
  [(L "state", some st), (L "id", given f.id), (L "app", given f.app), (L "kind", given f.kind),
    (L "progress", given f.progress), (L "title", f.title.map b64), (L "msg", f.msg.map b64)]

/-- The pairs that are printed. -/
def pairTexts (fs : List (WString × Option WString)) : List WString :=
  fs.filterMap fun p => p.2.map fun v => p.1 ++ wide '=' :: v

/-- The sequence without its framing. -/
def payloadOf (st : WString) (f : Flags) : WString := [wide ':'].intercalate (pairTexts (fields st f))

/-- A missing value writes no pair. -/
theorem pairTexts_none (k : WString) (fs : List (WString × Option WString)) :
    pairTexts ((k, none) :: fs) = pairTexts fs := rfl

/-- A given one writes its pair. -/
theorem pairTexts_some (k v : WString) (fs : List (WString × Option WString)) :
    pairTexts ((k, some v) :: fs) = (k ++ wide '=' :: v) :: pairTexts fs := rfl

/-- Source: `axan-status.sh` `emit` -/
def emit (payload : WString) : WString :=
  osc (L "7501") payload [asciiESC, wide '\\']

/-- Only a state may be reported. Source: `axan-status.sh` `send` -/
def send (st : WString) (f : Flags) : Option WString :=
  if (parseState st).isSome then some (emit (payloadOf st f)) else none

/-! ### The pairs -/

/-- The values that may be printed. -/
structure Printable (fs : List (WString × Option WString)) : Prop where
  nodup : (fs.map Prod.fst).Nodup
  key : ∀ p ∈ fs, isKey p.1 = true
  value : ∀ p ∈ fs, ∀ v, p.2 = some v → v.all isValueChar = true

/-- Fewer fields are printable too. -/
theorem Printable.tail {p : WString × Option WString} {fs : List (WString × Option WString)}
    (h : Printable (p :: fs)) : Printable fs where
  nodup := (List.nodup_cons.mp h.nodup).2
  key := fun q hq => h.key q (List.mem_cons_of_mem _ hq)
  value := fun q hq => h.value q (List.mem_cons_of_mem _ hq)

/-- A character of a value is no blank. -/
theorem isValueChar_not_blank {ch : WChar} (h : isValueChar ch = true) : isSpace ch = false := by
  refine Bool.eq_false_of_not_eq_true fun hspace => ?_
  have hblank : ch = wide ' ' ∨ ch = wide '\t' := by simpa [isSpace] using hspace
  rcases hblank with rfl | rfl <;> exact Bool.false_ne_true h

/-- A character of a key may stand in a value. -/
theorem keyChar_isValueChar {ch : WChar} (h : inRange 'a' 'z' ch = true) : isValueChar ch = true := by
  simp [isValueChar, isAlnum, h]

/-- Nothing is trimmed from a key or a value. -/
theorem trim_of_isValueChar {s : WString} (h : s.all isValueChar = true) : trim s = s := by
  have hblank : ∀ c ∈ s, isSpace c = false :=
    fun c hc => isValueChar_not_blank (List.all_eq_true.mp h c hc)
  have hdrop : s.dropWhile isSpace = s := by
    cases s with
    | nil => rfl
    | cons c s => exact List.dropWhile_cons_of_neg (by simp [hblank c List.mem_cons_self])
  rw [trim, trimBlank, hdrop]
  rcases List.eq_nil_or_concat s with rfl | ⟨init, c, rfl⟩
  · rfl
  · rw [List.concat_eq_append] at hblank ⊢
    exact List.rdropWhile_concat_neg _ _ _ (by simp [hblank c (by simp)])

theorem all_isValueChar_of_isKey {k : WString} (h : isKey k = true) : k.all isValueChar = true := by
  have hall := (Bool.and_eq_true_iff.mp h).2
  exact List.all_eq_true.mpr fun c hc => keyChar_isValueChar (List.all_eq_true.mp hall c hc)

/-- A written pair is read back. -/
theorem keyValue_pair {k v : WString} (hk : isKey k = true) (hv : v.all isValueChar = true) :
    keyValue (k ++ wide '=' :: v) = some (k, v) := by
  have hmem : wide '=' ∉ k := by
    intro hmem
    have hall := (Bool.and_eq_true_iff.mp hk).2
    exact absurd (List.all_eq_true.mp hall _ hmem) (by decide)
  rw [keyValue, cutAt_append hmem, Option.map_some, trim_of_isValueChar hv,
    trim_of_isValueChar (all_isValueChar_of_isKey hk)]

/-- The last value of a key behind one more pair. -/
theorem lastOf_cons_pairTexts {k key : WString} {value : Option WString}
    {fs : List (WString × Option WString)} (h : Printable ((k, value) :: fs)) :
    lastOf key (pairTexts ((k, value) :: fs)) =
      (lastOf key (pairTexts fs)).or (if k = key then value else none) := by
  cases value with
  | none => rw [pairTexts_none, ite_self, Option.or_none]
  | some v =>
      have hk := h.key _ List.mem_cons_self
      have hv := h.value _ List.mem_cons_self v rfl
      rw [pairTexts_some, lastOf_cons, lastOf_singleton (keyValue_pair hk hv) hk hv]

/-- A key that is not printed has no value. -/
theorem lastOf_eq_none {key : WString} {fs : List (WString × Option WString)} (h : Printable fs)
    (hkey : key ∉ fs.map Prod.fst) : lastOf key (pairTexts fs) = none := by
  induction fs with
  | nil => rfl
  | cons p fs ih =>
      obtain ⟨hne, hkey⟩ := not_or.mp (mt List.mem_cons.mpr hkey)
      rw [lastOf_cons_pairTexts h, ih h.tail hkey, if_neg (Ne.symm hne)]
      rfl

/-- A key has the value that is printed for it. -/
theorem lastOf_pairTexts {key : WString} {value : Option WString}
    {fs : List (WString × Option WString)} (h : Printable fs) (hmem : (key, value) ∈ fs) :
    lastOf key (pairTexts fs) = value := by
  induction fs with
  | nil => exact absurd hmem List.not_mem_nil
  | cons p fs ih =>
      have hnodup := (List.nodup_cons.mp h.nodup).1
      rw [lastOf_cons_pairTexts h]
      rcases List.mem_cons.mp hmem with rfl | hmem
      · rw [lastOf_eq_none h.tail hnodup, if_pos rfl, Option.none_or]
      · have hne : p.1 ≠ key := by
          rintro rfl
          exact hnodup (List.mem_map.mpr ⟨_, hmem, rfl⟩)
        rw [ih h.tail hmem, if_neg hne, Option.or_none]

/-- A printed pair does not discard the report when the id is valid. -/
theorem pairOk_of_mem {fs : List (WString × Option WString)} (h : Printable fs)
    (hkey : ∀ p ∈ fs, p.1.length ≤ maxKeyBytes)
    (hid : ∀ v, (L "id", some v) ∈ fs → isValidId v = true) :
    ∀ pair ∈ pairTexts fs, PairOk pair := by
  intro pair hpair
  obtain ⟨⟨k, value⟩, hmem, hvalue⟩ := List.mem_filterMap.mp hpair
  obtain ⟨v, rfl, rfl⟩ := Option.map_eq_some_iff.mp hvalue
  have hkv := keyValue_pair (h.key _ hmem) (h.value _ hmem v rfl)
  dsimp only at hkv ⊢
  constructor
  case key_length =>
    intro k' v' heq _
    rw [hkv] at heq
    cases heq
    exact hkey _ hmem
  case not_bare_id => exact trim_ne_id_of_mem (List.mem_append_right _ List.mem_cons_self)
  case id_valid =>
    intro v' heq
    rw [hkv] at heq
    cases heq
    exact hid v hmem

/-- The printed pairs are those between the colons. -/
theorem pairs_intercalate {fs : List (WString × Option WString)} (h : Printable fs)
    (hne : pairTexts fs ≠ []) : pairs ([wide ':'].intercalate (pairTexts fs)) = pairTexts fs := by
  refine List.splitOn_intercalate _ (fun pair hpair hcolon => ?_) hne
  obtain ⟨⟨k, value⟩, hmem, hvalue⟩ := List.mem_filterMap.mp hpair
  obtain ⟨v, rfl, rfl⟩ := Option.map_eq_some_iff.mp hvalue
  have hk := all_isValueChar_of_isKey (h.key _ hmem)
  have hcolon' : isValueChar (wide ':') = true := by
    rcases List.mem_append.mp hcolon with hcolon | hcolon
    · exact List.all_eq_true.mp hk _ hcolon
    · rcases List.mem_cons.mp hcolon with heq | hcolon
      · exact absurd heq (by decide)
      · exact List.all_eq_true.mp (h.value _ hmem v rfl) _ hcolon
  exact absurd hcolon' (by decide)

/-! ### The report -/

/-- The flags with which a report is sent. -/
structure Flags.Valid (f : Flags) : Prop where
  id : f.id = [] ∨ isValidId f.id = true
  app : f.app.all isNameChar = true
  app_length : f.app.length ≤ maxAppBytes
  kind : ∃ k, f.kind = kindName k
  progress : f.progress = [] ∨ ∃ n, IsPercent f.progress n
  title : ∀ t, f.title = some t → NoControls t ∧ (octets t).length ≤ maxTitleDecodedBytes
  msg : ∀ t, f.msg = some t → NoControls t ∧ (octets t).length ≤ maxMsgDecodedBytes

/-- What the flags say. A kind belongs to `blocked`, a progress to the live states. -/
def reportOf (st : State) (f : Flags) : Report where
  id := f.id
  state := st
  app := f.app
  kind := if st = .blocked then parseKind f.kind else .none
  progress := if st = .working ∨ st = .blocked then (given f.progress).bind parseProgress else none
  title := (f.title.map shown).getD []
  msg := (f.msg.map shown).getD []

/-- A character of a name may stand in a value. -/
theorem isNameChar_isValueChar {ch : WChar} (h : isNameChar ch = true) : isValueChar ch = true := by
  simp only [isNameChar, Bool.or_eq_true] at h
  simp only [isValueChar, Bool.or_eq_true]
  tauto

theorem all_isValueChar_b64 (t : List Char) : (b64 t).all isValueChar = true := by
  have halphabet : ∀ v < 64, isValueChar (base64Char v) = true := by decide +kernel
  rw [List.all_eq_true]
  intro c hc
  rcases List.mem_append.mp hc with hc | hc
  · obtain ⟨v, hv, rfl⟩ := List.mem_map.mp hc
    exact halphabet v (sextets_lt (octets_lt t) v hv)
  · rw [List.eq_of_mem_replicate hc]
    rfl

/-- A value that is given is written as it is. -/
theorem given_eq_some {value v : WString} (h : given value = some v) : v = value := by
  unfold given at h
  split_ifs at h
  exact (Option.some.inj h).symm

/-- The fields of valid flags are printable. -/
theorem printable_fields (st : State) {f : Flags} (hf : f.Valid) :
    Printable (fields (stateName st) f) where
  nodup := by
    rw [show (fields (stateName st) f).map Prod.fst =
      [L "state", L "id", L "app", L "kind", L "progress", L "title", L "msg"] from rfl]
    decide
  key := by
    simp only [fields, List.forall_mem_cons]
    exact ⟨rfl, rfl, rfl, rfl, rfl, rfl, rfl, fun _ h => absurd h List.not_mem_nil⟩
  value := by
    simp only [fields, List.forall_mem_cons]
    refine ⟨?_, ?_, ?_, ?_, ?_, ?_, ?_, fun _ h => absurd h List.not_mem_nil⟩
    all_goals intro v hv
    · rw [← Option.some.inj hv]
      cases st <;> rfl
    · rw [given_eq_some hv]
      rcases hf.id with hnil | hvalid
      · rw [hnil]
        rfl
      · exact all_isValueChar_of_isValidId hvalid
    · rw [given_eq_some hv]
      exact List.all_eq_true.mpr fun c hc =>
        isNameChar_isValueChar (List.all_eq_true.mp hf.app c hc)
    · rw [given_eq_some hv]
      obtain ⟨k, hk⟩ := hf.kind
      rw [hk]
      cases k <;> rfl
    · rw [given_eq_some hv]
      rcases hf.progress with hnil | ⟨n, hn⟩
      · rw [hnil]
        rfl
      · refine List.all_eq_true.mpr fun c hc => ?_
        simp [isValueChar, isAlnum, hn.digits c hc]
    · obtain ⟨t, -, rfl⟩ := Option.map_eq_some_iff.mp hv
      exact all_isValueChar_b64 t
    · obtain ⟨t, -, rfl⟩ := Option.map_eq_some_iff.mp hv
      exact all_isValueChar_b64 t

/-! ### The length -/

/-- A joined list is no longer than its parts, each with a separator. -/
theorem length_intercalate_le {α : Type} (sep : α) (ls : List (List α)) :
    ([sep].intercalate ls).length ≤ (ls.map fun l => l.length + 1).sum := by
  induction ls with
  | nil => exact Nat.zero_le _
  | cons l ls ih =>
      cases ls with
      | nil => simp
      | cons l' ls =>
          rw [List.intercalate_cons_cons, List.length_append, List.length_append, List.map_cons,
            List.sum_cons, List.length_singleton]
          omega

/-- What a field takes in the payload. -/
def cost (p : WString × Option WString) : ℕ := p.2.elim 0 fun v => p.1.length + v.length + 2

/-- The length of the pairs is the cost of their fields. -/
theorem sum_pairTexts (fs : List (WString × Option WString)) :
    ((pairTexts fs).map fun l => l.length + 1).sum = (fs.map cost).sum := by
  induction fs with
  | nil => rfl
  | cons p fs ih =>
      obtain ⟨k, value⟩ := p
      cases value with
      | none =>
          rw [pairTexts_none, ih, List.map_cons, List.sum_cons]
          exact (Nat.zero_add _).symm
      | some v =>
          rw [pairTexts_some, List.map_cons, List.sum_cons, ih, List.map_cons, List.sum_cons,
            List.length_append, List.length_cons]
          congr 1

/-- A field whose value has a limit. -/
theorem cost_le {k : WString} {value : Option WString} {n : ℕ}
    (h : ∀ v, value = some v → v.length ≤ n) : cost (k, value) ≤ k.length + n + 2 := by
  cases value with
  | none => exact Nat.zero_le _
  | some v =>
      have hv := h v rfl
      change k.length + v.length + 2 ≤ k.length + n + 2
      omega

/-- A valid id is short. -/
theorem length_le_of_isValidId {id : WString} (h : isValidId id = true) : id.length ≤ maxIdBytes := by
  unfold isValidId at h
  split_ifs at h with hlong
  by_contra hlength
  exact hlong (by simp [not_le.mp hlength])

/-- **Every report fits in a sequence**, with all its fields at their limits. -/
theorem length_payloadOf_le (st : State) {f : Flags} (hf : f.Valid) :
    (payloadOf (stateName st) f).length ≤ maxPayloadChars := by
  have hstate : cost (L "state", some (stateName st)) ≤ 5 + 7 + 2 :=
    cost_le fun v hv => by
      rw [← Option.some.inj hv]
      cases st <;> decide
  have hid : cost (L "id", given f.id) ≤ 2 + 128 + 2 :=
    cost_le fun v hv => by
      rw [given_eq_some hv]
      rcases hf.id with hnil | hvalid
      · rw [hnil]
        exact Nat.zero_le _
      · exact length_le_of_isValidId hvalid
  have happ : cost (L "app", given f.app) ≤ 3 + 32 + 2 :=
    cost_le fun v hv => given_eq_some hv ▸ hf.app_length
  have hkind : cost (L "kind", given f.kind) ≤ 4 + 10 + 2 :=
    cost_le fun v hv => by
      rw [given_eq_some hv]
      obtain ⟨k, hk⟩ := hf.kind
      rw [hk]
      cases k <;> decide
  have hprogress : cost (L "progress", given f.progress) ≤ 8 + 3 + 2 :=
    cost_le fun v hv => by
      rw [given_eq_some hv]
      rcases hf.progress with hnil | ⟨n, hn⟩
      · rw [hnil]
        exact Nat.zero_le _
      · exact hn.length_le
  have htitle : cost (L "title", f.title.map b64) ≤ 5 + 256 + 2 :=
    cost_le fun v hv => by
      obtain ⟨t, ht, rfl⟩ := Option.map_eq_some_iff.mp hv
      exact (length_encode_le rfl (hf.title t ht).2).2
  have hmsg : cost (L "msg", f.msg.map b64) ≤ 3 + 2732 + 2 :=
    cost_le fun v hv => by
      obtain ⟨t, ht, rfl⟩ := Option.map_eq_some_iff.mp hv
      exact (length_encode_le rfl (hf.msg t ht).2).2
  refine (length_intercalate_le _ _).trans ?_
  rw [sum_pairTexts]
  simp only [fields, List.map_cons, List.map_nil, List.sum_cons, List.sum_nil]
  unfold maxPayloadChars maxSequenceBytes sequenceFramingBytes
  omega

/-! ### The payload -/

/-- An empty value is a missing one. -/
theorem given_getD (value : WString) : (given value).getD [] = value := by
  unfold given
  split_ifs with hnil
  · exact hnil.symm
  · rfl

/-- A text field of the payload. -/
theorem textIs_b64 {text : Option (List Char)} {maxEncoded maxDecoded : ℕ}
    (hexact : DecodesExactly maxEncoded maxDecoded)
    (h : ∀ t, text = some t → NoControls t ∧ (octets t).length ≤ maxDecoded) :
    TextIs (text.map b64) maxEncoded maxDecoded ((text.map shown).getD []) := by
  cases text with
  | none => exact Or.inl ⟨rfl, rfl⟩
  | some t =>
      obtain ⟨hcontrols, hlength⟩ := h t rfl
      have hmem : b64 t ∈ [encode (octets t), encodePadded (octets t)] :=
        List.mem_cons_of_mem _ List.mem_cons_self
      exact Or.inr ⟨b64 t, rfl, (hexact.1 t hcontrols hlength _ hmem).2⟩

/-- **The payload describes what the flags say.** -/
theorem describes_payloadOf (st : State) {f : Flags} (hf : f.Valid) :
    Describes (payloadOf (stateName st) f) (reportOf st f) := by
  have hprintable := printable_fields st hf
  have hne : pairTexts (fields (stateName st) f) ≠ [] := List.cons_ne_nil _ _
  have hpairs : pairs (payloadOf (stateName st) f) = pairTexts (fields (stateName st) f) :=
    pairs_intercalate hprintable hne
  have hlast (key : WString) {value : Option WString}
      (hmem : (key, value) ∈ fields (stateName st) f) :
      lastValue key (payloadOf (stateName st) f) = value := by
    rw [lastValue, hpairs, lastOf_pairTexts hprintable hmem]
  have hstate := hlast (L "state") List.mem_cons_self
  have hid := hlast (L "id") (.tail _ List.mem_cons_self)
  have happ := hlast (L "app") (.tail _ (.tail _ List.mem_cons_self))
  have hkind := hlast (L "kind") (.tail _ (.tail _ (.tail _ List.mem_cons_self)))
  have hprogress := hlast (L "progress")
    (.tail _ (.tail _ (.tail _ (.tail _ List.mem_cons_self))))
  have htitle := hlast (L "title")
    (.tail _ (.tail _ (.tail _ (.tail _ (.tail _ List.mem_cons_self)))))
  have hmsg := hlast (L "msg")
    (.tail _ (.tail _ (.tail _ (.tail _ (.tail _ (.tail _ List.mem_cons_self))))))
  constructor
  case length_le => exact length_payloadOf_le st hf
  case not_query =>
    -- the payload begins with a letter
    intro hquery
    have hmem : wide 's' ∈ payloadOf (stateName st) f := by
      refine mem_intercalate_of_mem (l := L "state" ++ wide '=' :: stateName st) ?_ ?_
      · exact List.mem_cons_self
      · exact List.mem_append_left _ List.mem_cons_self
    have htrim : wide 's' ∈ trim (payloadOf (stateName st) f) :=
      mem_trimBlank_of_mem isSpace hmem rfl
    rw [hquery] at htrim
    exact absurd htrim (by decide)
  case pairs_ok =>
    rw [hpairs]
    refine pairOk_of_mem hprintable ?_ fun v hv => ?_
    · simp only [fields, List.forall_mem_cons]
      exact ⟨by decide, by decide, by decide, by decide, by decide, by decide, by decide,
        fun _ h => absurd h List.not_mem_nil⟩
    · have hgiven : given f.id = some v := by
        rw [← hid, hlast _ hv]
      have hnonempty : f.id ≠ [] := by
        intro hnil
        rw [given, if_pos hnil] at hgiven
        cases hgiven
      rw [given_eq_some hgiven]
      exact hf.id.resolve_left hnonempty
  case state => exact hstate
  case app_length =>
    intro v hv
    rw [happ] at hv
    exact given_eq_some hv ▸ hf.app_length
  case id =>
    rw [hid, given_getD]
    rfl
  case app =>
    rw [happ]
    unfold given
    split_ifs with hnil
    · exact hnil
    · rw [Option.filter_some, if_pos hf.app]
      rfl
  case kind =>
    intro k hk
    have hfield := kindField_eq_iff st (given f.kind) hk
    rw [given_getD] at hfield
    rw [hkind]
    exact hfield
  case progress =>
    intro n
    rw [hprogress]
    exact progressField_eq_iff st (given f.progress) n
  case title =>
    rw [htitle]
    exact textIs_b64 decodeTextField_exact.2 hf.title
  case msg =>
    rw [hmsg]
    exact textIs_b64 decodeTextField_exact.1 hf.msg

/-! ### The delivery -/

/-- A character of a value is printable ASCII. -/
theorem isValueChar_plain {ch : WChar} (h : isValueChar ch = true) : 0x20 ≤ ch.val ∧ ch.val < 0x7F := by
  have hwide {c : Char} (heq : ch = wide c) (hc : 0x20 ≤ (wide c).val ∧ (wide c).val < 0x7F) :
      0x20 ≤ ch.val ∧ ch.val < 0x7F := by rwa [heq]
  have hrange {lo hi : Char} (hlo : 0x20 ≤ lo.toNat) (hhi : hi.toNat < 0x7F)
      (hin : inRange lo hi ch = true) : 0x20 ≤ ch.val ∧ ch.val < 0x7F := by
    have hbounds : lo.toNat ≤ ch.val ∧ ch.val ≤ hi.toNat := by simpa [inRange] using hin
    omega
  simp only [isValueChar, isAlnum, Bool.or_eq_true, decide_eq_true_eq] at h
  rcases h with ((((((((hin | hin) | hin) | heq) | heq) | heq) | heq) | heq) | heq) | heq
  all_goals first
    | exact hrange (by decide) (by decide) hin
    | exact hwide heq (by decide)

theorem plain_payloadOf (st : State) {f : Flags} (hf : f.Valid) :
    ∀ c ∈ payloadOf (stateName st) f, 0x20 ≤ c.val ∧ c.val < 0x7F := by
  have hprintable := printable_fields st hf
  intro c hc
  rcases mem_intercalate hc with hcolon | ⟨pair, hpair, hc⟩
  · rw [List.mem_singleton.mp hcolon]
    decide
  · obtain ⟨⟨k, value⟩, hmem, hvalue⟩ := List.mem_filterMap.mp hpair
    obtain ⟨v, rfl, rfl⟩ := Option.map_eq_some_iff.mp hvalue
    rcases List.mem_append.mp hc with hc | hc
    · exact isValueChar_plain
        (List.all_eq_true.mp (all_isValueChar_of_isKey (hprintable.key _ hmem)) c hc)
    · rcases List.mem_cons.mp hc with rfl | hc
      · decide
      · exact isValueChar_plain (List.all_eq_true.mp (hprintable.value _ hmem v rfl) c hc)

section

variable {τ : Type} {rest : Rest τ} {R : τ → τ → Prop}

/-- The end of the data of a DCS sequence does not touch the store. -/
theorem store_actionInterrupt (r : Run (Terminal τ)) :
    (actionInterrupt (terminalEngine rest) r).2.store = r.2.store := by
  unfold actionInterrupt
  split_ifs <;> rfl

variable (h : rest.Indifferent R)

include h

/-- A payload of plain ASCII characters gets to the adapter as it is. -/
theorem deliver {payload : WString} (hplain : ∀ c ∈ payload, 0x20 ≤ c.val ∧ c.val < 0x7F)
    {pieces : List WString} (hpieces : pieces.flatten = emit payload) (r : Run (Terminal τ))
    (hansi : (terminalEngine rest).ansi (actionInterrupt (terminalEngine rest) r).2 = true) :
    Same (SameStore R)
      (pieces.foldl (fun r s => processString (terminalEngine rest) s r) r)
      ({ oscParameter := programStatus, oscString := payload },
        doProgramStatusAction rest payload (actionInterrupt (terminalEngine rest) r).2) := by
  have hchar : ∀ c ∈ payload, isOscChar c = true ∧ isOscInvalid c = false := by
    intro c hc
    obtain ⟨hlow, hhigh⟩ := hplain c hc
    have hne {d : WChar} (hd : d.val < 0x20 ∨ 0x7F ≤ d.val) : c ≠ d := by
      rintro rfl
      omega
    have hle {d : WChar} (hd : 0x7F ≤ d.val) : ¬ d ≤ c := fun h => by
      have := Fin.le_def.mp h
      omega
    have hge {d : WChar} (hd : d.val < 0x20) : ¬ c ≤ d := fun h => by
      have := Fin.le_def.mp h
      omega
    constructor
    · simp [isOscChar, isC1ControlCharacter, hne (d := asciiBEL) (by decide),
        hne (d := asciiESC) (by decide), hne (d := asciiCAN) (by decide),
        hne (d := asciiSUB) (by decide), hle (d := 0x80) (by decide)]
    · simp [isOscInvalid, hge (d := 0x17) (by decide), hne (d := 0x19) (by decide),
        hge (d := 0x1F) (by decide)]
  have htext : oscText payload = payload :=
    List.filter_eq_self.mpr fun c hc => by rw [(hchar c hc).2]; rfl
  have hnumber : min (number (L "7501")) maxParameterValue = programStatus := by decide
  have hosc := osc_of_pieces (engineAtDepth_indifferent h maxMacroDepth)
    (List.all_eq_true.mp (by decide)) (fun c hc => (hchar c hc).1) .st hpieces r hansi
  rw [htext, hnumber] at hosc
  exact hosc

/-- **The report arrives**, in a sequence whose payload fits the limit. -/
theorem send_delivers {st : State} {f : Flags} (hf : f.Valid) {bytes : WString}
    (hsend : send (stateName st) f = some bytes) {pieces : List WString}
    (hpieces : pieces.flatten = bytes) (r : Run (Terminal τ))
    (hansi : (terminalEngine rest).ansi (actionInterrupt (terminalEngine rest) r).2 = true) :
    let r' := pieces.foldl (fun r s => processString (terminalEngine rest) s r) r
    bytes = emit (payloadOf (stateName st) f) ∧
      (payloadOf (stateName st) f).length ≤ maxPayloadChars ∧ r'.1.state = .ground ∧
      r'.2.store = r.2.store.programStatusReport (.report (reportOf st f) 0) := by
  have hbytes : emit (payloadOf (stateName st) f) = bytes := by
    unfold send at hsend
    split_ifs at hsend
    exact Option.some.inj hsend
  obtain ⟨n, hparse⟩ := (parse_eq_report_iff _ _).mpr (describes_payloadOf st hf)
  obtain ⟨hparser, hstore, -⟩ := deliver h (plain_payloadOf st hf) (hpieces.trans hbytes.symm) r hansi
  dsimp only
  refine ⟨hbytes.symm, length_payloadOf_le st hf, by rw [hparser], ?_⟩
  · rw [hstore, doProgramStatusAction, hparse]
    dsimp only
    rw [store_actionInterrupt]
    rfl

/-- **The query is answered** when the feature is on, and changes nothing. -/
theorem query_answered {pieces : List WString} (hpieces : pieces.flatten = emit (L "?"))
    (r : Run (Terminal τ))
    (hansi : (terminalEngine rest).ansi (actionInterrupt (terminalEngine rest) r).2 = true) :
    let r' := pieces.foldl (fun r s => processString (terminalEngine rest) s r) r
    let x := (actionInterrupt (terminalEngine rest) r).2.rest
    r'.1.state = .ground ∧ r'.2.store = r.2.store ∧
      R r'.2.rest (if r.2.store.enabled then returnOscResponse rest queryReply x else x) := by
  have hplain : ∀ c ∈ L "?", 0x20 ≤ c.val ∧ c.val < 0x7F := by
    rintro c (_ | ⟨_, hc⟩)
    · decide
    · cases hc
  have hparse : parse (L "?") = .query := (parse_eq_query_iff _).mpr (by decide)
  obtain ⟨hparser, hstore, hrest⟩ := deliver h hplain hpieces r hansi
  rw [doProgramStatusAction, hparse] at hstore hrest
  dsimp only at hstore hrest ⊢
  rw [store_actionInterrupt] at hstore hrest
  refine ⟨by rw [hparser], ?_, ?_⟩
  · rw [hstore]
    split_ifs
    · rfl
    · exact store_actionInterrupt r
  · split_ifs at hrest ⊢ <;> exact hrest

end

/-! ### A small terminal -/

/-- A terminal that keeps its responses and does nothing else. -/
def quietRest : Rest (List WString) where
  engine :=
    { act := fun _ x => x
      dcsDispatch := fun _ _ x => (x, false)
      dcsString := fun _ x => (x, false)
      csiComplete := id
      acceptC1 := fun _ => false
      ansi := fun _ => true }
  sendC1 := fun _ => false
  returnResponse := fun response x => x ++ [response]
  takeMacro := fun x => (none, x)
  beginMacro := fun _ x => x
  endMacro := id

/-- A quiet rest is indifferent to any relation. -/
theorem quietRest_indifferent : quietRest.Indifferent Eq where
  engine :=
    { equivalence := eq_equivalence
      act := fun _ h => h
      dcsDispatch := fun _ _ h => ⟨h, rfl⟩
      dcsString := fun _ h => ⟨h, rfl⟩
      csiComplete := fun _ h => ⟨rfl, h⟩
      acceptC1 := fun _ => rfl
      ansi := fun _ => rfl
      printString := fun _ _ _ _ _ => rfl }
  sendC1 := fun _ => rfl
  returnResponse := fun _ h => by rw [h]
  takeMacro := fun h => ⟨rfl, h⟩
  beginMacro := fun _ h => h
  endMacro := fun h => h

/-- The second report of the script's demonstration. -/
def demoFlags : Flags := { kind := L "question", msg := some "Which branch should I target?".toList }

/-- The flags of the witness are valid. -/
theorem valid_demoFlags : demoFlags.Valid where
  id := Or.inl rfl
  app := rfl
  app_length := Nat.zero_le _
  kind := ⟨.question, rfl⟩
  progress := Or.inl rfl
  title := fun _ h => by cases h
  msg := fun t h => by
    have hcontrols : ("Which branch should I target?".toList.all fun c => !isControl c.toNat) = true :=
      by decide
    cases h
    exact ⟨fun c hc => by simpa using List.all_eq_true.mp hcontrols c hc, by decide⟩

/-- The demonstration, with its sequence cut behind the first character, inside a string that was
not finished. -/
theorem send_delivers_demo :
    let bytes := emit (payloadOf (stateName .blocked) demoFlags)
    let r' := [bytes.take 1, bytes.drop 1].foldl
      (fun r s => processString (terminalEngine quietRest) s r)
      ({ state := .oscString }, ⟨Store.empty 0 true false, []⟩)
    (payloadOf (stateName .blocked) demoFlags).length ≤ maxPayloadChars ∧
      r'.1.state = .ground ∧ r'.2.store =
      (Store.empty 0 true false).programStatusReport (.report (reportOf .blocked demoFlags) 0) := by
  have hsend : send (stateName .blocked) demoFlags =
      some (emit (payloadOf (stateName .blocked) demoFlags)) := if_pos (by decide)
  exact (send_delivers quietRest_indifferent valid_demoFlags hsend
    (by rw [List.flatten_cons, List.flatten_cons, List.flatten_nil, List.append_nil,
      List.take_append_drop]) _ rfl).2

/-- The answer of a terminal with the feature on. -/
theorem query_answered_on :
    let r' := [emit (L "?")].foldl (fun r s => processString (terminalEngine quietRest) s r)
      ({}, ⟨Store.empty 0 true false, []⟩)
    r'.1.state = .ground ∧ r'.2.store = Store.empty 0 true false ∧
      r'.2.rest = if (Store.empty 0 true false).enabled then
        returnOscResponse quietRest queryReply [] else [] :=
  query_answered quietRest_indifferent (List.append_nil _) _ rfl

end Axan.ProgramStatus
