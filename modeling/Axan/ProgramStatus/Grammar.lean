import Axan.ProgramStatus.Wire

/-!
# The report grammar of OSC 7501

The documented grammar, stated on the payload alone, and the proof that `parse` accepts exactly
it. A payload is read as its `:`-separated pairs (`pairs`); a pair has a trimmed key and value
when it holds a `=` (`keyValue`), and counts for a key when key and value are of the right
characters (`valueOf`); the last such value of a key is the one that applies (`lastValue`).

* `Describes payload F` — the payload is a report with the fields `F`: the conditions that
  discard, and one clause for each field.
* `parsePairs_eq_ok_iff` — the loop ends normally exactly when no pair discards, and then holds
  the last value of each key. The induction is on the pairs; `Fields.after` is the invariant.
* `parse_spec` — reports, queries and discards.
-/

namespace Axan.ProgramStatus

open Axan.Base

namespace Grammar

/-! ## The grammar -/

/-- The segments between the colons. -/
def pairs (payload : WString) : List WString := payload.splitOn (wide ':')

/-- The trimmed key and value of a pair, `none` without a `=`. -/
def keyValue (pair : WString) : Option (WString × WString) :=
  (cutAt (wide '=') pair).map fun p => (trim p.1, trim p.2)

/-- The value a well-formed pair gives to a key. -/
def valueOf (key pair : WString) : Option WString :=
  match keyValue pair with
  | none => none
  | some (k, v) => if k = key ∧ isKey k ∧ v.all isValueChar then some v else none

/-- The last well-formed value of a key among some pairs. -/
def lastOf (key : WString) (ps : List WString) : Option WString :=
  (ps.filterMap (valueOf key)).getLast?

/-- The last well-formed value of a key in a payload. -/
def lastValue (key payload : WString) : Option WString := lastOf key (pairs payload)

/-- The six state names. Source: `StateName` -/
def stateName : State → WString
  | .idle => L "idle"
  | .working => L "working"
  | .done => L "done"
  | .blocked => L "blocked"
  | .error => L "error"
  | .clear => L "clear"

/-- The three kind names. Source: `KindName` -/
def kindName : Kind → WString
  | .none => []
  | .permission => L "permission"
  | .question => L "question"
  | .auth => L "auth"

/-- The number a digit string denotes. -/
def decimalValue (v : WString) : ℕ :=
  Nat.ofDigits 10 (v.reverse.map fun ch => ch.val - '0'.toNat)

/-- A percentage: one to three digits, of value at most 100. -/
structure IsPercent (v : WString) (n : UInt8) : Prop where
  length_pos : 1 ≤ v.length
  length_le : v.length ≤ 3
  digits : ∀ ch ∈ v, inRange '0' '9' ch
  value : decimalValue v = n.toNat
  le : n.toNat ≤ 100

/-- An absent text field, or one that decodes within its limits. -/
def TextIs (encoded : Option WString) (maxEncoded maxDecoded : ℕ) (text : WString) : Prop :=
  (encoded = none ∧ text = []) ∨
    ∃ e, encoded = some e ∧ decodeTextField e maxEncoded maxDecoded = .ok text

/-- A pair that does not discard the report. -/
structure PairOk (pair : WString) : Prop where
  key_length : ∀ k v, keyValue pair = some (k, v) → isKey k → k.length ≤ maxKeyBytes
  not_bare_id : trim pair ≠ L "id"
  id_valid : ∀ v, keyValue pair = some (L "id", v) → isValidId v

/-- The payload is a report with the fields `F`.
Source: `program-status-osc-7501.md` section 2 -/
structure Describes (payload : WString) (F : Report) : Prop where
  length_le : payload.length ≤ maxPayloadChars
  not_query : trim payload ≠ L "?"
  pairs_ok : ∀ pair ∈ pairs payload, PairOk pair
  state : lastValue (L "state") payload = some (stateName F.state)
  app_length : ∀ v, lastValue (L "app") payload = some v → v.length ≤ maxAppBytes
  id : F.id = (lastValue (L "id") payload).getD []
  app : F.app = ((lastValue (L "app") payload).filter (·.all isNameChar)).getD []
  kind : ∀ k, k ≠ Kind.none →
    (F.kind = k ↔ F.state = .blocked ∧ lastValue (L "kind") payload = some (kindName k))
  progress : ∀ n, F.progress = some n ↔
    (F.state = .working ∨ F.state = .blocked) ∧
      ∃ v, lastValue (L "progress") payload = some v ∧ IsPercent v n
  title : TextIs (lastValue (L "title") payload) maxTitleEncodedBytes maxTitleDecodedBytes F.title
  msg : TextIs (lastValue (L "msg") payload) maxMsgEncodedBytes maxMsgDecodedBytes F.msg

end Grammar

open Grammar

/-! ## Field values -/

/-- A state is read from its own name only. -/
theorem parseState_eq_some_iff {v : WString} {s : State} :
    parseState v = some s ↔ v = stateName s := by
  constructor
  · intro h
    unfold parseState at h
    split_ifs at h with h₁ h₂ h₃ h₄ h₅ h₆ <;> cases h <;> assumption
  · rintro rfl
    cases s <;> decide

theorem parseKind_eq_iff {v : WString} {k : Kind} (hk : k ≠ .none) :
    parseKind v = k ↔ v = kindName k := by
  constructor
  · intro h
    unfold parseKind at h
    split_ifs at h with h₁ h₂ h₃
    all_goals subst h
    · exact h₁
    · exact h₂
    · exact h₃
    · exact absurd rfl hk
  · rintro rfl
    cases k
    · exact absurd rfl hk
    all_goals decide

/-- The digit loop reads a number in base ten, and stops on a character that is not a digit. -/
theorem parseProgressLoop_eq_some_iff (v : WString) (acc n : ℕ) :
    parseProgressLoop acc v = some n ↔
      (∀ ch ∈ v, inRange '0' '9' ch) ∧ n = acc * 10 ^ v.length + decimalValue v := by
  induction v generalizing acc with
  | nil =>
      rw [parseProgressLoop]
      simp [decimalValue]
      exact eq_comm
  | cons ch v ih =>
      rw [parseProgressLoop]
      by_cases hd : inRange '0' '9' ch
      · have hval : decimalValue (ch :: v) =
            decimalValue v + 10 ^ v.length * (ch.val - '0'.toNat) := by
          simp [decimalValue, Nat.ofDigits_append]
        simp only [hd, Bool.not_true, Bool.false_eq_true, if_false, ih, List.forall_mem_cons,
          true_and, List.length_cons, hval]
        refine and_congr_right fun _ => ?_
        rw [pow_succ]
        constructor <;> intro h <;> rw [h] <;> ring
      · simp [hd]

/-- And a percentage from its digits. -/
theorem parseProgress_eq_some_iff {v : WString} {n : UInt8} :
    parseProgress v = some n ↔ IsPercent v n := by
  have hlen : (v.isEmpty || decide (v.length > 3)) = true ↔ ¬(1 ≤ v.length ∧ v.length ≤ 3) := by
    cases v with
    | nil => simp
    | cons a v => simp
  constructor
  · intro h
    unfold parseProgress at h
    split_ifs at h with h₁
    rw [hlen, not_not] at h₁
    cases hp : parseProgressLoop 0 v with
    | none => rw [hp] at h; cases h
    | some m =>
        rw [hp] at h
        simp only at h
        split_ifs at h with hm
        obtain ⟨hd, hm'⟩ := (parseProgressLoop_eq_some_iff v 0 m).mp hp
        have hn : n.toNat = m := by
          have : m.toUInt8 = n := by simpa using h
          rw [← this, UInt8.toNat_ofNat']
          exact Nat.mod_eq_of_lt (by omega)
        exact ⟨h₁.1, h₁.2, hd, by rw [hn, hm']; simp, by omega⟩
  · rintro ⟨h₁, h₂, hd, hv, hle⟩
    have hp : parseProgressLoop 0 v = some n.toNat :=
      (parseProgressLoop_eq_some_iff v 0 _).mpr ⟨hd, by rw [hv]; simp⟩
    unfold parseProgress
    rw [if_neg (by rw [hlen, not_not]; exact ⟨h₁, h₂⟩), hp]
    simp only
    rw [if_neg (by omega)]
    simp

/-- The loop of `isValidId` only passes name characters and slashes. -/
theorem isValidIdLoop_all {segments len : ℕ} {id : WString}
    (h : isValidIdLoop segments len id = true) :
    ∀ ch ∈ id, ch = wide '/' ∨ isNameChar ch = true := by
  induction id generalizing segments len with
  | nil => simp
  | cons ch rest ih =>
      rw [isValidIdLoop] at h
      split_ifs at h with h₁ h₂ h₃
      · exact List.forall_mem_cons.mpr ⟨Or.inl h₁, ih h⟩
      · refine List.forall_mem_cons.mpr ⟨Or.inr ?_, ih h⟩
        by_contra hn
        exact h₃ (by simp [hn])

/-- An id that passes the check is of value characters. -/
theorem all_isValueChar_of_isValidId {id : WString} (h : isValidId id = true) :
    id.all isValueChar = true := by
  unfold isValidId at h
  split_ifs at h
  rw [List.all_eq_true]
  intro ch hch
  rcases isValidIdLoop_all h ch hch with rfl | hn
  · decide
  · simp only [isNameChar, Bool.or_eq_true] at hn
    simp only [isValueChar, Bool.or_eq_true]
    tauto

/-! ## The pair loop -/

namespace Grammar

/-- A malformed pair: no `=`, a bad key, or a value character outside the alphabet. -/
def isSkipped (pair : WString) : Bool :=
  match keyValue pair with
  | none => true
  | some (k, v) => !isKey k || !v.all isValueChar

end Grammar

/-- The loop's locals after some pairs: the last value of each key, the older value where there
is none. -/
def Fields.after (f : Fields) (ps : List WString) : Fields where
  state := (lastOf (L "state") ps).or f.state
  id := (lastOf (L "id") ps).or f.id
  app := (lastOf (L "app") ps).or f.app
  kind := (lastOf (L "kind") ps).or f.kind
  progress := (lastOf (L "progress") ps).or f.progress
  title := (lastOf (L "title") ps).or f.title
  msg := (lastOf (L "msg") ps).or f.msg
  skipped := f.skipped + ps.countP isSkipped

/-- No pair changes no field. -/
@[simp] theorem Fields.after_nil (f : Fields) : f.after [] = f := by
  simp [Fields.after, lastOf]

/-- The last pair of a key counts. -/
theorem lastOf_cons (key pair : WString) (ps : List WString) :
    lastOf key (pair :: ps) = (lastOf key ps).or (lastOf key [pair]) := by
  cases h : valueOf key pair with
  | none => simp [lastOf, h]
  | some v => simp [lastOf, h, List.getLast?_cons]

/-- The fields are read pair by pair. -/
theorem Fields.after_cons (f : Fields) (pair : WString) (ps : List WString) :
    f.after (pair :: ps) = (f.after [pair]).after ps := by
  simp only [Fields.after, lastOf_cons _ pair ps, Option.or_assoc, List.countP_cons,
    List.countP_nil, Fields.mk.injEq, true_and]
  omega

/-- A pair that is skipped leaves every value and counts one. -/
theorem Fields.after_skipped (f : Fields) {pair : WString} (h : isSkipped pair = true) :
    f.after [pair] = f.skip := by
  have hv : ∀ key, valueOf key pair = none := by
    intro key
    unfold isSkipped at h
    unfold valueOf
    cases hk : keyValue pair with
    | none => rfl
    | some kv =>
        obtain ⟨k, v⟩ := kv
        rw [hk] at h
        simp only [Bool.or_eq_true, Bool.not_eq_true'] at h
        have : ¬(k = key ∧ isKey k = true ∧ v.all isValueChar = true) := by
          rintro ⟨-, h₁, h₂⟩
          rw [h₁, h₂] at h
          simp at h
        simp only [this, if_false]
  simp [Fields.after, Fields.skip, lastOf, hv, h]

/-- What a well-formed pair gives to a key: its value to its own key, nothing to another. -/
theorem lastOf_singleton {pair key k v : WString} (hkv : keyValue pair = some (k, v))
    (hk : isKey k = true) (hv : v.all isValueChar = true) :
    lastOf key [pair] = if k = key then some v else none := by
  have : valueOf key pair = if k = key then some v else none := by
    unfold valueOf
    rw [hkv]
    simp only [hk, hv, and_self, and_true]
  rw [lastOf]
  split_ifs with h <;> simp [this, h]

/-- Remembering a value that is not a bad id: the value goes to its own key and to no other. -/
theorem Fields.assign_eq_ok (f : Fields) {k v : WString} (hid : k = L "id" → isValidId v = true) :
    f.assign k v = .ok
      { state := (if k = L "state" then some v else none).or f.state
        id := (if k = L "id" then some v else none).or f.id
        app := (if k = L "app" then some v else none).or f.app
        kind := (if k = L "kind" then some v else none).or f.kind
        progress := (if k = L "progress" then some v else none).or f.progress
        title := (if k = L "title" then some v else none).or f.title
        msg := (if k = L "msg" then some v else none).or f.msg
        skipped := f.skipped } := by
  have hd : [L "state", L "id", L "app", L "kind", L "progress", L "title", L "msg"].Nodup := by
    decide
  simp only [List.nodup_cons, List.mem_cons, List.not_mem_nil, or_false, not_or] at hd
  obtain ⟨⟨_, _, _, _, _, _⟩, ⟨_, _, _, _, _⟩, ⟨_, _, _, _⟩, ⟨_, _, _⟩, ⟨_, _⟩, _, -⟩ := hd
  unfold Fields.assign
  by_cases hstate : k = L "state"
  · subst hstate; simp [*]
  by_cases hid' : k = L "id"
  · subst hid'; simp [*]
  by_cases happ : k = L "app"
  · subst happ; simp [*]
  by_cases hkind : k = L "kind"
  · subst hkind; simp [*]
  by_cases hprogress : k = L "progress"
  · subst hprogress; simp [*]
  by_cases htitle : k = L "title"
  · subst htitle; simp [*]
  by_cases hmsg : k = L "msg"
  · subst hmsg; simp [*]
  · simp [*]

/-- Remembering the value of a well-formed pair fails only on an invalid id. -/
theorem Fields.assign_eq_ok_iff (f f' : Fields) {pair k v : WString}
    (hkv : keyValue pair = some (k, v)) (hk : isKey k = true) (hv : v.all isValueChar = true) :
    f.assign k v = .ok f' ↔ (k = L "id" → isValidId v = true) ∧ f' = f.after [pair] := by
  have hskip : isSkipped pair = false := by
    simp only [isSkipped, hkv, hk, hv]
    rfl
  by_cases hid : k = L "id" → isValidId v = true
  · have hafter : f.assign k v = .ok (f.after [pair]) := by
      rw [f.assign_eq_ok hid]
      simp [Fields.after, lastOf_singleton hkv hk hv, hskip]
    rw [hafter]
    constructor
    · intro h
      cases h
      exact ⟨hid, rfl⟩
    · rintro ⟨-, rfl⟩
      rfl
  · have herr : f.assign k v = .error "invalid-id" := by
      push Not at hid
      obtain ⟨rfl, hbad⟩ := hid
      unfold Fields.assign
      rw [if_neg (by decide), if_pos rfl, if_pos (by simpa using hbad)]
    rw [herr]
    simp [hid]

/-- A pair with a `=` is not a bare `id`. -/
theorem trim_ne_id_of_mem {pair : WString} (h : wide '=' ∈ pair) : trim pair ≠ L "id" := by
  intro hid
  have : wide '=' ∈ trim pair := mem_trimBlank_of_mem isSpace h (by decide)
  rw [hid] at this
  revert this
  decide

/-- Without an equals sign there is no pair. -/
theorem keyValue_eq_none_iff {pair : WString} : keyValue pair = none ↔ wide '=' ∉ pair := by
  simp [keyValue, cutAt_eq_none_iff]

/-- One turn of the loop: it goes on exactly when the pair does not discard. -/
theorem parsePair_eq_ok_iff (f f' : Fields) (pair : WString) :
    parsePair f pair = .ok f' ↔ PairOk pair ∧ f' = f.after [pair] := by
  unfold parsePair
  cases hc : cutAt (wide '=') pair with
  | none =>
      have hkv : keyValue pair = none := by simp [keyValue, hc]
      have hskip : isSkipped pair = true := by simp [isSkipped, hkv]
      rw [f.after_skipped hskip]
      simp only
      split_ifs with hid
      · simp only [false_iff]
        rintro ⟨h, -⟩
        exact h.not_bare_id hid
      · have hok : PairOk pair :=
          ⟨fun k v h => by simp [hkv] at h, hid, fun v h => by simp [hkv] at h⟩
        rw [Except.ok.injEq]
        exact ⟨fun h => ⟨hok, h.symm⟩, fun h => h.2.symm⟩
  | some p =>
      obtain ⟨k₀, v₀⟩ := p
      have hkv : keyValue pair = some (trim k₀, trim v₀) := by simp [keyValue, hc]
      have hmem : wide '=' ∈ pair := by
        by_contra hn
        rw [keyValue_eq_none_iff.mpr hn] at hkv
        cases hkv
      simp only
      generalize trim k₀ = k at hkv ⊢
      generalize trim v₀ = v at hkv ⊢
      have hok : PairOk pair ↔
          (isKey k = true → k.length ≤ maxKeyBytes) ∧ (k = L "id" → isValidId v = true) := by
        constructor
        · rintro ⟨h₁, -, h₃⟩
          exact ⟨h₁ k v hkv, fun h => h₃ v (by rw [hkv, h])⟩
        · rintro ⟨h₁, h₂⟩
          refine ⟨fun k' v' h => ?_, trim_ne_id_of_mem hmem, fun v' h => ?_⟩
          · rw [hkv] at h; cases h; exact h₁
          · rw [hkv] at h; cases h; exact h₂ rfl
      rw [hok]
      by_cases hkey : isKey k = true
      · simp only [hkey, Bool.not_true, Bool.false_eq_true, if_false, true_implies]
        by_cases hlen : k.length > maxKeyBytes
        · rw [if_pos hlen]
          simp only [reduceCtorEq, false_iff]
          rintro ⟨⟨h, -⟩, -⟩
          omega
        · rw [if_neg hlen]
          by_cases hval : v.all isValueChar = true
          · simp only [hval, Bool.not_true, Bool.false_eq_true, if_false]
            rw [f.assign_eq_ok_iff f' hkv hkey hval]
            have : k.length ≤ maxKeyBytes := by omega
            tauto
          · have hskip : isSkipped pair = true := by
              simp only [isSkipped, hkv, hkey]
              simpa using hval
            rw [f.after_skipped hskip]
            simp only [Bool.not_eq_true] at hval
            simp only [hval, Bool.not_false, if_true]
            split_ifs with hid
            · -- an id with a bad character is not a valid id either
              simp only [false_iff]
              rintro ⟨⟨-, h⟩, -⟩
              rw [all_isValueChar_of_isValidId (h hid)] at hval
              cases hval
            · have hlen' : k.length ≤ maxKeyBytes := by omega
              rw [Except.ok.injEq]
              exact ⟨fun h => ⟨⟨hlen', fun h' => absurd h' hid⟩, h.symm⟩, fun h => h.2.symm⟩
      · have hskip : isSkipped pair = true := by
          simp only [Bool.not_eq_true] at hkey
          simp [isSkipped, hkv, hkey]
        have hid : k ≠ L "id" := by
          rintro rfl
          exact hkey (by decide)
        rw [f.after_skipped hskip, if_pos (by simpa using hkey), Except.ok.injEq]
        exact ⟨fun h => ⟨⟨fun h' => absurd h' hkey, fun h' => absurd h' hid⟩, h.symm⟩,
          fun h => h.2.symm⟩

/-- The loop ends normally exactly when no pair discards, and then holds the last value of each
key. -/
theorem parsePairs_eq_ok_iff (f f' : Fields) (ps : List WString) :
    parsePairs f ps = .ok f' ↔ (∀ pair ∈ ps, PairOk pair) ∧ f' = f.after ps := by
  induction ps generalizing f with
  | nil => simp [parsePairs, eq_comm]
  | cons pair ps ih =>
      rw [parsePairs, List.forall_mem_cons]
      cases hp : parsePair f pair with
      | error why =>
          simp only [reduceCtorEq, false_iff]
          rintro ⟨⟨h, -⟩, -⟩
          rw [(parsePair_eq_ok_iff f _ pair).mpr ⟨h, rfl⟩] at hp
          cases hp
      | ok g =>
          obtain ⟨hok, rfl⟩ := (parsePair_eq_ok_iff f g pair).mp hp
          simp only
          rw [ih, ← f.after_cons]
          tauto

/-! ## After the loop -/

/-- A text is accepted iff it decodes within its bounds. -/
theorem textField_eq_ok_iff {encoded : Option WString} {maxEncoded maxDecoded : ℕ}
    {text : WString} :
    textField encoded maxEncoded maxDecoded = .ok text ↔
      TextIs encoded maxEncoded maxDecoded text := by
  cases encoded with
  | none => simp [textField, TextIs, eq_comm]
  | some e => simp [textField, TextIs]

/-- A missing name is the empty one. -/
theorem appField_getD (app : Option WString) :
    appField (app.getD []) = (app.filter (·.all isNameChar)).getD [] := by
  cases app with
  | none => rfl
  | some v =>
      cases v with
      | nil => rfl
      | cons a v =>
          by_cases h : (a :: v).all isNameChar = true
          · rw [Option.getD_some, appField, Option.filter_some, if_pos h]
            simp [h]
          · rw [Option.getD_some, appField, Option.filter_some, if_neg h]
            simp [h]

/-- The kind is settled by which of the three kinds it is. -/
theorem Kind.eq_of_forall {a b : Kind} (h : ∀ k, k ≠ Kind.none → (a = k ↔ b = k)) : a = b := by
  by_cases ha : a = Kind.none
  · by_cases hb : b = Kind.none
    · rw [ha, hb]
    · exact (h b hb).mpr rfl
  · exact ((h a ha).mp rfl).symm

/-- The kind field, read as the grammar states it. -/
theorem kindField_eq_iff (state : State) (kind : Option WString) {k : Kind} (hk : k ≠ .none) :
    (if state = .blocked then parseKind (kind.getD []) else .none) = k ↔
      state = .blocked ∧ kind = some (kindName k) := by
  split_ifs with hs
  · rw [parseKind_eq_iff hk]
    cases kind with
    | none =>
        simp only [Option.getD_none, reduceCtorEq, and_false, iff_false]
        intro h
        revert hk h
        cases k <;> decide
    | some v => simp [hs]
  · simp [hs, hk.symm]

/-- The progress field, read as the grammar states it. -/
theorem progressField_eq_iff (state : State) (progress : Option WString) (n : UInt8) :
    (if state = .working ∨ state = .blocked then progress.bind parseProgress else none) = some n ↔
      (state = .working ∨ state = .blocked) ∧ ∃ v, progress = some v ∧ IsPercent v n := by
  split_ifs with hs
  · simp [hs, Option.bind_eq_some_iff, parseProgress_eq_some_iff]
  · simp [hs]

/-- What follows the loop returns a report exactly when the remembered values make one. -/
theorem finishReport_eq_report_iff (f : Fields) (F : Report) :
    (∃ n, finishReport f = .report F n) ↔
      f.state = some (stateName F.state) ∧
      (∀ v, f.app = some v → v.length ≤ maxAppBytes) ∧
      F.id = f.id.getD [] ∧
      F.app = (f.app.filter (·.all isNameChar)).getD [] ∧
      (∀ k, k ≠ Kind.none → (F.kind = k ↔ F.state = .blocked ∧ f.kind = some (kindName k))) ∧
      (∀ n, F.progress = some n ↔ (F.state = .working ∨ F.state = .blocked) ∧
        ∃ v, f.progress = some v ∧ IsPercent v n) ∧
      TextIs f.title maxTitleEncodedBytes maxTitleDecodedBytes F.title ∧
      TextIs f.msg maxMsgEncodedBytes maxMsgDecodedBytes F.msg := by
  have happ : (f.app.getD []).length ≤ maxAppBytes ↔
      ∀ v, f.app = some v → v.length ≤ maxAppBytes := by
    cases f.app <;> simp
  constructor
  · rintro ⟨n, h⟩
    unfold finishReport at h
    cases hs : f.state with
    | none => rw [hs] at h; cases h
    | some s =>
        rw [hs] at h
        cases hp : parseState s with
        | none => simp only [hp] at h; cases h
        | some state =>
            simp only [hp] at h
            by_cases hlen : (f.app.getD []).length > maxAppBytes
            · rw [if_pos hlen] at h; cases h
            rw [if_neg hlen] at h
            cases ht : textField f.title maxTitleEncodedBytes maxTitleDecodedBytes with
            | error why => simp only [ht] at h; cases h
            | ok title =>
                simp only [ht] at h
                cases hm : textField f.msg maxMsgEncodedBytes maxMsgDecodedBytes with
                | error why => simp only [hm] at h; cases h
                | ok msg =>
                    simp only [hm] at h
                    cases h
                    exact ⟨by rw [parseState_eq_some_iff.mp hp], happ.mp (by omega), rfl,
                      appField_getD f.app, fun k hk => kindField_eq_iff state f.kind hk,
                      fun n => progressField_eq_iff state f.progress n,
                      textField_eq_ok_iff.mp ht, textField_eq_ok_iff.mp hm⟩
  · rintro ⟨hs, hlen, hid, happF, hkind, hprogress, ht, hm⟩
    refine ⟨f.skipped, ?_⟩
    have hp : parseState (stateName F.state) = some F.state := parseState_eq_some_iff.mpr rfl
    have hlen' : ¬(f.app.getD []).length > maxAppBytes := by
      have := happ.mpr hlen
      omega
    unfold finishReport
    simp only [hs, hp, if_neg hlen', textField_eq_ok_iff.mpr ht, textField_eq_ok_iff.mpr hm]
    have hk : F.kind =
        if F.state = .blocked then parseKind (f.kind.getD []) else .none :=
      Kind.eq_of_forall fun k hk => (hkind k hk).trans (kindField_eq_iff F.state f.kind hk).symm
    have hpr : F.progress =
        if F.state = .working ∨ F.state = .blocked then f.progress.bind parseProgress
        else none :=
      Option.ext fun n => (hprogress n).trans (progressField_eq_iff F.state f.progress n).symm
    rw [ParseResult.report.injEq]
    refine ⟨?_, rfl⟩
    cases F
    simp only at hid happF hk hpr ⊢
    rw [← hid, appField_getD, ← happF, ← hk, ← hpr]

/-- After the loop there is a report or a discard, never a query. -/
theorem finishReport_ne_query (f : Fields) : finishReport f ≠ .query := by
  unfold finishReport
  intro h
  repeat' split at h
  all_goals cases h

/-! ## The parser -/

/-- The parser returns a report exactly for the payloads that describe it. -/
theorem parse_eq_report_iff (payload : WString) (F : Report) :
    (∃ n, parse payload = .report F n) ↔ Describes payload F := by
  unfold parse
  split_ifs with hlen hq
  · simp only [exists_false, false_iff]
    intro h
    exact absurd h.length_le (by omega)
  · simp only [exists_false, false_iff]
    intro h
    exact h.not_query hq
  · cases hps : parsePairs {} (payload.splitOn (wide ':')) with
    | error why =>
        simp only [reduceCtorEq, exists_false, false_iff]
        intro h
        have hok := (parsePairs_eq_ok_iff {} _ (pairs payload)).mpr ⟨h.pairs_ok, rfl⟩
        rw [pairs, hps] at hok
        cases hok
    | ok f =>
        obtain ⟨hok, rfl⟩ := (parsePairs_eq_ok_iff {} f _).mp hps
        simp only
        rw [finishReport_eq_report_iff]
        simp only [Fields.after, Option.or_none]
        constructor
        · rintro ⟨h₁, h₂, h₃, h₄, h₅, h₆, h₇, h₈⟩
          exact ⟨by omega, hq, hok, h₁, h₂, h₃, h₄, h₅, h₆, h₇, h₈⟩
        · rintro ⟨-, -, -, h₁, h₂, h₃, h₄, h₅, h₆, h₇, h₈⟩
          exact ⟨h₁, h₂, h₃, h₄, h₅, h₆, h₇, h₈⟩

/-- The parser returns a query exactly for a `?` between blanks that fits the payload limit. -/
theorem parse_eq_query_iff (payload : WString) :
    parse payload = .query ↔ payload.length ≤ maxPayloadChars ∧ trim payload = L "?" := by
  unfold parse
  split_ifs with hlen hq
  · simp only [false_iff, not_and]
    intro h
    omega
  · simp only [hq, and_true, true_iff]
    omega
  · simp only [hq, and_false, iff_false]
    cases hps : parsePairs {} (payload.splitOn (wide ':')) with
    | error why => simp
    | ok f => exact finishReport_ne_query f

/-- **`parse` accepts exactly the documented grammar.** It returns a report with the fields `F`
exactly when the payload describes `F`, it returns a query exactly for a trimmed `?` within the
payload limit, and it discards every other payload.
Source: `ProgramStatus.hpp` `Parse`; `program-status-osc-7501.md` section 2 -/
theorem parse_spec (payload : WString) :
    (∀ F, (∃ n, parse payload = .report F n) ↔ Describes payload F) ∧
    (parse payload = .query ↔ payload.length ≤ maxPayloadChars ∧ trim payload = L "?") ∧
    ((∃ F, Describes payload F) ∨ (payload.length ≤ maxPayloadChars ∧ trim payload = L "?") ∨
      ∃ why, parse payload = .discarded why) := by
  refine ⟨parse_eq_report_iff payload, parse_eq_query_iff payload, ?_⟩
  cases hp : parse payload with
  | query => exact Or.inr (Or.inl ((parse_eq_query_iff payload).mp hp))
  | report F n => exact Or.inl ⟨F, (parse_eq_report_iff payload F).mp ⟨n, hp⟩⟩
  | discarded why => exact Or.inr (Or.inr ⟨why, rfl⟩)

/-- A `?` behind more blanks than the payload limit allows trims to `?` and is still discarded:
the length check comes before the query check. -/
theorem parse_padded_query :
    trim (List.replicate 4088 (wide ' ') ++ [wide '?']) = L "?" ∧
    parse (List.replicate 4088 (wide ' ') ++ [wide '?']) = .discarded "sequence-too-long" := by
  refine ⟨trimBlank_replicate_append isSpace (by decide) (by decide) 4088, ?_⟩
  unfold parse
  rw [if_pos]
  simp only [List.length_append, List.length_replicate, List.length_singleton]
  decide

end Axan.ProgramStatus
