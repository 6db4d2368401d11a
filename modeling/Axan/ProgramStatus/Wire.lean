import Axan.Base.Text

/-!
# The OSC 7501 wire format: `ProgramStatus.hpp`

The payload parser of the Program Status Protocol, translated function by function. A payload is
a query, a fully validated report, or is discarded with a reason; nothing is applied in part.

* `Report`, `ParseResult` — what the parser returns. `Outcome` and the fields that are meaningful
  for one outcome only are one inductive type.
* `decodeBase64`, `decodeUtf8Text`, `decodeTextField` — the two text fields.
* `parsePair` — one turn of the pair loop: stop with a reason, skip the pair, or remember a value.
* `parse` — the whole function; `finishReport` is the part after the loop.

`std::string` bytes and the accumulators `acc`, `cp` are natural numbers; where the source's type
is `uint32_t` the reduction is written out.
-/

namespace Axan.ProgramStatus

open Axan.Base

/-- A record's state as reported. `clear` is a command, not a record state. -/
inductive State where
  | idle
  | working
  | done
  | blocked
  | error
  | clear
  deriving DecidableEq, Repr

/-- Why a blocked program waits. -/
inductive Kind where
  | none
  | permission
  | question
  | auth
  deriving DecidableEq, Repr

/-! ### Limits -/

def maxSequenceBytes : ℕ := 4096
def maxKeyBytes : ℕ := 16
def maxAppBytes : ℕ := 32
def maxMsgEncodedBytes : ℕ := 2732
def maxMsgDecodedBytes : ℕ := 2048
def maxTitleEncodedBytes : ℕ := 256
def maxTitleDecodedBytes : ℕ := 192
def maxIdBytes : ℕ := 128
def maxIdSegmentBytes : ℕ := 32
def maxIdSegments : ℕ := 8
def maxRecords : ℕ := 256
def sequenceFramingBytes : ℕ := 8

/-- The payload limit: the sequence limit less `ESC ] 7501 ;` and the shortest terminator. -/
def maxPayloadChars : ℕ := maxSequenceBytes - sequenceFramingBytes

/-- A validated report. The empty id is the root record (or, for `clear`, every record), an empty
text is an absent one. -/
structure Report where
  id : WString := []
  state : State := .idle
  app : WString := []
  kind : Kind := .none
  progress : Option UInt8 := none
  title : WString := []
  msg : WString := []
  deriving DecidableEq, Repr

/-- What `parse` returns. -/
inductive ParseResult where
  | query
  | report (report : Report) (skippedPairs : ℕ)
  | discarded (reason : String)
  deriving DecidableEq, Repr

/-! ### Character classes -/

def isSpace (ch : WChar) : Bool := ch = wide ' ' || ch = wide '\t'

/-- Drop spaces and tabs at both ends. Source: `Trim`. -/
def trim (s : WString) : WString := trimBlank isSpace s

def isAlnum (ch : WChar) : Bool :=
  inRange 'a' 'z' ch || inRange 'A' 'Z' ch || inRange '0' '9' ch

/-- `value := [A-Za-z0-9_.,+/=-]*` -/
def isValueChar (ch : WChar) : Bool :=
  isAlnum ch || ch = wide '_' || ch = wide '.' || ch = wide ',' || ch = wide '+' ||
    ch = wide '/' || ch = wide '=' || ch = wide '-'

/-- `segment / app := [A-Za-z0-9_.+-]` -/
def isNameChar (ch : WChar) : Bool :=
  isAlnum ch || ch = wide '_' || ch = wide '.' || ch = wide '+' || ch = wide '-'

def isKey (key : WString) : Bool := !key.isEmpty && key.all (inRange 'a' 'z')

/-- The loop of `IsValidId` with its two counters.
Source: `ProgramStatus.hpp` `IsValidId`, the range-for -/
def isValidIdLoop : ℕ → ℕ → WString → Bool
  | _, segmentLength, [] => segmentLength != 0
  | segments, segmentLength, ch :: rest =>
      if ch = wide '/' then
        if segmentLength = 0 || segments + 1 > maxIdSegments then false
        else isValidIdLoop (segments + 1) 0 rest
      else if !isNameChar ch || segmentLength + 1 > maxIdSegmentBytes then false
      else isValidIdLoop segments (segmentLength + 1) rest

/-- `id := segment ("/" segment)*`, at most 8 segments of at most 32 units, at most 128 in all.
Source: `ProgramStatus.hpp` `IsValidId` -/
def isValidId (id : WString) : Bool :=
  if id.isEmpty || id.length > maxIdBytes then false else isValidIdLoop 1 0 id

/-! ### Text fields -/

/-- The six-bit value of a base64 character. Source: `Base64Value` (`-1` is `none`). -/
def base64Value (ch : WChar) : Option ℕ :=
  if inRange 'A' 'Z' ch then some (ch.val - 'A'.toNat)
  else if inRange 'a' 'z' ch then some (ch.val - 'a'.toNat + 26)
  else if inRange '0' '9' ch then some (ch.val - '0'.toNat + 52)
  else if ch = wide '+' then some 62
  else if ch = wide '/' then some 63
  else none

/-- The accumulator loop of `DecodeBase64`: six bits in, a byte out once eight are there. -/
def decodeBase64Loop : ℕ → ℕ → WString → Option (List ℕ)
  | _, _, [] => some []
  | acc, bits, ch :: rest => do
      let v ← base64Value ch
      let acc := ((acc <<< 6) ||| v) % 2 ^ 32
      let bits := bits + 6
      if bits ≥ 8 then
        let bits := bits - 8
        let out ← decodeBase64Loop acc bits rest
        return (acc >>> bits) % 256 :: out
      else
        decodeBase64Loop acc bits rest

/-- Standard alphabet, padding optional but correct when present.
Source: `ProgramStatus.hpp` `DecodeBase64` -/
def decodeBase64 (encoded : WString) : Option (List ℕ) :=
  let body := encoded.rdropWhile (· = wide '=')
  let padding := encoded.length - body.length
  if padding > 2 then none
  else if padding != 0 && (body.length + padding) % 4 != 0 then none
  else if body.length % 4 = 1 then none
  else decodeBase64Loop 0 0 body

/-- The lead byte of a UTF-8 sequence: its bits, the sequence length and the smallest code point
that needs that length. Source: the if-chain of `DecodeUtf8Text` -/
def utf8Lead (b₀ : ℕ) : Option (ℕ × ℕ × ℕ) :=
  if b₀ < 0x80 then some (b₀, 1, 0)
  else if b₀ &&& 0xE0 = 0xC0 then some (b₀ &&& 0x1F, 2, 0x80)
  else if b₀ &&& 0xF0 = 0xE0 then some (b₀ &&& 0x0F, 3, 0x800)
  else if b₀ &&& 0xF8 = 0xF0 then some (b₀ &&& 0x07, 4, 0x10000)
  else none

/-- The continuation bytes folded into the code point, `none` on a byte that is not one. -/
def utf8Continuation : ℕ → List ℕ → Option ℕ
  | cp, [] => some cp
  | cp, b :: rest =>
      if b &&& 0xC0 ≠ 0x80 then none else utf8Continuation ((cp <<< 6) ||| (b &&& 0x3F)) rest

/-- C0 controls, DEL and C1 controls. -/
def isControl (cp : ℕ) : Bool := cp < 0x20 || cp = 0x7F || (0x80 ≤ cp && cp ≤ 0x9F)

/-- The bidi controls that are stripped. -/
def isBidiControl (cp : ℕ) : Bool :=
  cp = 0x061C || cp = 0x200E || cp = 0x200F || (0x202A ≤ cp && cp ≤ 0x202E) ||
    (0x2066 ≤ cp && cp ≤ 0x2069)

/-- The UTF-16 form of a code point, a surrogate pair above the basic plane. -/
def utf16 (cp : ℕ) : WString :=
  if 0x10000 ≤ cp then
    [Fin.ofNat 65536 (0xD800 + ((cp - 0x10000) >>> 10)),
      Fin.ofNat 65536 (0xDC00 + ((cp - 0x10000) &&& 0x3FF))]
  else [Fin.ofNat 65536 cp]

/-- The decoding loop; every turn consumes at least one byte, so the number of bytes bounds the
number of turns. -/
def decodeUtf8Loop : ℕ → List ℕ → Except String WString
  | 0, _ => .ok []
  | _ + 1, [] => .ok []
  | fuel + 1, b₀ :: rest =>
      match utf8Lead b₀ with
      | none => .error "bad-utf8"
      | some (lead, len, min) =>
          if len > rest.length + 1 then .error "bad-utf8"
          else
            match utf8Continuation lead (rest.take (len - 1)) with
            | none => .error "bad-utf8"
            | some cp =>
                if cp < min || cp > 0x10FFFF || (0xD800 ≤ cp && cp ≤ 0xDFFF) then
                  .error "bad-utf8"
                else if isControl cp then .error "control-char"
                else
                  match decodeUtf8Loop fuel (rest.drop (len - 1)) with
                  | .error why => .error why
                  | .ok out => .ok (if isBidiControl cp then out else utf16 cp ++ out)

/-- Strict UTF-8 to UTF-16 without controls. Source: `ProgramStatus.hpp` `DecodeUtf8Text` -/
def decodeUtf8Text (bytes : List ℕ) : Except String WString := decodeUtf8Loop bytes.length bytes

/-- A base64 text field with its encoded and decoded limits.
Source: `ProgramStatus.hpp` `DecodeTextField` -/
def decodeTextField (encoded : WString) (maxEncoded maxDecoded : ℕ) : Except String WString :=
  if encoded.length > maxEncoded then .error "text-too-long"
  else
    match decodeBase64 encoded with
    | none => .error "bad-base64"
    | some bytes =>
        if bytes.length > maxDecoded then .error "text-too-long" else decodeUtf8Text bytes

/-! ### Field values -/

def parseState (v : WString) : Option State :=
  if v = L "idle" then some .idle
  else if v = L "working" then some .working
  else if v = L "done" then some .done
  else if v = L "blocked" then some .blocked
  else if v = L "error" then some .error
  else if v = L "clear" then some .clear
  else none

def parseKind (v : WString) : Kind :=
  if v = L "permission" then .permission
  else if v = L "question" then .question
  else if v = L "auth" then .auth
  else .none

/-- The digit loop of `ParseProgress`. -/
def parseProgressLoop : ℕ → WString → Option ℕ
  | value, [] => some value
  | value, ch :: rest =>
      if !inRange '0' '9' ch then none
      else parseProgressLoop (value * 10 + (ch.val - '0'.toNat)) rest

/-- An integer 0..100 of one to three digits; anything else is absent.
Source: `ProgramStatus.hpp` `ParseProgress` -/
def parseProgress (v : WString) : Option UInt8 :=
  if v.isEmpty || v.length > 3 then none
  else
    match parseProgressLoop 0 v with
    | none => none
    | some value => if value > 100 then none else some value.toUInt8

/-! ### The parser -/

/-- The locals of the pair loop: the last value of each known key, and the skip count. -/
structure Fields where
  state : Option WString := none
  id : Option WString := none
  app : Option WString := none
  kind : Option WString := none
  progress : Option WString := none
  title : Option WString := none
  msg : Option WString := none
  skipped : ℕ := 0
  deriving DecidableEq, Repr

def Fields.skip (f : Fields) : Fields := { f with skipped := f.skipped + 1 }

/-- Remember the value of a well-formed pair; unknown keys are ignored.
Source: `ProgramStatus.hpp` `Parse`, the key chain -/
def Fields.assign (f : Fields) (key value : WString) : Except String Fields :=
  if key = L "state" then .ok { f with state := some value }
  else if key = L "id" then
    if !isValidId value then .error "invalid-id" else .ok { f with id := some value }
  else if key = L "app" then .ok { f with app := some value }
  else if key = L "kind" then .ok { f with kind := some value }
  else if key = L "progress" then .ok { f with progress := some value }
  else if key = L "title" then .ok { f with title := some value }
  else if key = L "msg" then .ok { f with msg := some value }
  else .ok f

/-- One turn of the pair loop. Source: `ProgramStatus.hpp` `Parse`, the while body -/
def parsePair (f : Fields) (pair : WString) : Except String Fields :=
  match cutAt (wide '=') pair with
  | none => if trim pair = L "id" then .error "bare-id" else .ok f.skip
  | some (k, v) =>
      let key := trim k
      let value := trim v
      if !isKey key then .ok f.skip
      else if key.length > maxKeyBytes then .error "key-too-long"
      else if !value.all isValueChar then
        -- a bad id is never skipped: that would address the root
        if key = L "id" then .error "invalid-id" else .ok f.skip
      else f.assign key value

/-- The pair loop over the `:`-separated segments. -/
def parsePairs : Fields → List WString → Except String Fields
  | f, [] => .ok f
  | f, pair :: rest =>
      match parsePair f pair with
      | .error why => .error why
      | .ok f => parsePairs f rest

/-- `app` is kept when it is nonempty and of name characters, absent otherwise. -/
def appField (app : WString) : WString :=
  if !app.isEmpty && app.all isNameChar then app else []

/-- An optional text field, absent when the key is. -/
def textField (encoded : Option WString) (maxEncoded maxDecoded : ℕ) : Except String WString :=
  match encoded with
  | none => .ok []
  | some e => decodeTextField e maxEncoded maxDecoded

/-- The checks after the pair loop, in the source's order.
Source: `ProgramStatus.hpp` `Parse`, from `if (!state)` on -/
def finishReport (f : Fields) : ParseResult :=
  match f.state with
  | none => .discarded "missing-state"
  | some s =>
      match parseState s with
      | none => .discarded "unknown-state"
      | some state =>
          if (f.app.getD []).length > maxAppBytes then .discarded "app-too-long"
          else
            match textField f.title maxTitleEncodedBytes maxTitleDecodedBytes with
            | .error why => .discarded why
            | .ok title =>
                match textField f.msg maxMsgEncodedBytes maxMsgDecodedBytes with
                | .error why => .discarded why
                | .ok msg =>
                    .report
                      { id := f.id.getD []
                        state := state
                        app := appField (f.app.getD [])
                        kind := if state = .blocked then parseKind (f.kind.getD []) else .none
                        progress :=
                          if state = .working ∨ state = .blocked then
                            f.progress.bind parseProgress
                          else none
                        title := title
                        msg := msg }
                      f.skipped

/-- Parse the OSC 7501 payload. Source: `ProgramStatus.hpp` `Parse` -/
def parse (payload : WString) : ParseResult :=
  if payload.length > maxPayloadChars then .discarded "sequence-too-long"
  else if trim payload = L "?" then .query
  else
    match parsePairs {} (payload.splitOn (wide ':')) with
    | .error why => .discarded why
    | .ok f => finishReport f

/-- Live states are dropped on process exit and on a new prompt. Source: `IsLive` -/
def isLive (state : State) : Bool := state = .working || state = .blocked

end Axan.ProgramStatus
