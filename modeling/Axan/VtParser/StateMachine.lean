import Axan.Base.Text

/-!
# The VT parser: `stateMachine.cpp`

The parser of a terminal's output, with every state and every transition of `StateMachine` as the
output engine uses it (`_isEngineForInput` is false, and the engine's actions always succeed, so
that nothing is passed through and no partial sequence has to be kept for it).

* `Engine` — the terminal behind the parser, as what its actions do to a state of its own. The two
  parser modes belong to it, because only the engine switches them, and so does what is called when
  a CSI sequence is complete (a macro that runs the parser again).
* `StateMachine` — the state and what is collected in it.
* `actionParam`, `eventCsiParam`, … — the actions and the events of the source.
* `processCharacter`, `processString` — one character, and a string with its runs of plain
  characters printed in one go.

Tracing, the injections and the flag of the last character are left out.
-/

namespace Axan.VtParser

open Axan.Base

/-- Source: `StateMachine::VTStates` -/
inductive VTStates where
  | ground
  | escape
  | escapeIntermediate
  | csiEntry
  | csiIntermediate
  | csiIgnore
  | csiParam
  | csiSubParam
  | oscParam
  | oscString
  | oscTermination
  | ss3Entry
  | ss3Param
  | vt52Param
  | dcsEntry
  | dcsIgnore
  | dcsIntermediate
  | dcsParam
  | dcsPassThrough
  | sosPmApcString
  deriving DecidableEq, Repr

/-! ### Characters -/

def asciiBEL : WChar := 0x07
def asciiCAN : WChar := 0x18
def asciiSUB : WChar := 0x1A
def asciiESC : WChar := 0x1B
def asciiDEL : WChar := 0x7F

def isNumericParamValue (wch : WChar) : Bool := inRange '0' '9' wch

def isC0Code (wch : WChar) : Bool :=
  wch ≤ 0x17 || wch = 0x19 || (0x1C ≤ wch && wch ≤ 0x1F)

def isC1ControlCharacter (wch : WChar) : Bool := 0x80 ≤ wch && wch ≤ 0x9F

/-- The letter behind ESC that is the same control. Source: `_c1To7Bit` -/
def c1To7Bit (wch : WChar) : WChar := wch - 0x40

def isIntermediate (wch : WChar) : Bool := 0x20 ≤ wch && wch ≤ 0x2F

def isDelete (wch : WChar) : Bool := wch = asciiDEL

def isEscape (wch : WChar) : Bool := wch = asciiESC

def isParameterDelimiter (wch : WChar) : Bool := wch = wide ';'

def isSubParameterDelimiter (wch : WChar) : Bool := wch = wide ':'

def isCsiPrivateMarker (wch : WChar) : Bool :=
  wch = wide '<' || wch = wide '=' || wch = wide '>' || wch = wide '?'

def isIntermediateInvalid (wch : WChar) : Bool :=
  isNumericParamValue wch || isSubParameterDelimiter wch || isParameterDelimiter wch ||
    isCsiPrivateMarker wch

def isParameterInvalid (wch : WChar) : Bool := isCsiPrivateMarker wch

def isOscInvalid (wch : WChar) : Bool :=
  wch ≤ 0x17 || wch = 0x19 || (0x1C ≤ wch && wch ≤ 0x1F)

def isOscTerminator (wch : WChar) : Bool := wch = asciiBEL

def isDcsPassThroughValid (wch : WChar) : Bool := 0x20 ≤ wch && wch < asciiDEL

/-- What ends a run of plain characters. Source: `isActionableFromGround` -/
def isActionableFromGround (wch : WChar) : Bool := wch ≤ 0x1F || (0x7F ≤ wch && wch ≤ 0x9F)

/-! ### Identifiers and parameters -/

/-- The number that identifies a sequence is collected byte by byte. Source: `VTIDBuilder` -/
structure VTIDBuilder where
  idAccumulator : ℕ := 0
  idShift : ℕ := 0
  deriving DecidableEq, Repr

/-- An intermediate that has no room clears the number. -/
def VTIDBuilder.addIntermediate (b : VTIDBuilder) (intermediateChar : WChar) : VTIDBuilder :=
  if b.idShift + 16 ≥ 64 then { b with idAccumulator := 0 }
  else
    { idAccumulator := b.idAccumulator + intermediateChar.val * 2 ^ b.idShift
      idShift := b.idShift + 8 }

/-- Source: `VTIDBuilder::Finalize` -/
def VTIDBuilder.finalize (b : VTIDBuilder) (finalChar : WChar) : ℕ :=
  b.idAccumulator + finalChar.val * 2 ^ b.idShift

/-- A parameter may be omitted. Source: `VTParameter` -/
abbrev VTParameter := Option ℕ

def maxParameterValue : ℕ := 65535
def maxParameterCount : ℕ := 32
def maxSubParameterCount : ℕ := 6

/-- Source: `StateMachine::_AccumulateTo` -/
def accumulateTo (wch : WChar) (value : ℕ) : ℕ :=
  min (value * 10 + (wch.val - '0'.toNat)) maxParameterValue

/-- What the parser has collected. Source: `StateMachine` -/
structure StateMachine where
  state : VTStates := .ground
  identifier : VTIDBuilder := {}
  parameters : List VTParameter := []
  parameterLimitOverflowed : Bool := false
  subParameters : List VTParameter := []
  /-- Where the subparameters of each parameter begin and end. -/
  subParameterRanges : List (ℕ × ℕ) := []
  subParameterCounter : ℕ := 0
  subParameterLimitOverflowed : Bool := false
  oscString : WString := []
  oscParameter : ℕ := 0
  /-- Is `_dcsStringHandler` set? -/
  dcsStringHandler : Bool := false
  deriving DecidableEq, Repr

/-- What the parser asks of the engine. -/
inductive Action where
  | execute (wch : WChar)
  | print (wch : WChar)
  | printString (string : WString)
  | escDispatch (id : ℕ)
  | vt52EscDispatch (id : ℕ) (parameters : List VTParameter)
  | csiDispatch (id : ℕ) (parameters subParameters : List VTParameter)
      (subParameterRanges : List (ℕ × ℕ))
  | oscDispatch (parameter : ℕ) (string : WString)
  | ss3Dispatch (wch : WChar) (parameters : List VTParameter)
  deriving DecidableEq, Repr

/-- The terminal behind the parser. -/
structure Engine (σ : Type) where
  act : Action → σ → σ
  /-- `ActionDcsDispatch`: is there a handler for the data that follows? -/
  dcsDispatch : ℕ → List VTParameter → σ → σ × Bool
  /-- The handler; does it want more? -/
  dcsString : WChar → σ → σ × Bool
  /-- `_ExecuteCsiCompleteCallback` -/
  csiComplete : StateMachine × σ → StateMachine × σ
  /-- `Mode::AcceptC1` -/
  acceptC1 : σ → Bool
  /-- `Mode::Ansi` -/
  ansi : σ → Bool

namespace StateMachine

/-! ### Actions on the parser -/

/-- Source: `StateMachine::_ActionClear` -/
def actionClear (m : StateMachine) : StateMachine := { state := m.state }

/-- Source: `StateMachine::_ActionCollect` -/
def actionCollect (m : StateMachine) (wch : WChar) : StateMachine :=
  { m with identifier := m.identifier.addIntermediate wch }

/-- A parameter begins, with no subparameters yet. -/
def pushParameter (m : StateMachine) : StateMachine :=
  { m with
    parameters := m.parameters ++ [none]
    subParameterRanges :=
      m.subParameterRanges ++ [(m.subParameters.length, m.subParameters.length)] }

/-- The first parameter comes by itself. -/
def ensureParameter (m : StateMachine) : StateMachine :=
  if m.parameters.isEmpty then m.pushParameter else m

/-- The last element of a vector, changed. -/
def modifyBack {α : Type} (f : α → α) (l : List α) : List α := l.modify (l.length - 1) f

/-- Source: `StateMachine::_ActionParam` -/
def actionParam (m : StateMachine) (wch : WChar) : StateMachine :=
  if m.parameterLimitOverflowed then m
  else
    let m := m.ensureParameter
    if isParameterDelimiter wch then
      if m.parameters.length ≥ maxParameterCount then { m with parameterLimitOverflowed := true }
      else
        { m.pushParameter with subParameterCounter := 0, subParameterLimitOverflowed := false }
    else
      { m with parameters := modifyBack (fun p => some (accumulateTo wch (p.getD 0))) m.parameters }

/-- Source: `StateMachine::_ActionSubParam` -/
def actionSubParam (m : StateMachine) (wch : WChar) : StateMachine :=
  if m.subParameterLimitOverflowed then m
  else
    let m := m.ensureParameter
    if isSubParameterDelimiter wch then
      if m.subParameterCounter ≥ maxSubParameterCount then
        { m with subParameterLimitOverflowed := true }
      else
        { m with
          subParameters := m.subParameters ++ [none]
          subParameterRanges := modifyBack (fun r => (r.1, r.2 + 1)) m.subParameterRanges
          subParameterCounter := m.subParameterCounter + 1 }
    else
      { m with
        subParameters := modifyBack (fun p => some (accumulateTo wch (p.getD 0))) m.subParameters }

/-- Source: `StateMachine::_ActionOscParam` -/
def actionOscParam (m : StateMachine) (wch : WChar) : StateMachine :=
  { m with oscParameter := accumulateTo wch m.oscParameter }

/-- Source: `StateMachine::_ActionOscPut` -/
def actionOscPut (m : StateMachine) (wch : WChar) : StateMachine :=
  { m with oscString := m.oscString ++ [wch] }

/-- The states that are entered without more. Source: `_EnterGround`, `_EnterCsiParam`, … -/
def enter (m : StateMachine) (state : VTStates) : StateMachine := { m with state := state }

/-- The states that are entered with nothing collected. Source: `_EnterEscape`, `_EnterCsiEntry`,
`_EnterSs3Entry`, `_EnterDcsEntry` -/
def enterClear (m : StateMachine) (state : VTStates) : StateMachine := (m.enter state).actionClear

end StateMachine

open StateMachine

/-! ### Events -/

/-- The parser and the engine's state. -/
abbrev Run (σ : Type) := StateMachine × σ

section Events

variable {σ : Type} (e : Engine σ)

/-- An action of the engine that leaves the parser alone. -/
def Engine.send (a : Action) (r : Run σ) : Run σ := (r.1, e.act a r.2)

/-- Source: `StateMachine::_ActionEscDispatch` with `_EnterGround` -/
def escDispatch (wch : WChar) (r : Run σ) : Run σ :=
  let r := e.send (.escDispatch (r.1.identifier.finalize wch)) r
  (r.1.enter .ground, r.2)

/-- Source: `StateMachine::_ActionVt52EscDispatch` with `_EnterGround` -/
def vt52EscDispatch (wch : WChar) (r : Run σ) : Run σ :=
  let r := e.send (.vt52EscDispatch (r.1.identifier.finalize wch) r.1.parameters) r
  (r.1.enter .ground, r.2)

/-- Source: `StateMachine::_ActionCsiDispatch` with `_EnterGround` and
`_ExecuteCsiCompleteCallback` -/
def csiDispatch (wch : WChar) (r : Run σ) : Run σ :=
  let r := e.send (.csiDispatch (r.1.identifier.finalize wch) r.1.parameters r.1.subParameters
    r.1.subParameterRanges) r
  e.csiComplete (r.1.enter .ground, r.2)

/-- Source: `StateMachine::_ActionOscDispatch` with `_EnterGround` -/
def oscDispatch (r : Run σ) : Run σ :=
  let r := e.send (.oscDispatch r.1.oscParameter r.1.oscString) r
  (r.1.enter .ground, r.2)

/-- Source: `StateMachine::_ActionSs3Dispatch` with `_EnterGround` -/
def ss3Dispatch (wch : WChar) (r : Run σ) : Run σ :=
  let r := e.send (.ss3Dispatch wch r.1.parameters) r
  (r.1.enter .ground, r.2)

/-- Source: `StateMachine::_ActionDcsDispatch` -/
def dcsDispatch (wch : WChar) (r : Run σ) : Run σ :=
  let (x, handler) := e.dcsDispatch (r.1.identifier.finalize wch) r.1.parameters r.2
  let m := { r.1 with dcsStringHandler := handler }
  (m.enter (if handler then .dcsPassThrough else .dcsIgnore), x)

/-- Source: `StateMachine::_ActionInterrupt` -/
def actionInterrupt (r : Run σ) : Run σ :=
  if r.1.state = .dcsPassThrough then
    ({ r.1 with dcsStringHandler := false }, (e.dcsString asciiESC r.2).1)
  else r

/-- Source: `StateMachine::_EventGround` -/
def eventGround (wch : WChar) (r : Run σ) : Run σ :=
  if isC0Code wch || isDelete wch then e.send (.execute wch) r else e.send (.print wch) r

/-- Source: `StateMachine::_EventEscape` -/
def eventEscape (wch : WChar) (r : Run σ) : Run σ :=
  if isC0Code wch then e.send (.execute wch) r
  else if isDelete wch then r
  else if isIntermediate wch then ((r.1.actionCollect wch).enter .escapeIntermediate, r.2)
  else if e.ansi r.2 then
    if wch = wide '[' then (r.1.enterClear .csiEntry, r.2)
    else if wch = wide ']' then (r.1.enter .oscParam, r.2)
    else if wch = wide 'P' then (r.1.enterClear .dcsEntry, r.2)
    else if wch = wide 'X' || wch = wide '^' || wch = wide '_' then
      (r.1.enter .sosPmApcString, r.2)
    else escDispatch e wch r
  else if wch = wide 'Y' then (r.1.enter .vt52Param, r.2)
  else vt52EscDispatch e wch r

/-- Source: `StateMachine::_EventEscapeIntermediate` -/
def eventEscapeIntermediate (wch : WChar) (r : Run σ) : Run σ :=
  if isC0Code wch then e.send (.execute wch) r
  else if isIntermediate wch then (r.1.actionCollect wch, r.2)
  else if isDelete wch then r
  else if e.ansi r.2 then escDispatch e wch r
  else if wch = wide 'Y' then (r.1.enter .vt52Param, r.2)
  else vt52EscDispatch e wch r

/-- Source: `StateMachine::_EventCsiEntry` -/
def eventCsiEntry (wch : WChar) (r : Run σ) : Run σ :=
  if isC0Code wch then e.send (.execute wch) r
  else if isDelete wch then r
  else if isIntermediate wch then ((r.1.actionCollect wch).enter .csiIntermediate, r.2)
  else if isNumericParamValue wch || isParameterDelimiter wch then
    ((r.1.actionParam wch).enter .csiParam, r.2)
  else if isSubParameterDelimiter wch then ((r.1.actionSubParam wch).enter .csiSubParam, r.2)
  else if isCsiPrivateMarker wch then ((r.1.actionCollect wch).enter .csiParam, r.2)
  else csiDispatch e wch r

/-- Source: `StateMachine::_EventCsiIntermediate` -/
def eventCsiIntermediate (wch : WChar) (r : Run σ) : Run σ :=
  if isC0Code wch then e.send (.execute wch) r
  else if isIntermediate wch then (r.1.actionCollect wch, r.2)
  else if isDelete wch then r
  else if isIntermediateInvalid wch then (r.1.enter .csiIgnore, r.2)
  else csiDispatch e wch r

/-- Source: `StateMachine::_EventCsiIgnore` -/
def eventCsiIgnore (wch : WChar) (r : Run σ) : Run σ :=
  if isC0Code wch then e.send (.execute wch) r
  else if isDelete wch then r
  else if isIntermediate wch then r
  else if isIntermediateInvalid wch then r
  else (r.1.enter .ground, r.2)

/-- Source: `StateMachine::_EventCsiParam` -/
def eventCsiParam (wch : WChar) (r : Run σ) : Run σ :=
  if isC0Code wch then e.send (.execute wch) r
  else if isDelete wch then r
  else if isNumericParamValue wch || isParameterDelimiter wch then (r.1.actionParam wch, r.2)
  else if isSubParameterDelimiter wch then ((r.1.actionSubParam wch).enter .csiSubParam, r.2)
  else if isIntermediate wch then ((r.1.actionCollect wch).enter .csiIntermediate, r.2)
  else if isParameterInvalid wch then (r.1.enter .csiIgnore, r.2)
  else csiDispatch e wch r

/-- Source: `StateMachine::_EventCsiSubParam` -/
def eventCsiSubParam (wch : WChar) (r : Run σ) : Run σ :=
  if isC0Code wch then e.send (.execute wch) r
  else if isDelete wch then r
  else if isNumericParamValue wch || isSubParameterDelimiter wch then (r.1.actionSubParam wch, r.2)
  else if isParameterDelimiter wch then ((r.1.actionParam wch).enter .csiParam, r.2)
  else if isIntermediate wch then ((r.1.actionCollect wch).enter .csiIntermediate, r.2)
  else if isParameterInvalid wch then (r.1.enter .csiIgnore, r.2)
  else csiDispatch e wch r

/-- Source: `StateMachine::_EventOscParam` -/
def eventOscParam (wch : WChar) (r : Run σ) : Run σ :=
  if isOscTerminator wch then oscDispatch e r
  else if isEscape wch then (r.1.enter .oscTermination, r.2)
  else if isNumericParamValue wch then (r.1.actionOscParam wch, r.2)
  else if wch = wide ';' then (r.1.enter .oscString, r.2)
  else r

/-- Source: `StateMachine::_EventOscString` -/
def eventOscString (wch : WChar) (r : Run σ) : Run σ :=
  if isOscTerminator wch then oscDispatch e r
  else if isEscape wch then (r.1.enter .oscTermination, r.2)
  else if isOscInvalid wch then r
  else (r.1.actionOscPut wch, r.2)

/-- Source: `StateMachine::_EventOscTermination` -/
def eventOscTermination (wch : WChar) (r : Run σ) : Run σ :=
  if wch = wide '\\' then oscDispatch e r
  else eventEscape e wch (r.1.enterClear .escape, r.2)

/-- Source: `StateMachine::_EventSs3Entry` -/
def eventSs3Entry (wch : WChar) (r : Run σ) : Run σ :=
  if isC0Code wch then e.send (.execute wch) r
  else if isDelete wch then r
  else if isSubParameterDelimiter wch then (r.1.enter .csiIgnore, r.2)
  else if isNumericParamValue wch || isParameterDelimiter wch then
    ((r.1.actionParam wch).enter .ss3Param, r.2)
  else ss3Dispatch e wch r

/-- Source: `StateMachine::_EventSs3Param` -/
def eventSs3Param (wch : WChar) (r : Run σ) : Run σ :=
  if isC0Code wch then e.send (.execute wch) r
  else if isDelete wch then r
  else if isNumericParamValue wch || isParameterDelimiter wch then (r.1.actionParam wch, r.2)
  else if isParameterInvalid wch || isSubParameterDelimiter wch then (r.1.enter .csiIgnore, r.2)
  else ss3Dispatch e wch r

/-- Source: `StateMachine::_EventVt52Param` -/
def eventVt52Param (wch : WChar) (r : Run σ) : Run σ :=
  if isC0Code wch then e.send (.execute wch) r
  else if isDelete wch then r
  else
    let m := { r.1 with parameters := r.1.parameters ++ [some wch.val] }
    if m.parameters.length = 2 then vt52EscDispatch e (wide 'Y') (m, r.2) else (m, r.2)

/-- Source: `StateMachine::_EventDcsEntry` -/
def eventDcsEntry (wch : WChar) (r : Run σ) : Run σ :=
  if isC0Code wch then r
  else if isDelete wch then r
  else if isSubParameterDelimiter wch then (r.1.enter .dcsIgnore, r.2)
  else if isNumericParamValue wch || isParameterDelimiter wch then
    ((r.1.actionParam wch).enter .dcsParam, r.2)
  else if isIntermediate wch then ((r.1.actionCollect wch).enter .dcsIntermediate, r.2)
  else dcsDispatch e wch r

/-- Source: `StateMachine::_EventDcsIntermediate` -/
def eventDcsIntermediate (wch : WChar) (r : Run σ) : Run σ :=
  if isC0Code wch then r
  else if isDelete wch then r
  else if isIntermediate wch then (r.1.actionCollect wch, r.2)
  else if isIntermediateInvalid wch then (r.1.enter .dcsIgnore, r.2)
  else dcsDispatch e wch r

/-- The chain is cut behind the first two tests: a control character or DEL goes on to the third
and, being no parameter, ends the sequence. Source: `StateMachine::_EventDcsParam` -/
def eventDcsParam (wch : WChar) (r : Run σ) : Run σ :=
  if isNumericParamValue wch || isParameterDelimiter wch then (r.1.actionParam wch, r.2)
  else if isIntermediate wch then ((r.1.actionCollect wch).enter .dcsIntermediate, r.2)
  else if isParameterInvalid wch || isSubParameterDelimiter wch then (r.1.enter .dcsIgnore, r.2)
  else dcsDispatch e wch r

/-- Source: `StateMachine::_EventDcsPassThrough` -/
def eventDcsPassThrough (wch : WChar) (r : Run σ) : Run σ :=
  if isC0Code wch || isDcsPassThroughValid wch then
    let (x, more) := e.dcsString wch r.2
    (if more then r.1 else r.1.enter .dcsIgnore, x)
  else r

/-! ### Characters and strings -/

/-- The switch of `ProcessCharacter`. -/
def event (wch : WChar) (r : Run σ) : Run σ :=
  match r.1.state with
  | .ground => eventGround e wch r
  | .escape => eventEscape e wch r
  | .escapeIntermediate => eventEscapeIntermediate e wch r
  | .csiEntry => eventCsiEntry e wch r
  | .csiIntermediate => eventCsiIntermediate e wch r
  | .csiIgnore => eventCsiIgnore e wch r
  | .csiParam => eventCsiParam e wch r
  | .csiSubParam => eventCsiSubParam e wch r
  | .oscParam => eventOscParam e wch r
  | .oscString => eventOscString e wch r
  | .oscTermination => eventOscTermination e wch r
  | .ss3Entry => eventSs3Entry e wch r
  | .ss3Param => eventSs3Param e wch r
  | .vt52Param => eventVt52Param e wch r
  | .dcsEntry => eventDcsEntry e wch r
  | .dcsIgnore => r
  | .dcsIntermediate => eventDcsIntermediate e wch r
  | .dcsParam => eventDcsParam e wch r
  | .dcsPassThrough => eventDcsPassThrough e wch r
  | .sosPmApcString => r

/-- The last two branches of `ProcessCharacter`: ESC from almost anywhere, or an event. -/
def processPlain (wch : WChar) (r : Run σ) : Run σ :=
  if isEscape wch && r.1.state ≠ .oscString && r.1.state ≠ .oscParam then
    let r := actionInterrupt e r
    (r.1.enterClear .escape, r.2)
  else event e wch r

/-- A C1 control stands for ESC and a letter, neither of which is one. Source:
`StateMachine::ProcessCharacter` -/
def processCharacter (wch : WChar) (r : Run σ) : Run σ :=
  if wch = asciiCAN || wch = asciiSUB then
    let r := e.send (.execute wch) (actionInterrupt e r)
    (r.1.enter .ground, r.2)
  else if isC1ControlCharacter wch then
    if e.acceptC1 r.2 then processPlain e (c1To7Bit wch) (processPlain e asciiESC r) else r
  else processPlain e wch r

/-- From `processStringLoopVtStart` on: characters one at a time until the ground state. -/
def vtLoop : WString → Run σ → WString × Run σ
  | [], r => ([], r)
  | wch :: rest, r =>
      let r := processCharacter e wch r
      if r.1.state = .ground then (rest, r) else vtLoop rest r

/-- The loop leaves no more than it was given. -/
theorem length_vtLoop_le (s : WString) (r : Run σ) : (vtLoop e s r).1.length ≤ s.length := by
  induction s generalizing r with
  | nil => exact le_rfl
  | cons wch rest ih =>
      rw [vtLoop]
      split_ifs
      · exact Nat.le_succ _
      · exact (ih _).trans (Nat.le_succ _)

/-- At a character something is left out. -/
theorem length_vtLoop_lt {s : WString} (hs : s ≠ []) (r : Run σ) :
    (vtLoop e s r).1.length < s.length := by
  obtain ⟨wch, rest, rfl⟩ := List.exists_cons_of_ne_nil hs
  rw [vtLoop]
  split_ifs
  · exact Nat.lt_succ_self _
  · exact Nat.lt_succ_of_le (length_vtLoop_le e rest _)

/-- A run of plain characters and what the loop takes behind it are at least one character. -/
theorem length_vtLoop_dropWhile_lt (c : WChar) (s : WString) (r : Run σ) :
    (vtLoop e ((c :: s).dropWhile fun c => !isActionableFromGround c) r).1.length <
      (c :: s).length := by
  cases hdrop : (c :: s).dropWhile (fun c => !isActionableFromGround c) with
  | nil => exact Nat.succ_pos _
  | cons d rest =>
      have hle := (List.dropWhile_suffix (l := c :: s) fun c => !isActionableFromGround c).length_le
      rw [hdrop] at hle
      exact (length_vtLoop_lt e (List.cons_ne_nil _ _) _).trans_le hle

/-- The outer loop: a run of plain characters in one go, then what follows it. -/
def groundLoop : WString → Run σ → Run σ
  | [], r => r
  | wch :: rest, r =>
      let run := (wch :: rest).takeWhile fun c => !isActionableFromGround c
      let r := if run = [] then r else e.send (.printString run) r
      let next := vtLoop e ((wch :: rest).dropWhile fun c => !isActionableFromGround c) r
      groundLoop next.1 next.2
termination_by s => s.length
decreasing_by exact length_vtLoop_dropWhile_lt e wch rest _

/-- Source: `StateMachine::ProcessString` -/
def processString (s : WString) (r : Run σ) : Run σ :=
  if r.1.state ≠ .ground then
    let next := vtLoop e s r
    groundLoop e next.1 next.2
  else groundLoop e s r

end Events

end Axan.VtParser
