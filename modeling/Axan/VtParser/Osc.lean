import Axan.VtParser.Chunks

/-!
# Operating system commands

A complete OSC sequence is one request to the engine, from whatever state the parser is in when it
begins: a string that was begun is given up, and the data of a DCS sequence ends.

* `number` — the number that digits stand for.
* `processAll_osc` — the sequence, one character after the other.
* `osc_of_pieces` — **the sequence, in any pieces**.
-/

namespace Axan.VtParser

open Axan.Base StateMachine

/-- The number that digits stand for. -/
def number (digits : WString) : ℕ :=
  digits.foldl (fun n wch => n * 10 + (wch.val - '0'.toNat)) 0

/-- A character of the string of an OSC sequence: it does not end or cancel the sequence, and it is
no C1 control. Some of them are dropped. -/
def isOscChar (wch : WChar) : Bool :=
  wch ≠ asciiBEL && wch ≠ asciiESC && wch ≠ asciiCAN && wch ≠ asciiSUB &&
    !isC1ControlCharacter wch

/-- What is kept of the string. -/
def oscText (payload : WString) : WString := payload.filter fun wch => !isOscInvalid wch

/-- BEL or ST. -/
inductive Terminator : WString → Prop where
  | bel : Terminator [asciiBEL]
  | st : Terminator [asciiESC, wide '\\']

variable {σ : Type} (e : Engine σ)

/-- A saturated sum saturates once. -/
theorem min_accumulateTo (wch : WChar) (n : ℕ) :
    accumulateTo wch (min n maxParameterValue) =
      min (n * 10 + (wch.val - '0'.toNat)) maxParameterValue := by
  unfold accumulateTo maxParameterValue
  omega

/-- A character that is no control of its own, outside the ground state, is an event. -/
theorem processOne_event {wch : WChar} {r : Run σ} (hstate : r.1.state ≠ .ground)
    (hcan : wch ≠ asciiCAN) (hsub : wch ≠ asciiSUB) (hc1 : isC1ControlCharacter wch = false)
    (hescape : wch ≠ asciiESC) : processOne e wch r = event e wch r := by
  unfold processOne processCharacter processPlain
  rw [if_neg fun h => hstate h.1, if_neg (by simp [hcan, hsub]), hc1, if_neg Bool.false_ne_true,
    if_neg (by simp [isEscape, hescape])]

/-- ESC ends whatever was going on, and the bracket begins the parameter. -/
theorem processAll_begin (r : Run σ) (hansi : e.ansi (actionInterrupt e r).2 = true) :
    processAll e [asciiESC, wide ']'] r = ({ state := .oscParam }, (actionInterrupt e r).2) := by
  have hbracket (m : StateMachine) (x : σ) (hx : e.ansi x = true) (hm : m = { state := .escape }) :
      eventEscape e (wide ']') (m, x) = ({ state := .oscParam }, x) := by
    subst hm
    unfold eventEscape
    rw [hx]
    rfl
  have hplain : processOne e asciiESC r = processPlain e asciiESC r :=
    if_neg fun h => Bool.true_eq_false.mp h.2
  unfold processAll
  rw [List.foldl_cons, hplain, List.foldl_cons, List.foldl_nil]
  unfold processPlain
  by_cases hstring : r.1.state = .oscString ∨ r.1.state = .oscParam
  · -- the string that was begun is given up when the next character is no backslash
    have hinterrupt : actionInterrupt e r = r := by
      refine if_neg ?_
      rcases hstring with hstate | hstate <;> rw [hstate] <;> decide
    have hevent : event e asciiESC r = (r.1.enter .oscTermination, r.2) := by
      unfold event
      rcases hstring with hstate | hstate <;> rw [hstate] <;> rfl
    rw [if_neg (by rcases hstring with hstate | hstate <;> simp [hstate]), hevent,
      processOne_event e (by exact (by decide : VTStates.oscTermination ≠ .ground)) (by decide)
        (by decide) rfl (by decide)]
    rw [hinterrupt] at hansi ⊢
    exact hbracket _ r.2 hansi rfl
  · rw [not_or] at hstring
    rw [if_pos (by simp [hstring.1, hstring.2, isEscape]),
      processOne_event e (by exact (by decide : VTStates.escape ≠ .ground)) (by decide)
        (by decide) rfl (by decide)]
    exact hbracket _ _ hansi rfl

/-- Digits are counted into the parameter. -/
theorem processAll_digits {digits : WString} (hdigits : ∀ d ∈ digits, isNumericParamValue d = true)
    (n : ℕ) (x : σ) :
    processAll e digits ({ state := .oscParam, oscParameter := min n maxParameterValue }, x) =
      ({ state := .oscParam
         oscParameter := min (digits.foldl (fun n wch => n * 10 + (wch.val - '0'.toNat)) n)
          maxParameterValue }, x) := by
  induction digits generalizing n with
  | nil => rfl
  | cons d digits ih =>
      have hd := hdigits d List.mem_cons_self
      have hne {c : WChar} (hc : isNumericParamValue c = false) : d ≠ c := by
        rintro rfl
        exact Bool.false_ne_true (hc.symm.trans hd)
      have hrange : 0x30 ≤ d.val ∧ d.val ≤ 0x39 := by
        simpa [isNumericParamValue, inRange] using hd
      have hc1 : isC1ControlCharacter d = false := by
        refine Bool.eq_false_of_not_eq_true fun hc1 => ?_
        have hlow : 0x80 ≤ d.val := Fin.le_def.mp (of_decide_eq_true (Bool.and_eq_true_iff.mp hc1).1)
        omega
      have hevent : event e d ({ state := .oscParam, oscParameter := min n maxParameterValue }, x) =
          ({ state := .oscParam
             oscParameter := min (n * 10 + (d.val - '0'.toNat)) maxParameterValue }, x) := by
        unfold event
        dsimp only
        unfold eventOscParam
        rw [if_neg (by simpa [isOscTerminator] using hne rfl),
          if_neg (by simpa [isEscape] using hne rfl), if_pos hd, actionOscParam, min_accumulateTo]
      unfold processAll at ih ⊢
      rw [List.foldl_cons, processOne_event e (by exact (by decide : VTStates.oscParam ≠ .ground))
        (hne rfl) (hne rfl) hc1 (hne rfl), hevent]
      exact ih (fun d hd => hdigits d (List.mem_cons_of_mem _ hd)) _

/-- Inside of an OSC string one event is possible. -/
theorem event_oscString {m : StateMachine} (hm : m.state = .oscString) (wch : WChar) (x : σ) :
    event e wch (m, x) = eventOscString e wch (m, x) := by
  unfold event
  dsimp only
  rw [hm]

/-- The characters of the string are kept or dropped. -/
theorem processAll_payload {payload : WString} (hpayload : ∀ c ∈ payload, isOscChar c = true)
    {m : StateMachine} (hm : m.state = .oscString) (x : σ) :
    processAll e payload (m, x) = ({ m with oscString := m.oscString ++ oscText payload }, x) := by
  induction payload generalizing m with
  | nil =>
      rw [oscText, List.filter_nil, List.append_nil]
      rfl
  | cons c payload ih =>
      obtain ⟨⟨⟨⟨hbel, hescape⟩, hcan⟩, hsub⟩, hc1⟩ :
          (((c ≠ asciiBEL ∧ c ≠ asciiESC) ∧ c ≠ asciiCAN) ∧ c ≠ asciiSUB) ∧
            isC1ControlCharacter c = false := by
        simpa [isOscChar] using hpayload c List.mem_cons_self
      have hevent : event e c (m, x) =
          ({ m with oscString := m.oscString ++ oscText [c] }, x) := by
        rw [event_oscString e hm]
        unfold eventOscString oscText
        rw [if_neg (by simpa [isOscTerminator] using hbel),
          if_neg (by simpa [isEscape] using hescape)]
        split_ifs with hinvalid
        · rw [List.filter_cons_of_neg (by simp [hinvalid]), List.filter_nil, List.append_nil]
        · rw [List.filter_cons_of_pos (by simp [hinvalid]), List.filter_nil]
          rfl
      have hsplit : oscText (c :: payload) = oscText [c] ++ oscText payload :=
        List.filter_append [c] payload
      unfold processAll at ih ⊢
      rw [List.foldl_cons, processOne_event e (by rw [hm]; decide) hcan hsub hc1 hescape, hevent,
        hsplit, ← List.append_assoc]
      exact ih (fun c hc => hpayload c (List.mem_cons_of_mem _ hc)) hm

/-- The terminator hands over what was collected. -/
theorem processAll_terminator {terminator : WString} (h : Terminator terminator) {m : StateMachine}
    (hm : m.state = .oscString) (x : σ) :
    processAll e terminator (m, x) =
      (m.enter .ground, e.act (.oscDispatch m.oscParameter m.oscString) x) := by
  cases h with
  | bel =>
      unfold processAll
      rw [List.foldl_cons, List.foldl_nil, processOne_event e (by rw [hm]; decide) (by decide)
        (by decide) rfl (by decide), event_oscString e hm]
      rfl
  | st =>
      have hescape : processOne e asciiESC (m, x) = (m.enter .oscTermination, x) := by
        unfold processOne processCharacter processPlain
        rw [if_neg fun h => Bool.true_eq_false.mp h.2, if_neg (by decide), if_neg (by decide),
          if_neg (by simp [hm]), event_oscString e hm]
        rfl
      unfold processAll
      rw [List.foldl_cons, List.foldl_cons, List.foldl_nil, hescape, processOne_event e
        (by exact (by decide : VTStates.oscTermination ≠ .ground)) (by decide) (by decide) rfl
        (by decide)]
      rfl

/-- An OSC sequence. -/
def osc (digits payload terminator : WString) : WString :=
  [asciiESC, wide ']'] ++ (digits ++ ([wide ';'] ++ (payload ++ terminator)))

/-- One sequence, one request. The engine has to be in the mode that knows such sequences, when it
has been told the end of the data it was taking. -/
theorem processAll_osc {digits payload terminator : WString}
    (hdigits : ∀ d ∈ digits, isNumericParamValue d = true)
    (hpayload : ∀ c ∈ payload, isOscChar c = true) (hterminator : Terminator terminator) (r : Run σ)
    (hansi : e.ansi (actionInterrupt e r).2 = true) :
    processAll e (osc digits payload terminator) r =
      ({ oscParameter := min (number digits) maxParameterValue, oscString := oscText payload },
        e.act (.oscDispatch (min (number digits) maxParameterValue) (oscText payload))
          (actionInterrupt e r).2) := by
  have hsemicolon (m : StateMachine) (x : σ) (hm : m.state = .oscParam) :
      processAll e [wide ';'] (m, x) = (m.enter .oscString, x) := by
    unfold processAll
    rw [List.foldl_cons, List.foldl_nil, processOne_event e (by rw [hm]; decide) (by decide)
      (by decide) rfl (by decide)]
    unfold event
    dsimp only
    rw [hm]
    rfl
  rw [osc, processAll_append, processAll_begin e r hansi, processAll_append]
  rw [show ({ state := .oscParam } : StateMachine) =
    { state := .oscParam, oscParameter := min 0 maxParameterValue } from rfl,
    processAll_digits e hdigits, processAll_append, hsemicolon _ _ rfl, processAll_append,
    processAll_payload e hpayload rfl, processAll_terminator e hterminator rfl]
  rfl

/-- **An OSC sequence in any pieces is one request, from any state of the parser.** -/
theorem osc_of_pieces {e : Engine σ} {R : σ → σ → Prop} (h : e.Indifferent R)
    {digits payload terminator : WString}
    (hdigits : ∀ d ∈ digits, isNumericParamValue d = true)
    (hpayload : ∀ c ∈ payload, isOscChar c = true) (hterminator : Terminator terminator)
    {pieces : List WString} (hpieces : pieces.flatten = osc digits payload terminator) (r : Run σ)
    (hansi : e.ansi (actionInterrupt e r).2 = true) :
    Same R (pieces.foldl (fun r s => processString e s r) r)
      ({ oscParameter := min (number digits) maxParameterValue, oscString := oscText payload },
        e.act (.oscDispatch (min (number digits) maxParameterValue) (oscText payload))
          (actionInterrupt e r).2) := by
  have hflatten := Same.trans h (processString_flatten h pieces r) (processString_same h _ r)
  rwa [hpieces, processAll_osc e hdigits hpayload hterminator r hansi] at hflatten

/-- A sequence behind one that was cut off, in pieces. -/
theorem osc_of_pieces_title :
    Same Eq
      ([[asciiESC], L "]", L "2;ax", L "an" ++ [asciiESC], L "\\"].foldl
        (fun r s => processString (traceEngine false) s r) ({ state := .csiParam }, []))
      ({ oscParameter := min (number (L "2")) maxParameterValue, oscString := oscText (L "axan") },
        (traceEngine false).act
          (.oscDispatch (min (number (L "2")) maxParameterValue) (oscText (L "axan"))) []) :=
  osc_of_pieces (traceEngine_indifferent false) (List.all_eq_true.mp (by decide))
    (List.all_eq_true.mp (by decide)) .st rfl _ rfl

end Axan.VtParser
