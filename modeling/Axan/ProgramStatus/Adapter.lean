import Axan.ProgramStatus.Store
import Axan.VtParser.Bounds

/-!
# From the output to the store

What a program prints goes through the parser to the adapter, and the adapter turns three kinds of
sequences into operations on the store: OSC 7501, the prompt marks of OSC 133, and the reset. The
rest of the terminal is a parameter, with the macros, which run the parser again.

* `Terminal`, `Rest` — the store, and the terminal around it.
* `doProgramStatusAction`, `doFinalTermAction` — the actions of the adapter.
* `terminalEngine` — the engine, with macros up to a depth.
* `output_runs` — **whatever is printed is a run of the store**, with payloads that hold no
  controls.
-/

namespace Axan.ProgramStatus

open Axan.Base VtParser

/-- A terminal: the store, and the rest. -/
structure Terminal (τ : Type) where
  store : Store
  rest : τ

/-- The rest of the terminal. -/
structure Rest (τ : Type) where
  /-- The other actions; its macros are not used. -/
  engine : Engine τ
  /-- `Mode::SendC1` -/
  sendC1 : τ → Bool
  returnResponse : WString → τ → τ
  /-- Takes the callback that a CSI sequence has left: the text of a macro, if there is room for
  it. -/
  takeMacro : τ → Option WString × τ
  /-- `InvokeMacro` counts the text and the depth, and counts the depth back. -/
  beginMacro : WString → τ → τ
  endMacro : τ → τ

/-- The answer to a query. -/
def queryReply : WString :=
  L "7501;?:states=idle,working,done,blocked,error:kinds=permission,question,auth"

/-- The number of the RIS sequence. Source: `EscActionCodes::RIS_ResetToInitialState` -/
def risResetToInitialState : ℕ := (wide 'c').val

/-- The numbers of two OSC sequences. Source: `OscActionCodes` -/
def finalTermAction : ℕ := 133
def programStatus : ℕ := 7501

/-- Source: `Terminal::ShellCommandMark` -/
def Store.shellCommandMark (s : Store) (mark : WChar) : Store :=
  { s with shellCommandRunning := mark = wide 'C' }

section

variable {τ : Type} (rest : Rest τ)

/-- Source: `AdaptDispatch::_ReturnOscResponse` -/
def returnOscResponse (response : WString) (t : τ) : τ :=
  rest.returnResponse
    ((if rest.sendC1 t then [0x9D] else [asciiESC, wide ']']) ++ response ++
      if rest.sendC1 t then [0x9C] else [asciiESC, wide '\\']) t

/-- Source: `AdaptDispatch::DoProgramStatusAction` -/
def doProgramStatusAction (string : WString) (t : Terminal τ) : Terminal τ :=
  match parse string with
  | .query =>
      if t.store.enabled then { t with rest := returnOscResponse rest queryReply t.rest } else t
  | result => { t with store := t.store.programStatusReport result }

/-- Is the mark alone, or followed by its options? -/
def isMark (string : WString) : Bool := string.length = 1 || string[1]? = some (wide ';')

/-- What the marks do to the store. The exit code is only logged. Source:
`AdaptDispatch::DoFinalTermAction` -/
def doFinalTermAction (string : WString) (s : Store) : Store :=
  match string with
  | [] => s
  | mark :: _ =>
      if isMark string then
        let s := if mark = wide 'A' then s.programStatusPromptStarted else s
        if mark = wide 'A' || mark = wide 'C' || mark = wide 'D' then s.shellCommandMark mark else s
      else s

/-- Source: `OutputStateMachineEngine::ActionOscDispatch`, `ActionEscDispatch` -/
def act (a : Action) (t : Terminal τ) : Terminal τ :=
  match a with
  | .oscDispatch parameter string =>
      if parameter = programStatus then doProgramStatusAction rest string t
      else
        { store := if parameter = finalTermAction then doFinalTermAction string t.store else t.store
          rest := rest.engine.act a t.rest }
  | .escDispatch id =>
      { store := if id = risResetToInitialState then t.store.programStatusReset else t.store
        rest := rest.engine.act a t.rest }
  | _ => { t with rest := rest.engine.act a t.rest }

/-- The engine, when it is known what a complete CSI sequence calls. -/
def engineWith (csiComplete : Run (Terminal τ) → Run (Terminal τ)) : Engine (Terminal τ) where
  act := act rest
  dcsDispatch := fun id ps t =>
    let (x, handler) := rest.engine.dcsDispatch id ps t.rest
    ({ t with rest := x }, handler)
  dcsString := fun wch t =>
    let (x, more) := rest.engine.dcsString wch t.rest
    ({ t with rest := x }, more)
  csiComplete := csiComplete
  acceptC1 := fun t => rest.engine.acceptC1 t.rest
  ansi := fun t => rest.engine.ansi t.rest

/-- How deep macros may call macros. -/
def maxMacroDepth : ℕ := 16

/-- The engine of a terminal whose macros may still go so deep. Source:
`MacroBuffer::InvokeMacro` -/
def engineAtDepth : ℕ → Engine (Terminal τ)
  | 0 => engineWith rest fun r => (r.1, { r.2 with rest := (rest.takeMacro r.2.rest).2 })
  | depth + 1 =>
      engineWith rest fun r =>
        match rest.takeMacro r.2.rest with
        | (none, x) => (r.1, { r.2 with rest := x })
        | (some text, x) =>
            let r := processString (engineAtDepth depth) text
              (r.1, { r.2 with rest := rest.beginMacro text x })
            (r.1, { r.2 with rest := rest.endMacro r.2.rest })

/-- The engine of a terminal. -/
def terminalEngine : Engine (Terminal τ) := engineAtDepth rest maxMacroDepth

end

/-! ### Runs of the store -/

/-- An operation that output can cause. -/
def FromOutput : Op → Prop
  | .report payload => OscText payload
  | .promptStarted => True
  | .reset => True
  | _ => False

/-- The store, but for the running command, is that of a run of such operations. -/
def Printed (s₀ s : Store) : Prop :=
  ∃ ops running, (∀ op ∈ ops, FromOutput op) ∧
    s = { run s₀ ops with shellCommandRunning := running }

/-- The running command has no part in the operations. -/
theorem step_running (s : Store) (running : Bool) (op : Op) :
    ∃ running', step { s with shellCommandRunning := running } op =
      { step s op with shellCommandRunning := running' } := by
  cases op with
  | report payload =>
      refine ⟨running, ?_⟩
      unfold step Store.programStatusReport
      split_ifs
      · rfl
      · dsimp only
        cases parse payload with
        | report report skipped => dsimp only; split_ifs <;> rfl
        | query => rfl
        | discarded why => rfl
  | promptStarted =>
      refine ⟨running, ?_⟩
      unfold step Store.programStatusPromptStarted Store.dropLive
      dsimp only
      split_ifs <;> rfl
  | dropLive reason =>
      refine ⟨running, ?_⟩
      unfold step Store.programStatusDropLive Store.dropLive
      dsimp only
      split_ifs <;> rfl
  | reset =>
      refine ⟨false, ?_⟩
      unfold step Store.programStatusReset Store.shellCommandEnded
      dsimp only
      split_ifs <;> rfl
  | setEnabled enabled =>
      refine ⟨running, ?_⟩
      unfold step Store.setProgramStatusEnabled
      dsimp only
      split_ifs <;> rfl

/-- One more operation is printed. -/
theorem Printed.step {s₀ s : Store} (h : Printed s₀ s) (op : Op) (hop : FromOutput op) :
    Printed s₀ (step s op) := by
  obtain ⟨ops, running, hops, rfl⟩ := h
  obtain ⟨running', hstep⟩ := step_running (run s₀ ops) running op
  refine ⟨ops ++ [op], running', ?_, by rw [hstep, run_append_singleton]⟩
  intro op' hop'
  rcases List.mem_append.mp hop' with hop' | hop'
  · exact hops op' hop'
  · rwa [List.mem_singleton.mp hop']

/-- The mark of the running command is not an operation. -/
theorem Printed.running {s₀ s : Store} (h : Printed s₀ s) (running : Bool) :
    Printed s₀ { s with shellCommandRunning := running } := by
  obtain ⟨ops, running', hops, rfl⟩ := h
  exact ⟨ops, running, hops, rfl⟩

/-- What is printed keeps the invariant. -/
theorem Printed.invariant {s₀ s : Store} (h : Printed s₀ s) (hs₀ : Invariant s₀) : Invariant s := by
  obtain ⟨ops, running, -, rfl⟩ := h
  exact { invariant_run hs₀ ops with }

/-- An OSC string is one operation at most. -/
theorem printed_doFinalTermAction {s₀ s : Store} (h : Printed s₀ s) (string : WString) :
    Printed s₀ (doFinalTermAction string s) := by
  unfold doFinalTermAction
  cases string with
  | nil => exact h
  | cons mark rest =>
      have hprompt : Printed s₀ (if mark = wide 'A' then s.programStatusPromptStarted else s) := by
        split_ifs
        · exact h.step .promptStarted trivial
        · exact h
      dsimp only
      generalize (if mark = wide 'A' then s.programStatusPromptStarted else s) = s' at hprompt ⊢
      split_ifs
      · exact hprompt.running _
      · exact hprompt
      · exact h

/-- A well-formed request is an operation on the store, or none. -/
theorem printed_act {τ : Type} (rest : Rest τ) {s₀ : Store} {a : Action} (ha : a.WellFormed)
    {t : Terminal τ} (h : Printed s₀ t.store) : Printed s₀ (act rest a t).store := by
  unfold act
  split
  next parameter string =>
    split_ifs with hstatus hmark
    · have hreport := h.step (.report string) ha.2
      unfold doProgramStatusAction
      split
      · split_ifs <;> exact h
      · exact hreport
    · exact printed_doFinalTermAction h string
    · exact h
  next id =>
    split_ifs
    · exact h.step .reset trivial
    · exact h
  · exact h

section

variable {τ : Type} (rest : Rest τ)

/-- Macros print to the store in the same way. -/
theorem engineAtDepth_keeps (s₀ : Store) (depth : ℕ) :
    (engineAtDepth rest depth).Keeps (fun t => Printed s₀ t.store) fun t => Printed s₀ t.store := by
  have hwith (csiComplete : Run (Terminal τ) → Run (Terminal τ))
      (hcomplete : ∀ r, Reached (fun t => Printed s₀ t.store) (fun t => Printed s₀ t.store) r →
        r.1.state = .ground →
          Reached (fun t => Printed s₀ t.store) (fun t => Printed s₀ t.store) (csiComplete r)) :
      (engineWith rest csiComplete).Keeps (fun t => Printed s₀ t.store)
        fun t => Printed s₀ t.store :=
    { act := fun ha h => printed_act rest ha h
      dcsDispatch := fun _ _ _ h => by split_ifs <;> exact h
      dcsString := fun _ h => by split_ifs <;> exact h
      dcsEnd := fun h => h
      csiComplete := fun hr hstate => hcomplete _ hr hstate }
  induction depth with
  | zero => exact hwith _ fun r hr _ => hr
  | succ depth ih =>
      refine hwith _ fun r hr _ => ?_
      split
      · exact hr
      · next text x _ =>
          have hrun := processString_keeps ih [text]
            (r := (r.1, { r.2 with rest := rest.beginMacro text x })) hr
          exact hrun

/-- **Whatever is printed is a run of the store**, and keeps its invariant. -/
theorem output_runs (s₀ : Store) (x : τ) (pieces : List WString) :
    Printed s₀
        (pieces.foldl (fun r s => processString (terminalEngine rest) s r) ({}, ⟨s₀, x⟩)).2.store ∧
      (Invariant s₀ → Invariant
        (pieces.foldl (fun r s => processString (terminalEngine rest) s r) ({}, ⟨s₀, x⟩)).2.store) := by
  have hr : Reached (fun t : Terminal τ => Printed s₀ t.store) (fun t => Printed s₀ t.store)
      ({}, ⟨s₀, x⟩) :=
    reached_of common_default trivial (by decide) ⟨[], s₀.shellCommandRunning,
      fun _ h => absurd h List.not_mem_nil, rfl⟩
  obtain ⟨-, -, h⟩ := processString_keeps (engineAtDepth_keeps rest s₀ maxMacroDepth) pieces hr
  rw [ite_self] at h
  exact ⟨h, h.invariant⟩

/-! ### Pieces -/

/-- The rest of the terminal does not see where a run of characters is cut. -/
structure Rest.Indifferent (R : τ → τ → Prop) : Prop where
  engine : rest.engine.Indifferent R
  sendC1 : ∀ {x y}, R x y → rest.sendC1 x = rest.sendC1 y
  returnResponse : ∀ {x y} (response : WString), R x y →
    R (rest.returnResponse response x) (rest.returnResponse response y)
  takeMacro : ∀ {x y}, R x y → (rest.takeMacro x).1 = (rest.takeMacro y).1 ∧
    R (rest.takeMacro x).2 (rest.takeMacro y).2
  beginMacro : ∀ {x y} (text : WString), R x y →
    R (rest.beginMacro text x) (rest.beginMacro text y)
  endMacro : ∀ {x y}, R x y → R (rest.endMacro x) (rest.endMacro y)

/-- The same store, and related rests. -/
def SameStore (R : τ → τ → Prop) (t t' : Terminal τ) : Prop :=
  t.store = t'.store ∧ R t.rest t'.rest

variable {rest} {R : τ → τ → Prop} (h : rest.Indifferent R)

include h

/-- An action does the same to the same store. -/
theorem sameStore_act (a : Action) {t t' : Terminal τ} (ht : SameStore R t t') :
    SameStore R (act rest a t) (act rest a t') := by
  obtain ⟨s, x⟩ := t
  obtain ⟨s', y⟩ := t'
  obtain ⟨rfl, hxy : R x y⟩ := ht
  have hact := h.engine.act a hxy
  unfold act
  split
  · split_ifs
    · unfold doProgramStatusAction returnOscResponse
      rw [h.sendC1 hxy]
      split
      · split_ifs
        · exact ⟨rfl, h.returnResponse _ hxy⟩
        · exact ⟨rfl, h.returnResponse _ hxy⟩
        · exact ⟨rfl, hxy⟩
      · exact ⟨rfl, hxy⟩
    · exact ⟨rfl, hact⟩
    · exact ⟨rfl, hact⟩
  · exact ⟨rfl, hact⟩
  · exact ⟨rfl, hact⟩

/-- So do the macros it invokes. -/
theorem engineAtDepth_indifferent (depth : ℕ) :
    (engineAtDepth rest depth).Indifferent (SameStore R) := by
  have hwith (csiComplete : Run (Terminal τ) → Run (Terminal τ))
      (hcomplete : ∀ {t t'} (m : StateMachine), SameStore R t t' →
        Same (SameStore R) (csiComplete (m, t)) (csiComplete (m, t'))) :
      (engineWith rest csiComplete).Indifferent (SameStore R) :=
    { equivalence := ⟨fun t => ⟨rfl, h.engine.equivalence.refl _⟩,
        fun ht => ⟨ht.1.symm, h.engine.equivalence.symm ht.2⟩,
        fun ht ht' => ⟨ht.1.trans ht'.1, h.engine.equivalence.trans ht.2 ht'.2⟩⟩
      act := fun a ht => sameStore_act h a ht
      dcsDispatch := fun id ps ht =>
        ⟨⟨ht.1, (h.engine.dcsDispatch id ps ht.2).1⟩, (h.engine.dcsDispatch id ps ht.2).2⟩
      dcsString := fun wch ht =>
        ⟨⟨ht.1, (h.engine.dcsString wch ht.2).1⟩, (h.engine.dcsString wch ht.2).2⟩
      csiComplete := fun m ht => hcomplete m ht
      acceptC1 := fun ht => h.engine.acceptC1 ht.2
      ansi := fun ht => h.engine.ansi ht.2
      printString := fun s t x hs ht => ⟨rfl, h.engine.printString s t x.rest hs ht⟩ }
  induction depth with
  | zero => exact hwith _ fun m ht => ⟨rfl, ht.1, (h.takeMacro ht.2).2⟩
  | succ depth ih =>
      refine hwith _ fun {t t'} m ht => ?_
      obtain ⟨htext, hrest⟩ := h.takeMacro ht.2
      dsimp only
      generalize rest.takeMacro _ = taken at htext hrest ⊢
      generalize rest.takeMacro _ = taken' at htext hrest ⊢
      obtain ⟨text, x⟩ := taken
      obtain ⟨text', y⟩ := taken'
      obtain rfl : text = text' := htext
      cases text with
      | none => exact ⟨rfl, ht.1, hrest⟩
      | some text =>
          have hbegin : Same (SameStore R) (m, { t with rest := rest.beginMacro text x })
              (m, { t' with rest := rest.beginMacro text y }) :=
            ⟨rfl, ht.1, h.beginMacro text hrest⟩
          obtain ⟨hparser, hstore, hrest⟩ := same_processString ih text hbegin
          exact ⟨hparser, hstore, h.endMacro hrest⟩

end

end Axan.ProgramStatus
