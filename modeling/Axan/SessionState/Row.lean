import Axan.SessionState.Derive

/-!
# The view model of a session row: `SessionNodeViewModel.cpp`

The row displays the state that `_RecomputeNodeState` pushes. A preview puts another state on the
screen: the displayed fields are overwritten, the real ones are kept in a side copy and brought up
to date there. What the rest of the sidebar reads is the side copy while there is one.

* `SessionNodeViewModel`, `setSessionState`, `setPreview`, `clearPreview`, `updateDeEmphasis` — the
  view model; `RowCall`, `run` — its calls in any order.
* `advance` — what a push does to the real fields, by either of the two code paths
  (`setSessionState_spec`).
* `Agree`, `Agree.step` — two view models with the same real state stay so.
* `preview_invisible` — **a run reads as the run without its previews.**

Times are ticks of 100 ns, and zero is the empty `DateTime`. Change notifications are left out.
-/

namespace Axan.SessionState

open Axan.Base

/-- Source: `SessionRestingState` -/
structure SessionRestingState where
  retainedWhat : WString := []
  retainedMessage : WString := []
  reportKey : WString := []
  slotKey : WString := []
  slotGlyph : WString := []
  slotWord : WString := []
  slotExplanation : WString := []
  showSlotWord : Bool := true
  agentName : WString := []
  deriving DecidableEq, Repr

/-- Source: `SessionNodeViewModel::StateFields` -/
structure StateFields where
  state : WString := L "idle"
  kind : WString := []
  message : WString := []
  since : ℤ := 0
  reportSince : ℤ := 0
  resting : SessionRestingState := {}
  deriving DecidableEq, Repr

/-- The state of a row. Source: `SessionNodeViewModel` -/
structure SessionNodeViewModel where
  isSeparator : Bool := false
  /-- The fields on display: `_state`, `_stateKind`, `_stateMessage`, `_stateSince`,
  `_reportSince` and `_resting`. -/
  shown : StateFields := {}
  realWhilePreviewing : Option StateFields := none
  previewId : WString := []
  lastActivity : ℤ := 0
  deEmphasised : Bool := false
  subLabel : WString := []
  subLabelAge : WString := []
  subLabelMessage : WString := []
  deriving DecidableEq, Repr

namespace SessionNodeViewModel

/-! ### What is read -/

/-- The real fields, also while a preview is shown. -/
def real (vm : SessionNodeViewModel) : StateFields := vm.realWhilePreviewing.getD vm.shown

/-- Source: `State` -/
def state (vm : SessionNodeViewModel) : WString := vm.real.state
/-- Source: `StateKind` -/
def stateKind (vm : SessionNodeViewModel) : WString := vm.real.kind
/-- Source: `StateMessage` -/
def stateMessage (vm : SessionNodeViewModel) : WString := vm.real.message
/-- Source: `StateSince` -/
def stateSince (vm : SessionNodeViewModel) : ℤ := vm.real.since
/-- Source: `SlotKey` -/
def slotKey (vm : SessionNodeViewModel) : WString := vm.real.resting.slotKey

/-! ### The second line -/

/-- Source: `ShowsAge` -/
def showsAge (vm : SessionNodeViewModel) : Bool :=
  vm.shown.state = L "needs-you" || vm.shown.state = L "done-unseen" || vm.shown.state = L "error"

/-- Source: `ShowsRetained` -/
def showsRetained (vm : SessionNodeViewModel) : Bool :=
  !vm.isSeparator && !vm.shown.resting.retainedWhat.isEmpty

/-- Source: `ShowsAgentName` -/
def showsAgentName (vm : SessionNodeViewModel) : Bool :=
  !vm.isSeparator && !vm.shown.resting.agentName.isEmpty && !vm.showsRetained &&
    (vm.shown.state = L "idle" || vm.shown.state = L "running" ||
      (vm.shown.state = L "working" && vm.shown.message.isEmpty))

/-- Source: `FormatAge` -/
def formatAge (age : ℕ) : WString :=
  let secs := age / 10000000
  if secs < 60 then L "<1m"
  else if secs < 3600 then L (toString (secs / 60)) ++ L "m"
  else if secs < 86400 then L (toString (secs / 3600)) ++ L "h"
  else L (toString (secs / 86400)) ++ L "d"

/-- Source: `_withAge` -/
def withAge (what : WString) (now since : ℤ) : WString × WString :=
  (what, utf16 [' ', '·', ' '] ++ formatAge (if since < now then (now - since).toNat else 0))

/-- Source: `_computeSubLabel` -/
def computeSubLabel (vm : SessionNodeViewModel) (now : ℤ) : WString × WString :=
  let f := vm.shown
  if vm.isSeparator then ([], [])
  else if f.state = L "working" then
    (if f.message.isEmpty && vm.showsAgentName then f.resting.agentName else f.message, [])
  else if !vm.showsAge then
    if vm.showsRetained then
      withAge (if f.resting.retainedMessage.isEmpty then f.resting.retainedWhat
          else f.resting.retainedMessage) now (if f.reportSince ≠ 0 then f.reportSince else f.since)
    else if vm.showsAgentName then (f.resting.agentName, [])
    else ([], [])
  else
    let what :=
      if !f.message.isEmpty then f.message
      else if f.state = L "needs-you" then if f.kind.isEmpty then L "needs you" else f.kind
      else if f.state = L "done-unseen" then L "done"
      else L "error"
    withAge what now f.since

/-- Compute the second line again. -/
def refreshSubLabel (vm : SessionNodeViewModel) (message : WString) (now : ℤ) :
    SessionNodeViewModel :=
  let line := vm.computeSubLabel now
  { vm with subLabelMessage := message, subLabel := line.1, subLabelAge := line.2 }

/-! ### What is called -/

/-- Source: `_raisePreviewChange` -/
def raisePreviewChange (vm : SessionNodeViewModel) (now : ℤ) : SessionNodeViewModel :=
  vm.refreshSubLabel vm.shown.message now

/-- The view model, and whether a preview was shown. Source: `ClearPreview` -/
def clearPreview (vm : SessionNodeViewModel) (now : ℤ) : SessionNodeViewModel × Bool :=
  match vm.realWhilePreviewing with
  | none => (vm, false)
  | some f =>
      ({ vm with shown := f, realWhilePreviewing := none, previewId := [] }.raisePreviewChange now,
        true)

/-- Source: `SetPreview` -/
def setPreview (vm : SessionNodeViewModel) (id state message kind : WString) (since now : ℤ)
    (resting : SessionRestingState) : SessionNodeViewModel :=
  if vm.isSeparator then vm
  else
    let real := vm.real
    let reportSince := if resting.reportKey.isEmpty then 0 else since
    -- the agent's name stays the real one
    let resting := { resting with agentName := real.resting.agentName }
    { vm with
      realWhilePreviewing := some real
      previewId := id
      shown := ⟨state, kind, message, since, reportSince, resting⟩ }.raisePreviewChange now

/-- The time of the report a push names: a new report starts now. -/
def nextReportSince (f : StateFields) (resting : SessionRestingState) (now : ℤ) : ℤ :=
  if resting.reportKey ≠ f.resting.reportKey then if resting.reportKey.isEmpty then 0 else now
  else f.reportSince

/-- The fields after a push. -/
def advance (f : StateFields) (state message kind : WString) (now : ℤ)
    (resting : SessionRestingState) : StateFields where
  state := state
  kind := kind
  message := message
  since := if state ≠ f.state || kind ≠ f.kind then now else f.since
  reportSince := nextReportSince f resting now
  resting := resting

/-- The assignments of `SetSessionState`, where no preview is shown. -/
def assignState (vm : SessionNodeViewModel) (state message kind : WString) (now : ℤ)
    (resting : SessionRestingState) : SessionNodeViewModel :=
  { vm with
    shown := advance vm.shown state message kind now resting
    -- anything but idle promotes the row
    deEmphasised :=
      if (state ≠ vm.shown.state || kind ≠ vm.shown.kind) && state ≠ L "idle" then false
      else vm.deEmphasised }

/-- `SetSessionState`, where no preview is shown. -/
def pushState (vm : SessionNodeViewModel) (state message kind : WString) (now : ℤ)
    (resting : SessionRestingState) : SessionNodeViewModel × Bool :=
  let transition := state ≠ vm.shown.state || kind ≠ vm.shown.kind
  let next := vm.assignState state message kind now resting
  if transition || message ≠ vm.subLabelMessage || resting ≠ vm.shown.resting then
    (next.refreshSubLabel message now, transition)
  else (next, transition)

/-- The view model, and whether the state or the kind changed. Source: `SetSessionState` -/
def setSessionState (vm : SessionNodeViewModel) (state message kind : WString) (now : ℤ)
    (resting : SessionRestingState) : SessionNodeViewModel × Bool :=
  match vm.realWhilePreviewing with
  | some f =>
      if state = f.state ∧ kind = f.kind then
        ({ vm with
            realWhilePreviewing := some
              { f with
                message := message
                reportSince := nextReportSince f resting now
                resting := resting } }, false)
      else (vm.clearPreview now).1.pushState state message kind now resting
  | none => vm.pushState state message kind now resting

/-- Ticks of a minute. -/
def ticksPerMinute : ℤ := 600000000

/-- Source: `UpdateDeEmphasis` -/
def updateDeEmphasis (vm : SessionNodeViewModel) (now idleAfterMinutes : ℤ) :
    SessionNodeViewModel × Bool :=
  let want :=
    if !vm.isSeparator && idleAfterMinutes > 0 && vm.state = L "idle" then
      let since := max vm.lastActivity vm.stateSince
      since ≠ 0 && now - since ≥ idleAfterMinutes * ticksPerMinute
    else false
  ({ vm with deEmphasised := want }, want ≠ vm.deEmphasised)

/-- Source: `SetLastActivity` -/
def setLastActivity (vm : SessionNodeViewModel) (value : ℤ) : SessionNodeViewModel :=
  { vm with lastActivity := value }

/-! ### Runs -/

/-- The calls on a row. -/
inductive RowCall where
  | setSessionState (state message kind : WString) (now : ℤ) (resting : SessionRestingState)
  | setPreview (id state message kind : WString) (since now : ℤ) (resting : SessionRestingState)
  | clearPreview (now : ℤ)
  | updateDeEmphasis (now idleAfterMinutes : ℤ)
  | setLastActivity (value : ℤ)

/-- Is the call about a preview? -/
def RowCall.isPreview : RowCall → Bool
  | .setPreview .. => true
  | .clearPreview _ => true
  | _ => false

/-- One call. -/
def step (vm : SessionNodeViewModel) : RowCall → SessionNodeViewModel
  | .setSessionState state message kind now resting =>
      (vm.setSessionState state message kind now resting).1
  | .setPreview id state message kind since now resting =>
      vm.setPreview id state message kind since now resting
  | .clearPreview now => (vm.clearPreview now).1
  | .updateDeEmphasis now idleAfterMinutes => (vm.updateDeEmphasis now idleAfterMinutes).1
  | .setLastActivity value => vm.setLastActivity value

/-- A finite run. -/
def run (vm : SessionNodeViewModel) (calls : List RowCall) : SessionNodeViewModel :=
  calls.foldl step vm

/-! ## What a call does to the real state -/

/-- Without a preview the row shows what is real. -/
theorem real_of_none {vm : SessionNodeViewModel} (h : vm.realWhilePreviewing = none) :
    vm.real = vm.shown := by
  rw [real, h]
  rfl

/-- With one the real state is put aside. -/
theorem real_of_some {vm : SessionNodeViewModel} {f : StateFields}
    (h : vm.realWhilePreviewing = some f) : vm.real = f := by
  rw [real, h]
  rfl

/-- A push where no preview is shown. -/
theorem pushState_spec (vm : SessionNodeViewModel) (state message kind : WString) (now : ℤ)
    (resting : SessionRestingState) :
    (vm.pushState state message kind now resting).1.shown =
        advance vm.shown state message kind now resting ∧
      (vm.pushState state message kind now resting).1.realWhilePreviewing =
        vm.realWhilePreviewing ∧
      (vm.pushState state message kind now resting).1.deEmphasised =
        (if (state ≠ vm.shown.state || kind ≠ vm.shown.kind) && state ≠ L "idle" then false
          else vm.deEmphasised) ∧
      (vm.pushState state message kind now resting).1.lastActivity = vm.lastActivity ∧
      (vm.pushState state message kind now resting).1.isSeparator = vm.isSeparator ∧
      (vm.pushState state message kind now resting).2 =
        (state ≠ vm.shown.state || kind ≠ vm.shown.kind) := by
  rw [pushState]
  split
  · exact ⟨rfl, rfl, rfl, rfl, rfl, rfl⟩
  · exact ⟨rfl, rfl, rfl, rfl, rfl, rfl⟩

/-- The end of a preview. -/
theorem clearPreview_spec (vm : SessionNodeViewModel) (now : ℤ) :
    (vm.clearPreview now).1.shown = vm.real ∧
      (vm.clearPreview now).1.realWhilePreviewing = none ∧
      (vm.clearPreview now).1.deEmphasised = vm.deEmphasised ∧
      (vm.clearPreview now).1.lastActivity = vm.lastActivity ∧
      (vm.clearPreview now).1.isSeparator = vm.isSeparator := by
  rw [clearPreview, real]
  cases h : vm.realWhilePreviewing with
  | none => exact ⟨rfl, h, rfl, rfl, rfl⟩
  | some f => exact ⟨rfl, rfl, rfl, rfl, rfl⟩

/-- **Both paths of a push do the same to the real state.** -/
theorem setSessionState_spec (vm : SessionNodeViewModel) (state message kind : WString) (now : ℤ)
    (resting : SessionRestingState) :
    (vm.setSessionState state message kind now resting).1.real =
        advance vm.real state message kind now resting ∧
      (vm.setSessionState state message kind now resting).1.deEmphasised =
        (if (state ≠ vm.real.state || kind ≠ vm.real.kind) && state ≠ L "idle" then false
          else vm.deEmphasised) ∧
      (vm.setSessionState state message kind now resting).1.lastActivity = vm.lastActivity ∧
      (vm.setSessionState state message kind now resting).1.isSeparator = vm.isSeparator ∧
      ((state ≠ vm.real.state ∨ kind ≠ vm.real.kind) →
        (vm.setSessionState state message kind now resting).1.realWhilePreviewing = none) := by
  rw [setSessionState]
  cases h : vm.realWhilePreviewing with
  | none =>
      obtain ⟨hshown, hnone, hde, hact, hsep, -⟩ :=
        pushState_spec vm state message kind now resting
      rw [h] at hnone
      rw [real_of_none h]
      exact ⟨(real_of_none hnone).trans hshown, hde, hact, hsep, fun _ => hnone⟩
  | some f =>
      rw [real_of_some h]
      by_cases hsame : state = f.state ∧ kind = f.kind
      · obtain ⟨rfl, rfl⟩ := hsame
        simp only [and_self, if_true]
        refine ⟨?_, by simp, trivial, trivial, by simp⟩
        simp [real, advance]
      · obtain ⟨hshown, hnone, hde, hact, hsep, -⟩ :=
          pushState_spec (vm.clearPreview now).1 state message kind now resting
        obtain ⟨hshown', hnone', hde', hact', hsep'⟩ := clearPreview_spec vm now
        rw [hnone'] at hnone
        rw [hshown', real_of_some h] at hshown hde
        simp only [if_neg hsame]
        exact ⟨(real_of_none hnone).trans hshown, hde.trans (by rw [hde']), hact.trans hact',
          hsep.trans hsep', fun _ => hnone⟩

/-- A preview does nothing to the real state. -/
theorem setPreview_spec (vm : SessionNodeViewModel) (id state message kind : WString)
    (since now : ℤ) (resting : SessionRestingState) :
    (vm.setPreview id state message kind since now resting).real = vm.real ∧
      (vm.setPreview id state message kind since now resting).deEmphasised = vm.deEmphasised ∧
      (vm.setPreview id state message kind since now resting).lastActivity = vm.lastActivity ∧
      (vm.setPreview id state message kind since now resting).isSeparator = vm.isSeparator := by
  rw [setPreview]
  split
  · exact ⟨rfl, rfl, rfl, rfl⟩
  · exact ⟨rfl, rfl, rfl, rfl⟩

/-! ## Two runs -/

/-- Two view models that differ in a preview only. -/
structure Agree (a b : SessionNodeViewModel) : Prop where
  real : a.real = b.real
  deEmphasised : a.deEmphasised = b.deEmphasised
  lastActivity : a.lastActivity = b.lastActivity
  isSeparator : a.isSeparator = b.isSeparator

/-- The step lemma: a call that is not about a preview keeps the agreement. -/
theorem Agree.step {a b : SessionNodeViewModel} (h : Agree a b) {c : RowCall}
    (hc : c.isPreview = false) : Agree (a.step c) (b.step c) := by
  cases c with
  | setSessionState state message kind now resting =>
      obtain ⟨hreal, hde, hact, hsep, -⟩ := setSessionState_spec a state message kind now resting
      obtain ⟨hreal', hde', hact', hsep', -⟩ := setSessionState_spec b state message kind now resting
      rw [← h.real] at hreal' hde'
      rw [← h.deEmphasised] at hde'
      rw [← h.lastActivity] at hact'
      rw [← h.isSeparator] at hsep'
      exact ⟨hreal.trans hreal'.symm, hde.trans hde'.symm, hact.trans hact'.symm,
        hsep.trans hsep'.symm⟩
  | updateDeEmphasis now idleAfterMinutes =>
      have hstate : a.state = b.state := congrArg StateFields.state h.real
      have hsince : a.stateSince = b.stateSince := congrArg StateFields.since h.real
      refine ⟨h.real, ?_, h.lastActivity, h.isSeparator⟩
      simp only [SessionNodeViewModel.step, updateDeEmphasis, h.isSeparator, h.lastActivity, hstate,
        hsince]
  | setLastActivity value => exact ⟨h.real, h.deEmphasised, rfl, h.isSeparator⟩
  | setPreview id state message kind since now resting => cases hc
  | clearPreview now => cases hc

/-- A call about a preview stays on one side. -/
theorem Agree.preview {a b : SessionNodeViewModel} (h : Agree a b) {c : RowCall}
    (hc : c.isPreview = true) : Agree (a.step c) b := by
  cases c with
  | setPreview id state message kind since now resting =>
      obtain ⟨hreal, hde, hact, hsep⟩ := setPreview_spec a id state message kind since now resting
      exact ⟨hreal.trans h.real, hde.trans h.deEmphasised, hact.trans h.lastActivity,
        hsep.trans h.isSeparator⟩
  | clearPreview now =>
      obtain ⟨hshown, hnone, hde, hact, hsep⟩ := clearPreview_spec a now
      exact ⟨((real_of_none hnone).trans hshown).trans h.real, hde.trans h.deEmphasised,
        hact.trans h.lastActivity, hsep.trans h.isSeparator⟩
  | setSessionState state message kind now resting => cases hc
  | updateDeEmphasis now idleAfterMinutes => cases hc
  | setLastActivity value => cases hc

/-- The run lemma. -/
theorem Agree.run {a b : SessionNodeViewModel} (h : Agree a b) (calls : List RowCall) :
    Agree (a.run calls) (b.run (calls.filter fun c => !c.isPreview)) := by
  induction calls generalizing a b with
  | nil => exact h
  | cons c calls ih =>
      by_cases hc : c.isPreview = true
      · rw [List.filter_cons_of_neg (by simp [hc])]
        exact ih (h.preview hc)
      · rw [List.filter_cons_of_pos (by simp [hc])]
        exact ih (h.step (Bool.eq_false_iff.mpr hc))

/-- The last call comes last. -/
theorem run_append_singleton (vm : SessionNodeViewModel) (calls : List RowCall) (c : RowCall) :
    vm.run (calls ++ [c]) = (vm.run calls).step c := by
  simp [run]

/-- **A preview is invisible to the model.** After any calls, what the rest of the sidebar reads is
what it reads in the run without the previews; and when a preview is cleared, or the real state or
kind changes, the fields on display are the real ones. -/
theorem preview_invisible (vm : SessionNodeViewModel) (calls : List RowCall) :
    ((vm.run calls).state = (vm.run (calls.filter fun c => !c.isPreview)).state ∧
      (vm.run calls).stateKind = (vm.run (calls.filter fun c => !c.isPreview)).stateKind ∧
      (vm.run calls).stateMessage = (vm.run (calls.filter fun c => !c.isPreview)).stateMessage ∧
      (vm.run calls).stateSince = (vm.run (calls.filter fun c => !c.isPreview)).stateSince ∧
      (vm.run calls).slotKey = (vm.run (calls.filter fun c => !c.isPreview)).slotKey ∧
      (vm.run calls).real.reportSince =
        (vm.run (calls.filter fun c => !c.isPreview)).real.reportSince ∧
      (vm.run calls).deEmphasised = (vm.run (calls.filter fun c => !c.isPreview)).deEmphasised) ∧
    (∀ now, (vm.run (calls ++ [.clearPreview now])).shown =
      (vm.run (calls.filter fun c => !c.isPreview)).real) ∧
    ∀ state message kind now resting,
      (state ≠ (vm.run calls).state ∨ kind ≠ (vm.run calls).stateKind) →
      (vm.run (calls ++ [.setSessionState state message kind now resting])).shown =
        (vm.run ((calls.filter fun c => !c.isPreview) ++
          [.setSessionState state message kind now resting])).real := by
  have h := (⟨rfl, rfl, rfl, rfl⟩ : Agree vm vm).run calls
  refine ⟨?_, fun now => ?_, fun state message kind now resting hchange => ?_⟩
  · simp only [state, stateKind, stateMessage, stateSince, slotKey, h.real, h.deEmphasised, and_self]
  · rw [run_append_singleton]
    exact (clearPreview_spec _ now).1.trans h.real
  · rw [run_append_singleton, run_append_singleton]
    obtain ⟨hreal, -, -, -, hnone⟩ :=
      setSessionState_spec (vm.run calls) state message kind now resting
    obtain ⟨hreal', -⟩ := setSessionState_spec (vm.run (calls.filter fun c => !c.isPreview)) state
      message kind now resting
    rw [← h.real] at hreal'
    exact ((real_of_none (hnone hchange)).symm.trans hreal).trans hreal'.symm

/-- A working session, previewed as an error. -/
def previewedError : List RowCall :=
  [.setSessionState (L "working") (L "tests") [] 5 {},
    .setPreview (L "error") (L "error") [] [] 1 6 {}]

theorem preview_invisible_previewedError :
    (run {} previewedError).shown.state = L "error" ∧
      (run {} previewedError).state = L "working" ∧
      (run {} (previewedError ++ [.setSessionState (L "idle") [] [] 7 {}])).shown =
        (run {} ((previewedError.filter fun c => !c.isPreview) ++
          [.setSessionState (L "idle") [] [] 7 {}])).real :=
  ⟨by decide, by decide, (preview_invisible {} previewedError).2.2 _ _ _ _ _ (by decide)⟩

end SessionNodeViewModel

end Axan.SessionState
