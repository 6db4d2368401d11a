import Axan.SessionState.Determined
import Axan.SessionState.Row

/-!
# The age of a report across its acknowledgement

When a tab is opened every record in it is marked seen. In keep mode the row then shows the
strongest outcome that has been seen, and the age of what it shows goes on when the report key is
the one it had.

* `acknowledged` — every record seen.
* `derive_reportKey` — the report key of a row, by what the two loops find.
* `acknowledged_reportKey_iff` — the key stays exactly when nothing covers the report and no other
  outcome outranks it.
-/

namespace Axan.SessionState

open Axan.Base

def seenRecord (r : RecordInput) : RecordInput := { r with seen := true }

/-- Every record of every pane seen. -/
def acknowledged (panes : List PaneInput) : List PaneInput :=
  panes.map fun p => { p with records := p.records.map seenRecord }

/-- The done and error records, seen or not. -/
def outcomes (panes : List PaneInput) : List Report :=
  (reports panes).filter fun x => x.2.isOutcome

/-- The report `k` is what a row rests on when it is acknowledged: nothing is working, the bell is
off or a shell is running, and every other outcome is outranked by one of this report. -/
def RestsOn (panes : List PaneInput) (bellIndicator : Bool) (k : WString) : Prop :=
  (∀ x ∈ reports panes, x.2.state ≠ .working) ∧
    (bellIndicator = true → ∃ p ∈ panes, p.records = [] ∧ p.commandRunning = true) ∧
    ∀ a x b, outcomes panes = a ++ x :: b → x.key ≠ k →
      ∃ y : Report, y.key = k ∧
        (y ∈ a ∧ keepKey x ≤ keepKey y ∨ y ∈ b ∧ keepKey x < keepKey y)

section key

variable {panes : List PaneInput} {bellIndicator : Bool}

/-- A row that is shown has the state of the result, or that of the bell. -/
theorem rowFrom_spec (bellIndicator : Bool) (r : Result) (kept : Option (Retained × WString))
    (anyRecords : Bool) :
    (rowFrom bellIndicator true (some r) kept anyRecords).state =
        (if r.state = .idle ∧ bellIndicator = true then .doneUnseen else r.state) ∧
      (rowFrom bellIndicator true (some r) kept anyRecords).reportKey =
        (if r.state = .idle ∧ bellIndicator = true then r.reportKey
        else if r.state = .idle ∨ r.state = .running then (kept.map Prod.snd).getD r.reportKey
        else r.reportKey) := by
  unfold rowFrom
  rw [Option.getD_some]
  by_cases hidle : r.state = .idle
  · rw [withBell_of_idle hidle]
    cases bellIndicator with
    | true => simp [hidle]
    | false => cases kept <;> simp [hidle]
  · rw [withBell_of_ne hidle]
    by_cases hrun : r.state = .running
    · cases kept <;> simp [hrun]
    · simp [hidle, hrun]

/-- A description keeps the state. -/
theorem describeView_state (v : View) : (describeView v).state = v.state := by
  cases v with
  | inl x =>
      rw [describeView, View.state]
      by_cases hidle : fromRecord x.2 = .idle
      · rw [if_pos hidle, hidle]
      · rw [if_neg hidle]
  | inr s => rfl

/-- Only an outcome has a key. -/
theorem describeView_reportKey (v : View) : (describeView v).reportKey =
    match v with
    | .inl x => if fromRecord x.2 = .doneUnseen ∨ fromRecord x.2 = .error then x.key else []
    | .inr _ => [] := by
  cases v with
  | inl x =>
      rw [describeView]
      by_cases hidle : fromRecord x.2 = .idle
      · rw [if_pos hidle]
        simp [hidle]
      · rw [if_neg hidle]
  | inr s => rfl

/-- The state of a row, and its report key in keep mode, from the choice of the first loop. -/
theorem derive_reportKey (bellIndicator : Bool) {v : View}
    (h : firstMax viewKey (views panes) = some v) :
    (derive panes bellIndicator true).state =
        (if v.state = .idle ∧ bellIndicator = true then .doneUnseen else v.state) ∧
      (derive panes bellIndicator true).reportKey =
        (if v.state = .idle ∧ bellIndicator = true then (describeView v).reportKey
        else if v.state = .idle ∨ v.state = .running then
          ((keptReport panes).map Report.key).getD (describeView v).reportKey
        else (describeView v).reportKey) := by
  have hrow := derive_eq panes bellIndicator true
  rw [h, Option.map_some] at hrow
  have hspec := rowFrom_spec bellIndicator (describeView v) ((keptReport panes).map keptView)
    (panes.any fun p => !p.records.isEmpty)
  rw [describeView_state, ← hrow, Option.map_map] at hspec
  exact hspec

theorem describeView_reportKey_nil {v : View} (hdone : v.state ≠ .doneUnseen)
    (herror : v.state ≠ .error) : (describeView v).reportKey = [] := by
  rw [describeView_reportKey]
  cases v with
  | inl x => exact if_neg (not_or.mpr ⟨hdone, herror⟩)
  | inr s => rfl

/-- A report that decides a row is an outcome, and no record is blocked. -/
theorem decided {k : WString}
    (hstate : (derive panes bellIndicator true).state = .doneUnseen ∨
      (derive panes bellIndicator true).state = .error)
    (hkey : (derive panes bellIndicator true).reportKey = k) (hne : k ≠ []) :
    (∃ x ∈ outcomes panes, x.key = k) ∧ ∀ y ∈ reports panes, y.2.state ≠ .blocked := by
  cases h : firstMax viewKey (views panes) with
  | none =>
      obtain rfl : panes = [] := views_eq_nil.mp ((firstMax_eq_none_iff viewKey _).mp h)
      exfalso
      apply hne
      rw [← hkey]
      cases bellIndicator <;> rfl
  | some v =>
      obtain ⟨hstate', hkey'⟩ := derive_reportKey bellIndicator h
      rw [hstate'] at hstate
      rw [hkey'] at hkey
      have hv : v.state = .doneUnseen ∨ v.state = .error := by
        by_contra hother
        rw [not_or] at hother
        rw [describeView_reportKey_nil hother.1 hother.2] at hkey
        split_ifs at hstate hkey with hbell hrest
        · exact hne hkey.symm
        · exact not_or.mpr hother hstate
        · exact hne hkey.symm
      have hbell : ¬(v.state = .idle ∧ bellIndicator = true) := by
        rintro ⟨hidle, -⟩
        rw [hidle] at hv
        simp at hv
      have hrest : ¬(v.state = .idle ∨ v.state = .running) := by
        rintro (hs | hs) <;> rw [hs] at hv <;> simp at hv
      rw [if_neg hbell, if_neg hrest, describeView_reportKey] at hkey
      cases v with
      | inr s => exact absurd hkey.symm hne
      | inl x =>
          rw [View.state] at hv
          dsimp only at hkey
          rw [if_pos hv] at hkey
          have hx := inl_mem_views.mp (firstMax_mem viewKey h)
          refine ⟨⟨x, List.mem_filter.mpr ⟨hx, ?_⟩, hkey⟩, fun y hy hblocked => ?_⟩
          · unfold RecordInput.isOutcome
            rcases fromRecord_cases (r := x.2) (by rcases hv with hv | hv <;> simp [hv]) with
              ⟨-, hs⟩ | ⟨-, hs⟩ | ⟨hs, -⟩ | ⟨hs, -⟩
            · simp [hs] at hv
            · simp [hs] at hv
            · simp [hs]
            · simp [hs]
          · have hle := rank_le_of_viewKey_le (le_firstMax viewKey h (inl_mem_views.mpr hy))
            have hy' : fromRecord y.2 = .needsYou := by rw [fromRecord, hblocked]
            rw [View.state, View.state, hy'] at hle
            rcases hv with hv | hv <;> rw [hv] at hle <;> exact absurd hle (by decide)

/-! ### Everything seen -/

def seenReport (x : Report) : Report := (x.1, seenRecord x.2)

/-- The reports are all seen. -/
theorem reports_acknowledged (panes : List PaneInput) :
    reports (acknowledged panes) = (reports panes).map seenReport := by
  induction panes with
  | nil => rfl
  | cons p panes ih =>
      have hcons : acknowledged (p :: panes) =
          { p with records := p.records.map seenRecord } :: acknowledged panes := rfl
      rw [hcons, reports_cons, reports_cons, ih, List.map_append, List.map_map, List.map_map]
      rfl

/-- The outcome kept is the first among all. -/
theorem keptReport_acknowledged (panes : List PaneInput) :
    (keptReport (acknowledged panes)).map Report.key =
      (firstMax keepKey (outcomes panes)).map Report.key := by
  have hfilter : (reports (acknowledged panes)).filter keepable =
      (outcomes panes).map seenReport := by
    rw [reports_acknowledged, List.filter_map, outcomes]
    rfl
  rw [keptReport, hfilter, firstMax_map, Option.map_map]
  rfl

/-- A pane without reports shows its command. -/
theorem inr_mem_views {s : State} : .inr s ∈ views panes ↔
    ∃ p ∈ panes, p.records = [] ∧ s = if p.commandRunning then .running else .idle := by
  rw [views, List.mem_flatMap]
  apply exists_congr
  intro p
  apply and_congr_right
  intro _
  unfold viewsOf
  by_cases hempty : p.records.isEmpty = true
  · rw [if_pos hempty, List.mem_singleton, List.isEmpty_iff.mp hempty]
    simp
  · rw [if_neg hempty]
    rw [List.isEmpty_iff] at hempty
    simp [hempty]

/-- And shows it after the acknowledgement. -/
theorem inr_mem_acknowledged {s : State} :
    .inr s ∈ views (acknowledged panes) ↔ .inr s ∈ views panes := by
  rw [inr_mem_views, inr_mem_views]
  simp [acknowledged]

/-- What is left to choose from: work, a running shell, or rest. -/
theorem state_acknowledged (hblocked : ∀ y ∈ reports panes, y.2.state ≠ .blocked) {v : View}
    (hv : v ∈ views (acknowledged panes)) :
    v.state = .working ∧ (∃ x ∈ reports panes, x.2.state = .working) ∨
      v.state = .running ∧ (∃ p ∈ panes, p.records = [] ∧ p.commandRunning = true) ∨
      v.state = .idle := by
  cases v with
  | inl x =>
      have hx := inl_mem_views.mp hv
      rw [reports_acknowledged] at hx
      obtain ⟨y, hy, rfl⟩ := List.mem_map.mp hx
      have hstate : View.state (.inl (seenReport y)) = fromRecord (seenRecord y.2) := rfl
      rw [hstate, fromRecord, seenRecord]
      cases hs : y.2.state with
      | blocked => exact absurd hs (hblocked y hy)
      | working => exact Or.inl ⟨rfl, y, hy, hs⟩
      | error => exact Or.inr (Or.inr rfl)
      | done => exact Or.inr (Or.inr rfl)
      | idle => exact Or.inr (Or.inr rfl)
  | inr s =>
      obtain ⟨p, hp, hempty, rfl⟩ := inr_mem_views.mp (inr_mem_acknowledged.mp hv)
      rw [View.state]
      cases hrun : p.commandRunning with
      | true => exact Or.inr (Or.inl ⟨rfl, p, hp, hempty, hrun⟩)
      | false => exact Or.inr (Or.inr rfl)

/-- After the acknowledgement the report key is that of the first outcome, when the row rests. -/
theorem acknowledged_reportKey (bellIndicator : Bool)
    (hblocked : ∀ y ∈ reports panes, y.2.state ≠ .blocked)
    (hout : outcomes panes ≠ []) :
    (derive (acknowledged panes) bellIndicator true).reportKey =
      if (∃ x ∈ reports panes, x.2.state = .working) ∨
          (bellIndicator = true ∧ ¬∃ p ∈ panes, p.records = [] ∧ p.commandRunning = true) then []
      else ((firstMax keepKey (outcomes panes)).map Report.key).getD [] := by
  obtain ⟨w, hw⟩ := List.exists_mem_of_ne_nil _ hout
  have hwr : w ∈ reports panes := (List.mem_filter.mp hw).1
  cases h : firstMax viewKey (views (acknowledged panes)) with
  | none =>
      have hmem : .inl (seenReport w) ∈ views (acknowledged panes) := by
        rw [inl_mem_views, reports_acknowledged]
        exact List.mem_map_of_mem hwr
      rw [(firstMax_eq_none_iff viewKey _).mp h] at hmem
      cases hmem
  | some v =>
      have hcases := state_acknowledged hblocked (firstMax_mem viewKey h)
      have hnil : (describeView v).reportKey = [] := by
        apply describeView_reportKey_nil <;> rcases hcases with ⟨hs, -⟩ | ⟨hs, -⟩ | hs <;> simp [hs]
      -- work and a running shell are chosen where there is one
      have hwork : (∃ x ∈ reports panes, x.2.state = .working) → v.state = .working := by
        rintro ⟨x, hx, hs⟩
        have hmem : .inl (seenReport x) ∈ views (acknowledged panes) := by
          rw [inl_mem_views, reports_acknowledged]
          exact List.mem_map_of_mem hx
        have hle := rank_le_of_viewKey_le (le_firstMax viewKey h hmem)
        have hx' : View.state (.inl (seenReport x)) = .working := by
          show fromRecord (seenRecord x.2) = .working
          rw [fromRecord, seenRecord, hs]
        rw [hx'] at hle
        rcases hcases with ⟨hs, -⟩ | ⟨hs, -⟩ | hs
        · exact hs
        · rw [hs] at hle
          exact absurd hle (by decide)
        · rw [hs] at hle
          exact absurd hle (by decide)
      have hrun : (∃ p ∈ panes, p.records = [] ∧ p.commandRunning = true) → v.state ≠ .idle := by
        rintro ⟨p, hp, hempty, hr⟩ hidle
        have hmem : .inr .running ∈ views (acknowledged panes) :=
          inr_mem_acknowledged.mpr (inr_mem_views.mpr ⟨p, hp, hempty, by rw [hr]; rfl⟩)
        have hle := rank_le_of_viewKey_le (le_firstMax viewKey h hmem)
        rw [hidle] at hle
        exact absurd hle (by decide)
      rw [(derive_reportKey bellIndicator h).2, hnil, keptReport_acknowledged]
      by_cases hworking : ∃ x ∈ reports panes, x.2.state = .working
      · rw [if_pos (Or.inl hworking), hwork hworking]
        simp
      · have hrest : v.state = .idle ∨ v.state = .running := by
          rcases hcases with ⟨-, hex⟩ | ⟨hs, -⟩ | hs
          · exact absurd hex hworking
          · exact Or.inr hs
          · exact Or.inl hs
        rw [if_pos hrest]
        by_cases hbell : v.state = .idle ∧ bellIndicator = true
        · rw [if_pos hbell, if_pos (Or.inr ⟨hbell.2, fun hex => hrun hex hbell.1⟩)]
        · rw [if_neg hbell, if_neg]
          rintro (hex | ⟨hon, hno⟩)
          · exact hworking hex
          · rcases hcases with ⟨-, hex⟩ | ⟨-, hex⟩ | hs
            · exact hworking hex
            · exact hno hex
            · exact hbell ⟨hs, hon⟩

end key

/-- **An acknowledgement keeps the age of the report exactly when the row goes on to rest on it.** -/
theorem acknowledged_reportKey_iff (panes : List PaneInput) (bellIndicator : Bool) {k : WString}
    (hstate : (derive panes bellIndicator true).state = .doneUnseen ∨
      (derive panes bellIndicator true).state = .error)
    (hkey : (derive panes bellIndicator true).reportKey = k) (hne : k ≠ []) :
    ((derive (acknowledged panes) bellIndicator true).reportKey = k ∧
      ∀ (vm : SessionNodeViewModel) (state message kind : WString) (now : ℤ)
        (resting : SessionRestingState), vm.real.resting.reportKey = k →
        resting.reportKey = (derive (acknowledged panes) bellIndicator true).reportKey →
        (vm.setSessionState state message kind now resting).1.real.reportSince =
          vm.real.reportSince) ↔
      RestsOn panes bellIndicator k := by
  obtain ⟨⟨x, hx, -⟩, hblocked⟩ := decided hstate hkey hne
  have hout : outcomes panes ≠ [] := List.ne_nil_of_mem hx
  have hafter := acknowledged_reportKey bellIndicator hblocked hout
  have hsame : (derive (acknowledged panes) bellIndicator true).reportKey = k ↔
      RestsOn panes bellIndicator k := by
    rw [hafter, RestsOn, ← exists_firstMax_iff keepKey hout fun y => y.key = k]
    constructor
    · intro h
      split_ifs at h with hcover
      · exact absurd h.symm hne
      · rw [not_or] at hcover
        refine ⟨fun y hy hs => hcover.1 ⟨y, hy, hs⟩, fun hon => ?_, ?_⟩
        · by_contra hno
          exact hcover.2 ⟨hon, hno⟩
        · cases hm : firstMax keepKey (outcomes panes) with
          | none => exact absurd ((firstMax_eq_none_iff keepKey _).mp hm) hout
          | some m =>
              rw [hm] at h
              exact ⟨m, rfl, h⟩
    · rintro ⟨hwork, hbell, m, hm, hk⟩
      rw [if_neg, hm]
      · exact hk
      · rintro (⟨y, hy, hs⟩ | ⟨hon, hno⟩)
        · exact hwork y hy hs
        · exact hno (hbell hon)
  rw [← hsame, and_iff_left_iff_imp]
  intro h vm state message kind now resting hvm hres
  rw [(SessionNodeViewModel.setSessionState_spec vm state message kind now resting).1,
    SessionNodeViewModel.advance, SessionNodeViewModel.nextReportSince, hvm, hres, h]
  simp

/-- A report that is done, in front of an older error that has been seen. -/
def olderError : List PaneInput :=
  [paneOf 1 ⟨true, [], .done, .none, L "built", [], 7, false⟩,
    paneOf 2 ⟨true, [], .error, .none, L "failed", [], 3, true⟩]

/-- One report alone. -/
def oneReport : List PaneInput := [paneOf 1 ⟨true, [], .done, .none, L "built", [], 7, false⟩]

theorem acknowledged_reportKey_oneReport :
    ((derive (acknowledged oneReport) false true).reportKey = L "1::2" ∧
      ∀ (vm : SessionNodeViewModel) (state message kind : WString) (now : ℤ)
        (resting : SessionRestingState), vm.real.resting.reportKey = L "1::2" →
        resting.reportKey = (derive (acknowledged oneReport) false true).reportKey →
        (vm.setSessionState state message kind now resting).1.real.reportSince =
          vm.real.reportSince) ↔
      RestsOn oneReport false (L "1::2") :=
  acknowledged_reportKey_iff oneReport false (Or.inl (by decide)) (by decide) (by decide)

/-- The acknowledgement brings the older error up, and its age starts there. -/
theorem acknowledged_olderError :
    (derive olderError false true).state = .doneUnseen ∧
      (derive olderError false true).reportKey = L "1::2" ∧
      (derive (acknowledged olderError) false true).reportKey = L "2::4" ∧
      L "2::4" ≠ L "1::2" := by
  decide

end Axan.SessionState
