import Axan.Base.OrdMap
import Axan.ProgramStatus.Grammar

/-!
# The record store: `TerminalProgramStatus.cpp`

One store for each terminal: the records keyed by id in the order of `std::map`, the revision
counter stamped on every write, and the feature switch. The operations are those the VT parser and
the control call: a report, a new prompt, a closed connection, a reset, and the settings toggle.

* `Store`, `programStatusReport` and the other operations, `step`, `run` — the store as a state
  machine over `Op`. A report enters as the payload it was parsed from, so every report is one
  `parse` can produce.
* `ValidReport` — the shape the parser guarantees (`validReport_of_parse`).
* `step_cases` — what one operation can do: drop records, or write one under a fresh revision.
* `Invariant` — the store invariant; `Invariant.step` is the step lemma, `invariant_run` the run
  lemma, and `revision_run_le` bounds the counter, which is why a natural number stands for the
  `uint64_t`: it cannot wrap within `2^64` operations.

Logging is left out; `notifications` counts the calls of the changed callback.
-/

namespace Axan.ProgramStatus

open Axan.Base

/-- A stored record: the last report for its id, with the revision of that write.
Source: `Terminal.hpp` `ProgramStatusRecord` -/
structure ProgramStatusRecord where
  id : WString
  state : State
  app : WString
  effectiveApp : WString
  kind : Kind
  progress : Option UInt8
  title : WString
  msg : WString
  revision : ℕ
  deriving DecidableEq, Repr

/-- The records of a terminal, by id. -/
abbrev Records := OrdMap WString ProgramStatusRecord

/-- The part of a terminal the protocol touches. -/
structure Store where
  /-- The records, by id. -/
  records : Records
  /-- The counter stamped on every write. -/
  revision : ℕ
  /-- The feature switch. -/
  enabled : Bool
  /-- Whether a shell command is marked as running (a reset ends it). -/
  shellCommandRunning : Bool
  /-- How often the changed callback ran. -/
  notifications : ℕ

namespace Store

/-- A store without records. -/
def empty (revision : ℕ) (enabled running : Bool) : Store :=
  ⟨OrdMap.empty, revision, enabled, running, 0⟩

/-- Source: `_programStatusNotify` -/
def notify (s : Store) : Store := { s with notifications := s.notifications + 1 }

/-- A notification does not change the records. -/
@[simp] theorem notify_records (s : Store) : s.notify.records = s.records := rfl
@[simp] theorem notify_revision (s : Store) : s.notify.revision = s.revision := rfl
@[simp] theorem notify_enabled (s : Store) : s.notify.enabled = s.enabled := rfl

end Store

/-! ### Clearing a subtree -/

/-- Is the key the id itself or under it? Source: `IsInSubtree` -/
def isInSubtree (key id : WString) : Bool :=
  key.length ≥ id.length && key.take id.length = id &&
    (key.length = id.length || key[id.length]? = some (wide '/'))

/-- The scan of `state=clear` with an id, from the lower bound on. -/
def clearScan (id : WString) :
    List (WString × ProgramStatusRecord) → List (WString × ProgramStatusRecord)
  | [] => []
  | e :: rest =>
      if isInSubtree e.1 id then clearScan id rest
      else if e.1.length ≥ id.length && e.1.take id.length = id then
        -- shares the prefix but is not a descendant: keep scanning
        e :: clearScan id rest
      else e :: rest

theorem clearScan_sublist (id : WString) (l : List (WString × ProgramStatusRecord)) :
    (clearScan id l).Sublist l := by
  induction l with
  | nil => exact List.Sublist.refl _
  | cons e rest ih =>
      rw [clearScan]
      split_ifs
      · exact ih.cons e
      · exact ih.cons_cons e
      · exact List.Sublist.refl _

/-- The entries a subtree clear leaves: those below the lower bound, then the scan. -/
def clearSubtree (records : Records) (id : WString) : Records :=
  records.restrict
    (records.entries.takeWhile (fun e => e.1 < id) ++
      clearScan id (records.entries.dropWhile fun e => e.1 < id)) <| by
    have h := (List.Sublist.refl (records.entries.takeWhile fun e => e.1 < id)).append
      (clearScan_sublist id (records.entries.dropWhile fun e => e.1 < id))
    rwa [List.takeWhile_append_dropWhile] at h

/-! ### Writing a record -/

/-- The entry with the lowest revision, the first one on a tie. -/
def oldest : List (WString × ProgramStatusRecord) → Option (WString × ProgramStatusRecord)
  | [] => none
  | e :: rest =>
      some (rest.foldl (fun o scan => if scan.2.revision < o.2.revision then scan else o) e)

/-- Evict the least recently updated record when a new id meets a full store. -/
def makeRoom (records : Records) (id : WString) : Records :=
  if records.find? id = none ∧ records.size ≥ maxRecords then
    match oldest records.entries with
    | none => records
    | some e => records.erase e.1
  else records

/-- A report as the record it becomes: every field is replaced. -/
def recordOf (report : Report) (revision : ℕ) : ProgramStatusRecord where
  id := report.id
  state := report.state
  app := report.app
  effectiveApp := []
  kind := report.kind
  progress := report.progress
  title := report.title
  msg := report.msg
  revision := revision

namespace Store

/-- Source: `Terminal::ProgramStatusReport`, the branch of `state=clear` -/
def clear (s : Store) (id : WString) : Store :=
  { s with records := if id.isEmpty then OrdMap.empty else clearSubtree s.records id }

/-- Source: `Terminal::ProgramStatusReport`, from the eviction to the revision stamp -/
def write (s : Store) (report : Report) : Store :=
  { s with
    records := (makeRoom s.records report.id).insert report.id (recordOf report (s.revision + 1))
    revision := s.revision + 1 }

/-- Apply a parsed report. Source: `Terminal::ProgramStatusReport` -/
def programStatusReport (s : Store) (result : ParseResult) : Store :=
  if !s.enabled then s
  else
    match result with
    | .report report _ =>
        if report.state = .clear then (s.clear report.id).notify else (s.write report).notify
    | _ => s

/-- Drop the live records; notify when there was one. Source: `Terminal::_programStatusDropLive`
with its two callers `ProgramStatusPromptStarted` and `ProgramStatusDropLive` -/
def dropLive (s : Store) : Store :=
  let kept := s.records.filter fun e => !isLive e.2.state
  if kept.size = s.records.size then s else { s with records := kept }.notify

/-- A new shell prompt (OSC 133;A). -/
def programStatusPromptStarted (s : Store) : Store := s.dropLive

/-- Process exit or connection closed; the reason is only logged. -/
def programStatusDropLive (s : Store) (_reason : String) : Store := s.dropLive

/-- Source: `Terminal::ShellCommandEnded` -/
def shellCommandEnded (s : Store) : Store := { s with shellCommandRunning := false }

/-- A full reset (RIS). Source: `Terminal::ProgramStatusReset` -/
def programStatusReset (s : Store) : Store :=
  let s := s.shellCommandEnded
  if s.records.size = 0 then s else { s with records := OrdMap.empty }.notify

/-- The feature switch; turning it off drops what was collected.
Source: `Terminal::SetProgramStatusEnabled` -/
def setProgramStatusEnabled (s : Store) (enabled : Bool) : Store :=
  if s.enabled = enabled then s
  else
    let s := { s with enabled := enabled }
    if !enabled && s.records.size ≠ 0 then { s with records := OrdMap.empty }.notify else s

end Store

/-! ### Runs -/

/-- The operations that reach a store. -/
inductive Op where
  | report (payload : WString)
  | promptStarted
  | dropLive (reason : String)
  | reset
  | setEnabled (enabled : Bool)

/-- One operation. -/
def step (s : Store) : Op → Store
  | .report payload => s.programStatusReport (parse payload)
  | .promptStarted => s.programStatusPromptStarted
  | .dropLive reason => s.programStatusDropLive reason
  | .reset => s.programStatusReset
  | .setEnabled enabled => s.setProgramStatusEnabled enabled

/-- A finite run. -/
def run (s : Store) (ops : List Op) : Store := ops.foldl step s

/-- An empty run changes nothing. -/
@[simp] theorem run_nil (s : Store) : run s [] = s := rfl

/-- The last operation comes last. -/
theorem run_append_singleton (s : Store) (ops : List Op) (op : Op) :
    run s (ops ++ [op]) = step (run s ops) op := by
  simp [run]

/-! ## What the parser guarantees -/

/-- The shape of a report: its id, and which states carry a kind or a progress value. -/
structure ValidReport (r : Report) : Prop where
  id : r.id = [] ∨ isValidId r.id = true
  kind : r.kind ≠ .none → r.state = .blocked
  progress : ∀ p, r.progress = some p → (r.state = .working ∨ r.state = .blocked) ∧ p.toNat ≤ 100

/-- The value of a key stands in one of the pairs. -/
theorem mem_of_lastOf {key v : WString} {ps : List WString}
    (h : Grammar.lastOf key ps = some v) :
    ∃ pair ∈ ps, Grammar.keyValue pair = some (key, v) := by
  have hmem : v ∈ ps.filterMap (Grammar.valueOf key) := List.mem_of_getLast? h
  obtain ⟨pair, hp, hv⟩ := List.mem_filterMap.mp hmem
  refine ⟨pair, hp, ?_⟩
  unfold Grammar.valueOf at hv
  cases hk : Grammar.keyValue pair with
  | none => rw [hk] at hv; cases hv
  | some kv =>
      obtain ⟨k, w⟩ := kv
      rw [hk] at hv
      simp only at hv
      split_ifs at hv with hc
      cases hv
      rw [hc.1]

/-- Every report the parser returns has the shape. -/
theorem validReport_of_parse {payload : WString} {r : Report} {n : ℕ}
    (h : parse payload = .report r n) : ValidReport r := by
  have hd := (parse_eq_report_iff payload r).mp ⟨n, h⟩
  refine ⟨?_, fun hk => ((hd.kind r.kind hk).mp rfl).1, fun p hp => ?_⟩
  · rw [hd.id]
    cases hl : Grammar.lastValue (L "id") payload with
    | none => exact Or.inl rfl
    | some v =>
        obtain ⟨pair, hp, hv⟩ := mem_of_lastOf hl
        exact Or.inr ((hd.pairs_ok pair hp).id_valid v hv)
  · obtain ⟨hs, v, -, hv⟩ := (hd.progress p).mp hp
    exact ⟨hs, hv.le⟩

/-! ## What one operation can do -/

/-- The oldest record is one of the records. -/
theorem oldest_mem {l : List (WString × ProgramStatusRecord)} {e : WString × ProgramStatusRecord}
    (h : oldest l = some e) : e ∈ l := by
  cases l with
  | nil => cases h
  | cons a rest =>
      have hfold : ∀ (l : List (WString × ProgramStatusRecord)) (o : WString × ProgramStatusRecord),
          l.foldl (fun o scan => if scan.2.revision < o.2.revision then scan else o) o ∈ o :: l := by
        intro l
        induction l with
        | nil => simp
        | cons b l ih =>
            intro o
            rw [List.foldl_cons]
            split_ifs
            · exact List.mem_cons_of_mem _ (ih b)
            · rcases List.mem_cons.mp (ih o) with h | h
              · rw [h]; exact List.mem_cons_self
              · exact List.mem_cons_of_mem _ (List.mem_cons_of_mem _ h)
      simp only [oldest, Option.some.injEq] at h
      rw [← h]
      exact hfold rest a

theorem makeRoom_sublist (records : Records) (id : WString) :
    (makeRoom records id).entries.Sublist records.entries := by
  unfold makeRoom
  split_ifs
  · cases oldest records.entries with
    | none => exact List.Sublist.refl _
    | some e => exact List.filter_sublist
  · exact List.Sublist.refl _

/-- After making room, a write ends with at most `maxRecords` records. -/
theorem size_write_le {records : Records} (h : records.size ≤ maxRecords) (id : WString)
    (r : ProgramStatusRecord) : ((makeRoom records id).insert id r).size ≤ maxRecords := by
  unfold makeRoom
  split_ifs with hfull
  · cases ho : oldest records.entries with
    | none =>
        -- a full store has an entry to evict
        have hnil : records.entries = [] := by
          cases hr : records.entries with
          | nil => rfl
          | cons a l => rw [hr] at ho; cases ho
        have : maxRecords ≤ 0 := by simpa [OrdMap.size, hnil] using hfull.2
        exact absurd this (by decide)
    | some e =>
        have h₁ := OrdMap.size_erase_of_mem (oldest_mem ho)
        have h₂ := OrdMap.size_insert_le (records.erase e.1) id r
        show ((records.erase e.1).insert id r).size ≤ maxRecords
        omega
  · cases hf : records.find? id with
    | none =>
        have h₁ := OrdMap.size_insert_le records id r
        have : ¬records.size ≥ maxRecords := fun hs => hfull ⟨hf, hs⟩
        omega
    | some w =>
        rw [OrdMap.size_insert_of_find? hf]
        exact h

/-- **What one operation can do**: keep a part of the records under the same counter, or write
one record of a valid, non-clear report under the next revision. A disabled store keeps nothing
it had not before, and an operation that leaves the switch off leaves what was there or nothing.
Every operation is one of these, so an invariant needs two cases. -/
theorem step_cases (s : Store) (op : Op) :
    ((step s op).records.entries.Sublist s.records.entries ∧
      (step s op).revision = s.revision ∧
      ((step s op).enabled = false → s.enabled = false ∨ (step s op).records.entries = [])) ∨
    (∃ r : Report, ValidReport r ∧ r.state ≠ .clear ∧ s.enabled = true ∧
      step s op = (s.write r).notify) := by
  have hempty : ([] : List (WString × ProgramStatusRecord)).Sublist s.records.entries :=
    List.nil_sublist _
  cases op with
  | report payload =>
      simp only [step, Store.programStatusReport]
      cases hs : s.enabled with
      | false => exact Or.inl ⟨List.Sublist.refl _, rfl, fun _ => Or.inl rfl⟩
      | true =>
          simp only [Bool.not_true, Bool.false_eq_true, if_false]
          cases hp : parse payload with
          | query => exact Or.inl ⟨List.Sublist.refl _, rfl, fun h => by simp [hs] at h⟩
          | discarded why => exact Or.inl ⟨List.Sublist.refl _, rfl, fun h => by simp [hs] at h⟩
          | report r n =>
              simp only
              split_ifs with hc
              · refine Or.inl ⟨?_, rfl, fun h => by simp [Store.clear, hs] at h⟩
                simp only [Store.notify_records, Store.clear]
                split_ifs
                · exact hempty
                · have h := (List.Sublist.refl (s.records.entries.takeWhile fun e => e.1 < r.id)).append
                    (clearScan_sublist r.id (s.records.entries.dropWhile fun e => e.1 < r.id))
                  rwa [List.takeWhile_append_dropWhile] at h
              · exact Or.inr ⟨r, validReport_of_parse hp, hc, trivial, rfl⟩
  | promptStarted =>
      refine Or.inl ?_
      simp only [step, Store.programStatusPromptStarted, Store.dropLive]
      split_ifs
      · exact ⟨List.Sublist.refl _, rfl, fun h => Or.inl h⟩
      · exact ⟨List.filter_sublist, rfl, fun h => Or.inl h⟩
  | dropLive reason =>
      refine Or.inl ?_
      simp only [step, Store.programStatusDropLive, Store.dropLive]
      split_ifs
      · exact ⟨List.Sublist.refl _, rfl, fun h => Or.inl h⟩
      · exact ⟨List.filter_sublist, rfl, fun h => Or.inl h⟩
  | reset =>
      refine Or.inl ?_
      simp only [step, Store.programStatusReset]
      split_ifs
      · exact ⟨List.Sublist.refl _, rfl, fun h => Or.inl h⟩
      · exact ⟨hempty, rfl, fun h => Or.inl h⟩
  | setEnabled enabled =>
      refine Or.inl ?_
      simp only [step, Store.setProgramStatusEnabled]
      split_ifs with h₁ h₂
      · exact ⟨List.Sublist.refl _, rfl, fun h => Or.inl h⟩
      · exact ⟨hempty, rfl, fun _ => Or.inr rfl⟩
      · refine ⟨List.Sublist.refl _, rfl, fun h => Or.inr ?_⟩
        -- switched off with nothing to drop
        simp only at h
        simp only [h, Bool.not_false, Bool.true_and, decide_eq_true_eq, not_not] at h₂
        exact List.length_eq_zero_iff.mp h₂

/-! ## The invariant -/

/-- **The store invariant.** -/
structure Invariant (s : Store) : Prop where
  size_le : s.records.size ≤ maxRecords
  key : ∀ e ∈ s.records.entries, e.2.id = e.1 ∧ (e.1 = [] ∨ isValidId e.1 = true)
  revisions_distinct : s.records.entries.Pairwise fun a b => a.2.revision ≠ b.2.revision
  revision_le : ∀ e ∈ s.records.entries, e.2.revision ≤ s.revision
  not_clear : ∀ e ∈ s.records.entries, e.2.state ≠ .clear
  kind : ∀ e ∈ s.records.entries, e.2.kind ≠ .none → e.2.state = .blocked
  progress : ∀ e ∈ s.records.entries, ∀ p, e.2.progress = some p →
    (e.2.state = .working ∨ e.2.state = .blocked) ∧ p.toNat ≤ 100
  disabled : s.enabled = false → s.records.entries = []

/-- The empty store keeps the invariant. -/
theorem invariant_empty (revision : ℕ) (enabled running : Bool) :
    Invariant (Store.empty revision enabled running) := by
  constructor <;> simp [Store.empty, OrdMap.size]

/-- Dropping records keeps the invariant. -/
theorem Invariant.of_sublist {s s' : Store} (h : Invariant s)
    (hsub : s'.records.entries.Sublist s.records.entries) (hrev : s'.revision = s.revision)
    (hoff : s'.enabled = false → s.enabled = false ∨ s'.records.entries = []) :
    Invariant s' where
  size_le := hsub.length_le.trans h.size_le
  key e he := h.key e (hsub.subset he)
  revisions_distinct := h.revisions_distinct.sublist hsub
  revision_le e he := by rw [hrev]; exact h.revision_le e (hsub.subset he)
  not_clear e he := h.not_clear e (hsub.subset he)
  kind e he := h.kind e (hsub.subset he)
  progress e he := h.progress e (hsub.subset he)
  disabled hd := by
    rcases hoff hd with h' | h'
    · exact List.sublist_nil.mp (h.disabled h' ▸ hsub)
    · exact h'

/-- Writing a valid report under the next revision keeps the invariant. -/
theorem Invariant.write {s : Store} (h : Invariant s) {r : Report} (hr : ValidReport r)
    (hc : r.state ≠ .clear) (hon : s.enabled = true) : Invariant (s.write r) := by
  have hsub := makeRoom_sublist s.records r.id
  have hmem : ∀ e ∈ (s.write r).records.entries,
      e = (r.id, recordOf r (s.revision + 1)) ∨ e ∈ s.records.entries := by
    intro e he
    rcases OrdMap.mem_insert_iff.mp he with he | ⟨he, -⟩
    · exact Or.inl he
    · exact Or.inr (hsub.subset he)
  refine ⟨size_write_le h.size_le r.id _, ?_, ?_, ?_, ?_, ?_, ?_, fun hoff => ?_⟩
  · intro e he
    rcases hmem e he with rfl | he
    · exact ⟨rfl, hr.id⟩
    · exact h.key e he
  · -- the new revision is above every stored one
    refine OrdMap.pairwise_insert (fun (a b : ProgramStatusRecord) hab => Ne.symm hab)
      (R := fun a b => a.revision ≠ b.revision) (h.revisions_distinct.sublist hsub) fun e he => ?_
    have := h.revision_le e (hsub.subset he)
    simp only [recordOf]
    omega
  · intro e he
    rcases hmem e he with rfl | he
    · exact le_refl _
    · exact (h.revision_le e he).trans (Nat.le_succ _)
  · intro e he
    rcases hmem e he with rfl | he
    · exact hc
    · exact h.not_clear e he
  · intro e he
    rcases hmem e he with rfl | he
    · exact hr.kind
    · exact h.kind e he
  · intro e he
    rcases hmem e he with rfl | he
    · exact hr.progress
    · exact h.progress e he
  · have : s.enabled = false := hoff
    rw [hon] at this
    cases this

/-- The step lemma. -/
theorem Invariant.step {s : Store} (h : Invariant s) (op : Op) : Invariant (step s op) := by
  rcases step_cases s op with ⟨hsub, hrev, hoff⟩ | ⟨r, hr, hc, hon, hs⟩
  · exact h.of_sublist hsub hrev hoff
  · rw [hs]
    exact (h.write hr hc hon).of_sublist (List.Sublist.refl _) rfl fun h' => Or.inl h'

/-- One operation raises the counter by at most one and never lowers it. -/
theorem revision_step (s : Store) (op : Op) :
    s.revision ≤ (step s op).revision ∧ (step s op).revision ≤ s.revision + 1 := by
  rcases step_cases s op with ⟨-, hrev, -⟩ | ⟨r, -, -, -, hs⟩
  · omega
  · rw [hs]
    simp [Store.write]

/-- The run lemma. -/
theorem invariant_run {s : Store} (h : Invariant s) (ops : List Op) : Invariant (run s ops) := by
  induction ops generalizing s with
  | nil => exact h
  | cons op ops ih => exact ih (h.step op)

/-- The counter counts at most the operations, so a 64-bit counter that starts at zero does not
wrap in fewer than `2^64` of them. -/
theorem revision_run_le (s : Store) (ops : List Op) :
    (run s ops).revision ≤ s.revision + ops.length := by
  induction ops generalizing s with
  | nil => simp
  | cons op ops ih =>
      have h₁ := ih (step s op)
      have h₂ := (revision_step s op).2
      simp only [run, List.foldl_cons, List.length_cons] at h₁ ⊢
      omega

/-- **Every store reached from an empty one satisfies the invariant, and the counter never
decreases**: after any run, and through any further run.
Source: `program-status-osc-7501.md` section 3 -/
theorem invariant_of_reachable (revision : ℕ) (enabled running : Bool) (ops more : List Op) :
    Invariant (run (Store.empty revision enabled running) ops) ∧
    (run (Store.empty revision enabled running) ops).revision ≤
      (run (Store.empty revision enabled running) (ops ++ more)).revision := by
  refine ⟨invariant_run (invariant_empty revision enabled running) ops, ?_⟩
  induction more using List.reverseRecOn with
  | nil => simp
  | append_singleton more op ih =>
      rw [← List.append_assoc, run_append_singleton]
      exact ih.trans (revision_step _ op).1

end Axan.ProgramStatus
