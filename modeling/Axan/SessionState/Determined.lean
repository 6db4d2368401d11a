import Axan.SessionState.Derive

/-!
# What `Derive` returns, and that the order does not matter

* `reports`, `rowStates` — the records of all panes with the ids of their panes, and the states a
  row is chosen from.
* `describe_eq`, `keepLoop_eq` — both loops of `Derive` are first maxima over these.
* `derive_determined` — the state is the strongest, its source and its text are those of the record
  that wins; panes and records in another order give the same row, when no two records tie.
-/

namespace Axan.SessionState

open Axan.Base

/-- A record, and the id of its pane. -/
abbrev Report := ℕ × RecordInput

/-- The records of all panes. -/
def reports (panes : List PaneInput) : List Report :=
  panes.flatMap fun p => p.records.map fun r => (p.paneId, r)

/-- The row states of all records, and of the panes without records. -/
def rowStates (panes : List PaneInput) : List State :=
  panes.flatMap fun p =>
    if p.records.isEmpty then [if p.commandRunning then .running else .idle]
    else p.records.map fromRecord

/-- What the first loop reads of its choices: a report, or the state of a pane without records. -/
abbrev View := Report ⊕ State

/-- The place of a report in its pane is not read. -/
def Cand.report (c : Cand) : Report := (c.pane.paneId, c.record)

def Item.view : Item → View
  | .record c => .inl c.report
  | .command s => .inr s

/-- The key of a choice. -/
def viewKey : View → ℕ ×ₗ ℕ ×ₗ ℕ ×ₗ ℕ
  | .inl x => toLex (rank (fromRecord x.2), toLex (1, toLex (x.2.isRoot.toNat, x.2.revision)))
  | .inr s => toLex (rank s, toLex (0, toLex (0, 0)))

def viewsOf (p : PaneInput) : List View :=
  if p.records.isEmpty then [.inr (if p.commandRunning then .running else .idle)]
  else p.records.map fun r => .inl (p.paneId, r)

/-- The choices of the first loop. -/
def views (panes : List PaneInput) : List View := panes.flatMap viewsOf

/-- The text of a report. -/
def Report.text (x : Report) : WString := if x.2.msg.isEmpty then x.2.title else x.2.msg

/-- Source: `ReportKey`, of a pane's id -/
def Report.key (x : Report) : WString :=
  L (toString x.1) ++ L ":" ++ x.2.id ++ L ":" ++ L (toString x.2.state.toNat)

/-- The row of a choice. -/
def describeView : View → Result
  | .inl x =>
      if fromRecord x.2 = .idle then { source := "osc7501" }
      else
        { state := fromRecord x.2
          source := "osc7501"
          message := Report.text x
          kind := if fromRecord x.2 = .needsYou then kindName x.2.kind else []
          reportKey :=
            if fromRecord x.2 = .doneUnseen ∨ fromRecord x.2 = .error then Report.key x else [] }
  | .inr s => { state := s, source := if s = .running then "osc133" else "none" }

/-! ### The first loop -/

section pick

/-- An item is seen under its key. -/
theorem viewKey_view (x : Item) : viewKey x.view = x.key := by
  cases x with
  | record c => rfl
  | command s => rfl

/-- The items are seen as the views. -/
theorem map_view_items (place : ℕ) (panes : List PaneInput) :
    (items place panes).map Item.view = views panes := by
  induction panes generalizing place with
  | nil => rfl
  | cons pane panes ih =>
      have hviews : views (pane :: panes) = viewsOf pane ++ views panes := List.flatMap_cons ..
      rw [items, List.map_append, ih, hviews]
      congr 1
      unfold itemsOf viewsOf
      by_cases hr : pane.records.isEmpty = true
      · rw [if_pos hr, if_pos hr]
        rfl
      · rw [if_neg hr, if_neg hr, candsOf, List.map_map, List.map_map]
        rfl

/-- Without a pane there is nothing to see. -/
theorem views_eq_nil {panes : List PaneInput} : views panes = [] ↔ panes = [] := by
  constructor
  · intro hnil
    cases panes with
    | nil => rfl
    | cons pane panes =>
        rw [views, List.flatMap_cons, List.append_eq_nil_iff, viewsOf] at hnil
        have hhead := hnil.1
        split_ifs at hhead with hr
        · rw [List.map_eq_nil_iff] at hhead
          rw [hhead] at hr
          exact absurd rfl hr
  · rintro rfl
    rfl

/-- The source a choice is shown with. -/
def SourceOf (b : Pick) : Prop :=
  b.source = match b.best with
    | some _ => "osc7501"
    | none => if b.state = .running then "osc133" else "none"

/-- One more pane keeps the source right. -/
theorem sourceOf_pane {b : Pick} (h : SourceOf b) (place : ℕ) (pane : PaneInput) :
    SourceOf (pickPane b place pane) := by
  unfold pickPane
  split_ifs
  · unfold pickCommand
    cases pane.commandRunning with
    | true =>
        simp only [if_true]
        split
        · exact rfl
        · exact h
    | false =>
        simp only [Bool.false_eq_true, if_false]
        split
        · exact rfl
        · exact h
  · generalize candsOf place pane = cs
    induction cs generalizing b with
    | nil => exact h
    | cons c cs ih =>
        apply ih
        unfold pickRecord
        split_ifs
        · exact rfl
        · exact h

/-- So it is at the end of the loop. -/
theorem sourceOf_pickLoop (panes : List PaneInput) : SourceOf (pickLoop 0 panes {}) := by
  have key : ∀ (panes : List PaneInput) (place : ℕ) (b : Pick), SourceOf b →
      SourceOf (pickLoop place panes b) := by
    intro panes
    induction panes with
    | nil => intro place b h; exact h
    | cons pane panes ih => intro place b h; exact ih _ _ (sourceOf_pane h place pane)
  exact key panes 0 {} rfl

/-- **The first loop describes the first maximum of the choices.** -/
theorem describe_eq (panes : List PaneInput) :
    describe (pickLoop 0 panes {}) =
      ((firstMax viewKey (views panes)).map describeView).getD {} := by
  have hrep := pickLoop_represents panes
  have hsource := sourceOf_pickLoop panes
  have hmax : firstMax viewKey (views panes) =
      (firstMax Item.key (items 0 panes)).map Item.view := by
    rw [← map_view_items 0 panes, firstMax_map]
    simp only [viewKey_view]
  rw [hmax]
  unfold SourceOf at hsource
  cases ho : firstMax Item.key (items 0 panes) with
  | none =>
      have hnil : views panes = [] := by
        rw [← map_view_items 0 panes, (firstMax_eq_none_iff Item.key _).mp ho]
        rfl
      rw [views_eq_nil.mp hnil]
      rfl
  | some o =>
      rw [ho] at hrep
      cases o with
      | record c =>
          obtain ⟨-, hstate, hbest⟩ := hrep
          rw [hbest] at hsource
          rw [describe, hbest]
          simp only [hstate, hsource, Option.map_some, Option.getD_some]
          rw [Item.view, describeView]
          by_cases hidle : fromRecord c.record = .idle
          · rw [if_pos hidle, if_pos (show fromRecord c.report.2 = .idle from hidle), hidle]
          · rw [if_neg hidle, if_neg (show ¬fromRecord c.report.2 = .idle from hidle)]
            rfl
      | command s =>
          obtain ⟨-, hstate, hbest⟩ := hrep
          rw [hbest] at hsource
          rw [describe, hbest]
          simp only [hstate, hsource]
          rfl

end pick

/-! ### The second loop -/

/-- A done or error record. -/
def RecordInput.isOutcome (r : RecordInput) : Bool := r.state = .done || r.state = .error

/-- The reports the second loop chooses from: outcomes that are seen. -/
def keepable (x : Report) : Bool := x.2.seen && x.2.isOutcome

/-- Error before done, then the root, then the revision. -/
def keepKey (x : Report) : ℕ ×ₗ ℕ ×ₗ ℕ :=
  toLex ((decide (x.2.state = .error)).toNat, toLex (x.2.isRoot.toNat, x.2.revision))

/-- The report kept. -/
def keptReport (panes : List PaneInput) : Option Report :=
  firstMax keepKey ((reports panes).filter keepable)

section keep

/-- The reports are those of each pane. -/
theorem reports_cons (p : PaneInput) (panes : List PaneInput) :
    reports (p :: panes) = (p.records.map fun r => (p.paneId, r)) ++ reports panes :=
  List.flatMap_cons ..

/-- The candidates are the reports. -/
theorem map_report_cands (place : ℕ) (panes : List PaneInput) :
    (cands place panes).map Cand.report = reports panes := by
  induction panes generalizing place with
  | nil => rfl
  | cons pane panes ih =>
      rw [cands, List.map_append, ih, reports_cons, candsOf, List.map_map]
      rfl

/-- The root is newer, then the higher revision. -/
theorem newer_iff {r s : RecordInput} : newer r s = true ↔
    s.isRoot.toNat < r.isRoot.toNat ∨ s.isRoot.toNat = r.isRoot.toNat ∧ s.revision < r.revision := by
  unfold newer
  cases r.isRoot <;> cases s.isRoot <;> simp

/-- An error is kept before the newer outcome. -/
theorem keepKey_lt_iff {x y : Report} (hx : x.2.isOutcome = true) (hy : y.2.isOutcome = true) :
    keepKey x < keepKey y ↔
      (y.2.state = .error ∧ x.2.state ≠ .error) ∨ (y.2.state = x.2.state ∧ newer y.2 x.2 = true) := by
  unfold RecordInput.isOutcome at hx hy
  rw [Bool.or_eq_true, decide_eq_true_eq, decide_eq_true_eq] at hx hy
  rw [newer_iff, keepKey, keepKey]
  simp only [Prod.Lex.toLex_lt_toLex, toNat_lt_toNat]
  rcases hx with hx | hx <;> rcases hy with hy | hy <;> simp [hx, hy]

/-- A report replaces the one kept so far when its key is larger. -/
theorem keepRecord_eq {kept : Option Cand} (hkept : ∀ k ∈ kept, k.record.isOutcome = true)
    (c : Cand) : keepRecord kept c =
      if keepable c.report then keepMax (fun d : Cand => keepKey d.report) kept c else kept := by
  have hskip : (!c.record.seen || (c.record.state ≠ .done && c.record.state ≠ .error)) =
      !keepable c.report := by
    unfold keepable RecordInput.isOutcome Cand.report
    cases c.record.seen <;> cases c.record.state <;> rfl
  unfold keepRecord
  rw [hskip]
  cases hc : keepable c.report with
  | false => rfl
  | true =>
      simp only [Bool.not_true, Bool.false_eq_true, if_false, if_true]
      cases kept with
      | none => rfl
      | some k =>
          have hbeats : ((c.record.state = .error && k.record.state ≠ .error) ||
              (c.record.state = k.record.state && newer c.record k.record)) = true ↔
              keepKey k.report < keepKey c.report := by
            have hout : c.record.isOutcome = true := (Bool.and_eq_true _ _ ▸ hc).2
            rw [keepKey_lt_iff (x := k.report) (hkept k rfl) hout]
            simp [Cand.report]
          simp only [keepMax]
          by_cases hlt : keepKey k.report < keepKey c.report
          · rw [if_pos hlt, if_pos (hbeats.mpr hlt)]
          · rw [if_neg hlt, if_neg (hbeats.not.mpr hlt)]

/-- **The second loop finds the first maximum of the seen outcomes.** -/
theorem keepLoop_eq (panes : List PaneInput) :
    (keepLoop panes).map Cand.report = keptReport panes := by
  have key : ∀ (cs : List Cand) (kept : Option Cand), (∀ k ∈ kept, k.record.isOutcome = true) →
      cs.foldl keepRecord kept =
        (cs.filter fun c => keepable c.report).foldl (keepMax fun d => keepKey d.report) kept := by
    intro cs
    induction cs with
    | nil => intro kept _; rfl
    | cons c cs ih =>
        intro kept hkept
        rw [List.foldl_cons, keepRecord_eq hkept, List.filter_cons]
        split_ifs with hc
        · rw [List.foldl_cons]
          apply ih
          intro k hk
          have hout : c.record.isOutcome = true := (Bool.and_eq_true _ _ ▸ hc).2
          cases kept with
          | none =>
              obtain rfl := Option.some.inj hk
              exact hout
          | some k' =>
              simp only [keepMax] at hk
              split_ifs at hk
              · obtain rfl := Option.some.inj hk
                exact hout
              · exact hkept k hk
        · exact ih kept hkept
  rw [keepLoop, key _ _ (by simp), keptReport, ← map_report_cands 0 panes, List.filter_map,
    firstMax_map]
  rfl

end keep

/-! ### The row -/

/-- What a kept report puts on a row. -/
def keptView (x : Report) : Retained × WString := (⟨true, x.2.state, x.text⟩, x.key)

/-- A row without its agent name, from what the two loops found. -/
def rowFrom (bellIndicator keepAfterSeen : Bool) (picked : Option Result)
    (kept : Option (Retained × WString)) (anyRecords : Bool) : Result :=
  let r := withBell bellIndicator (picked.getD {})
  let r :=
    if keepAfterSeen && (r.state = .idle || r.state = .running) then
      match kept with
      | none => r
      | some k => { r with retained := k.1, reportKey := k.2 }
    else r
  { r with slot := slotOf r.state anyRecords, agentName := [] }

section row

variable (panes : List PaneInput) (bellIndicator keepAfterSeen : Bool)

/-- A quiet row keeps the first outcome, if it is to keep one. -/
theorem withRetained_eq (r : Result) :
    withRetained keepAfterSeen panes r =
      if keepAfterSeen && (r.state = .idle || r.state = .running) then
        match (keptReport panes).map keptView with
        | none => r
        | some k => { r with retained := k.1, reportKey := k.2 }
      else r := by
  rw [withRetained, ← keepLoop_eq]
  cases keepLoop panes with
  | none => rfl
  | some k => rfl

/-- The row, its agent apart, is that of the strongest view. -/
theorem derive_eq :
    { derive panes bellIndicator keepAfterSeen with agentName := [] } =
      rowFrom bellIndicator keepAfterSeen ((firstMax viewKey (views panes)).map describeView)
        ((keptReport panes).map keptView) (panes.any fun p => !p.records.isEmpty) := by
  unfold derive rowFrom
  simp only [describe_eq, withRetained_eq]

end row

/-! ### Another order -/

/-- The same panes in another order, and their records in another order. -/
def Reordered (panes panes' : List PaneInput) : Prop :=
  ∃ mid, panes.Perm mid ∧
    List.Forall₂ (fun p q => p.records.Perm q.records ∧ q = { p with records := q.records })
      mid panes'

/-- Two records that no tie-break tells apart. -/
def Tied (r s : RecordInput) : Prop :=
  r.state = s.state ∧ r.isRoot = s.isRoot ∧ r.revision = s.revision ∧
    (r.seen = s.seen ∨ r.state = .blocked ∨ r.state = .working)

section order

variable {panes panes' : List PaneInput}

/-- What is made of each pane is made in another order. -/
theorem Reordered.flatMap {α : Type} (h : Reordered panes panes') {f : PaneInput → List α}
    (hf : ∀ p q : PaneInput, p.records.Perm q.records → q = { p with records := q.records } →
      (f p).Perm (f q)) : (panes.flatMap f).Perm (panes'.flatMap f) := by
  obtain ⟨mid, hperm, hrel⟩ := h
  refine (hperm.flatMap_right f).trans ?_
  clear hperm
  induction hrel with
  | nil => exact List.Perm.refl _
  | cons hpq _ ih =>
      rw [List.flatMap_cons, List.flatMap_cons]
      exact (hf _ _ hpq.1 hpq.2).append ih

theorem Reordered.reports (h : Reordered panes panes') :
    (reports panes).Perm (reports panes') := by
  apply h.flatMap
  intro p q hperm hq
  rw [hq]
  exact hperm.map _

theorem Reordered.views (h : Reordered panes panes') : (views panes).Perm (views panes') := by
  apply h.flatMap
  intro p q hperm hq
  unfold viewsOf
  rw [hperm.isEmpty_eq, hq]
  dsimp only
  split_ifs
  · exact List.Perm.refl _
  · exact List.Perm.refl _
  · exact hperm.map _

/-- There is a record iff there is a report. -/
theorem any_records (panes : List PaneInput) :
    (panes.any fun p => !p.records.isEmpty) = !(reports panes).isEmpty := by
  induction panes with
  | nil => rfl
  | cons pane panes ih =>
      rw [List.any_cons, ih, reports_cons]
      cases pane.records with
      | nil => rfl
      | cons r records => rfl

/-- Different truth values have different numbers. -/
theorem toNat_injective : Function.Injective Bool.toNat := by decide

/-- Equal keys are equal comparisons. -/
theorem viewKey_report_inj {x y : Report} (h : viewKey (.inl x) = viewKey (.inl y)) :
    fromRecord x.2 = fromRecord y.2 ∧ x.2.isRoot = y.2.isRoot ∧ x.2.revision = y.2.revision := by
  obtain ⟨hrank, hrest⟩ := Prod.mk.inj (toLex_inj.mp h)
  obtain ⟨hroot, hrev⟩ := Prod.mk.inj (toLex_inj.mp (Prod.mk.inj (toLex_inj.mp hrest)).2)
  exact ⟨rank_injective hrank, toNat_injective hroot, hrev⟩

/-- Away from idle the row state tells the record state, and that an outcome is not seen. -/
theorem fromRecord_cases {r : RecordInput} (h : fromRecord r ≠ .idle) :
    (r.state = .blocked ∧ fromRecord r = .needsYou) ∨ (r.state = .working ∧ fromRecord r = .working) ∨
      (r.state = .error ∧ r.seen = false ∧ fromRecord r = .error) ∨
      (r.state = .done ∧ r.seen = false ∧ fromRecord r = .doneUnseen) := by
  unfold fromRecord at h ⊢
  cases hs : r.state <;> cases hseen : r.seen <;> simp [hs, hseen] at h ⊢

/-- Two reports with one key are tied. -/
theorem tied_of_viewKey {x y : Report} (h : viewKey (.inl x) = viewKey (.inl y))
    (hidle : fromRecord x.2 ≠ .idle) : Tied x.2 y.2 := by
  obtain ⟨hstate, hroot, hrev⟩ := viewKey_report_inj h
  have hy := fromRecord_cases (hstate ▸ hidle)
  rw [← hstate] at hy
  unfold Tied
  rcases fromRecord_cases hidle with ⟨hs, hx⟩ | ⟨hs, hx⟩ | ⟨hs, hseen, hx⟩ | ⟨hs, hseen, hx⟩ <;>
    simp [hx, hs] at hy ⊢ <;> simp [*]

/-- A tie has two sides. -/
theorem Tied.symm {r s : RecordInput} (h : Tied r s) : Tied s r := by
  obtain ⟨hstate, hroot, hrev, hseen⟩ := h
  refine ⟨hstate.symm, hroot.symm, hrev.symm, ?_⟩
  rw [← hstate]
  exact hseen.imp Eq.symm id

/-- Two reports that tie are one. -/
theorem eq_of_tied (h : (reports panes).Pairwise fun x y => ¬Tied x.2 y.2) {x y : Report}
    (hx : x ∈ reports panes) (hy : y ∈ reports panes) (htied : Tied x.2 y.2) : x = y := by
  have hsymm : Std.Symm fun x y : Report => ¬Tied x.2 y.2 := ⟨fun _ _ h h' => h h'.symm⟩
  by_contra hne
  exact h.forall hx hy hne htied

/-- A report is seen as one. -/
theorem inl_mem_views {x : Report} : .inl x ∈ views panes ↔ x ∈ reports panes := by
  rw [views, reports, List.mem_flatMap, List.mem_flatMap]
  apply exists_congr
  intro p
  apply and_congr_right
  intro _
  unfold viewsOf
  by_cases hempty : p.records.isEmpty = true
  · rw [if_pos hempty, List.isEmpty_iff.mp hempty]
    simp
  · rw [if_neg hempty]
    simp

/-- Choices of one key look the same, when no two records tie. -/
theorem describeView_congr (h : (reports panes).Pairwise fun x y => ¬Tied x.2 y.2) {x y : View}
    (hx : x ∈ views panes) (hy : y ∈ views panes) (hkey : viewKey x = viewKey y) :
    describeView x = describeView y := by
  cases x with
  | inl x =>
      cases y with
      | inl y =>
          by_cases hidle : fromRecord x.2 = .idle
          · have hidle' : fromRecord y.2 = .idle := (viewKey_report_inj hkey).1 ▸ hidle
            rw [describeView, describeView, if_pos hidle, if_pos hidle']
          · rw [eq_of_tied h (inl_mem_views.mp hx) (inl_mem_views.mp hy)
              (tied_of_viewKey hkey hidle)]
      | inr s =>
          have hrest := (Prod.mk.inj (toLex_inj.mp hkey)).2
          cases (Prod.mk.inj (toLex_inj.mp hrest)).1
  | inr s =>
      cases y with
      | inl y =>
          have hrest := (Prod.mk.inj (toLex_inj.mp hkey)).2
          cases (Prod.mk.inj (toLex_inj.mp hrest)).1
      | inr t => rw [rank_injective (Prod.mk.inj (toLex_inj.mp hkey)).1]

/-- So do the reports kept. -/
theorem keptView_congr (h : (reports panes).Pairwise fun x y => ¬Tied x.2 y.2) {x y : Report}
    (hx : x ∈ (reports panes).filter keepable) (hy : y ∈ (reports panes).filter keepable)
    (hkey : keepKey x = keepKey y) : keptView x = keptView y := by
  obtain ⟨hx, hkeepx⟩ := List.mem_filter.mp hx
  obtain ⟨hy, hkeepy⟩ := List.mem_filter.mp hy
  rw [keepable, Bool.and_eq_true] at hkeepx hkeepy
  obtain ⟨herror, hrest⟩ := Prod.mk.inj (toLex_inj.mp hkey)
  obtain ⟨hroot, hrev⟩ := Prod.mk.inj (toLex_inj.mp hrest)
  have hstate : x.2.state = y.2.state := by
    have hiff := toNat_injective herror
    have hox := hkeepx.2
    have hoy := hkeepy.2
    unfold RecordInput.isOutcome at hox hoy
    rw [decide_eq_decide] at hiff
    rw [Bool.or_eq_true, decide_eq_true_eq, decide_eq_true_eq] at hox hoy
    rcases hox with hox | hox
    · rcases hoy with hoy | hoy
      · rw [hox, hoy]
      · rw [hiff.mpr hoy] at hox
        cases hox
    · rw [hox, hiff.mp hox]
  rw [eq_of_tied h hx hy ⟨hstate, toNat_injective hroot, hrev,
    Or.inl (hkeepx.1.trans hkeepy.1.symm)⟩]

/-- **Another order gives the same row**, when no two records tie. -/
theorem derive_reordered (h : Reordered panes panes')
    (hties : (reports panes).Pairwise fun x y => ¬Tied x.2 y.2) (bellIndicator keepAfterSeen : Bool) :
    { derive panes bellIndicator keepAfterSeen with agentName := [] } =
      { derive panes' bellIndicator keepAfterSeen with agentName := [] } := by
  have hpick := firstMax_perm viewKey (f := describeView) h.views fun x hx y hy =>
    describeView_congr hties hx hy
  have hkeep := firstMax_perm keepKey (f := keptView) (h.reports.filter keepable) fun x hx y hy =>
    keptView_congr hties hx hy
  rw [derive_eq, derive_eq, any_records, any_records, h.reports.isEmpty_eq, hpick, keptReport, hkeep]
  rfl

end order

/-! ### What the row says -/

/-- The strongest of the states, or idle when there is no pane. -/
def Strongest (panes : List PaneInput) (s : State) : Prop :=
  (s ∈ rowStates panes ∧ ∀ t ∈ rowStates panes, rank t ≤ rank s) ∨ (panes = [] ∧ s = .idle)

/-- The tie-break of the first loop: the root, then the revision. -/
def precedence (r : RecordInput) : ℕ ×ₗ ℕ := toLex (r.isRoot.toNat, r.revision)

/-- A row, up to its slot, its agent name and the report kept. -/
structure Determined (panes : List PaneInput) (bellIndicator : Bool) (s : State) (r : Result) :
    Prop where
  strongest : Strongest panes s
  state : r.state = if s = .idle ∧ bellIndicator = true then .doneUnseen else s
  /-- The bell, a record of the strongest state, or the shell. -/
  source : r.source =
    if s = .idle ∧ bellIndicator = true then "bell"
    else if ∃ x ∈ reports panes, fromRecord x.2 = s then "osc7501"
    else if s = .running then "osc133" else "none"
  /-- A resting row has no text but the bell's. -/
  resting : s = .idle → r.message = (if bellIndicator then L "bell" else []) ∧ r.kind = []
  command : (∀ x ∈ reports panes, fromRecord x.2 ≠ s) → s ≠ .idle → r.message = [] ∧ r.kind = []
  /-- The text is that of a record of the strongest state that comes first. -/
  record : (∃ x ∈ reports panes, fromRecord x.2 = s) → s ≠ .idle →
    ∃ x ∈ reports panes, fromRecord x.2 = s ∧
      (∀ y ∈ reports panes, fromRecord y.2 = s → precedence y.2 ≤ precedence x.2) ∧
      r.message = x.text ∧ r.kind = if s = .needsYou then kindName x.2.kind else []

section spec

variable {panes : List PaneInput}

def View.state : View → State
  | .inl x => fromRecord x.2
  | .inr s => s

/-- The states are those of the views. -/
theorem rowStates_eq (panes : List PaneInput) : rowStates panes = (views panes).map View.state := by
  rw [rowStates, views, List.map_flatMap]
  congr 1
  funext p
  unfold viewsOf
  by_cases hempty : p.records.isEmpty = true
  · rw [if_pos hempty, if_pos hempty]
    rfl
  · rw [if_neg hempty, if_neg hempty, List.map_map]
    rfl

/-- The key compares the states first. -/
theorem rank_le_of_viewKey_le {x y : View} (h : viewKey x ≤ viewKey y) :
    rank x.state ≤ rank y.state := by
  have hfst : ∀ z : View, (ofLex (viewKey z)).1 = rank z.state := by
    intro z
    cases z <;> rfl
  rw [← hfst, ← hfst]
  rcases Prod.Lex.le_iff.mp h with hlt | ⟨heq, -⟩
  · exact hlt.le
  · exact heq.le

/-- Among records of one row state the key is the precedence. -/
theorem precedence_le {x y : Report} (h : viewKey (.inl y) ≤ viewKey (.inl x))
    (hstate : fromRecord y.2 = fromRecord x.2) : precedence y.2 ≤ precedence x.2 := by
  rcases Prod.Lex.toLex_le_toLex.mp h with hlt | ⟨-, hle⟩
  · dsimp only at hlt
    rw [hstate] at hlt
    exact absurd hlt (lt_irrefl _)
  · rcases Prod.Lex.toLex_le_toLex.mp hle with hlt | ⟨-, hle⟩
    · exact absurd hlt (lt_irrefl _)
    · exact hle

/-- A record wins over a pane without records. -/
theorem not_viewKey_le {x : Report} {s : State} (hstate : fromRecord x.2 = s) :
    ¬viewKey (.inl x) ≤ viewKey (.inr s) := by
  rw [not_le]
  apply Prod.Lex.toLex_lt_toLex.mpr
  refine Or.inr ⟨congrArg rank hstate.symm, ?_⟩
  apply Prod.Lex.toLex_lt_toLex.mpr
  exact Or.inl Nat.zero_lt_one

/-- The bell rings on a resting row only. -/
theorem withBell_of_ne {bellIndicator : Bool} {r : Result} (h : r.state ≠ .idle) :
    withBell bellIndicator r = r := by
  rw [withBell, if_neg]
  simp [h]

/-- There it is shown as done. -/
theorem withBell_of_idle {r : Result} (h : r.state = .idle) (bellIndicator : Bool) :
    withBell bellIndicator r =
      if bellIndicator then
        { r with state := .doneUnseen, message := L "bell", kind := [], source := "bell" }
      else r := by
  rw [withBell, h]
  cases bellIndicator <;> rfl

/-- The description of the first view is the row. -/
theorem determined_describe (panes : List PaneInput) (bellIndicator : Bool) :
    ∃ s, Determined panes bellIndicator s
      (withBell bellIndicator
        (((firstMax viewKey (views panes)).map describeView).getD {})) := by
  cases h : firstMax viewKey (views panes) with
  | none =>
      obtain rfl : panes = [] := views_eq_nil.mp ((firstMax_eq_none_iff viewKey _).mp h)
      refine ⟨.idle, ?_⟩
      rw [Option.map_none, Option.getD_none, withBell_of_idle rfl]
      refine ⟨Or.inr ⟨rfl, rfl⟩, ?_, ?_, fun _ => ?_, fun _ hne => absurd rfl hne,
        fun _ hne => absurd rfl hne⟩ <;>
      cases bellIndicator <;> simp [reports]
  | some v =>
      have hmem := firstMax_mem viewKey h
      have hmax : Strongest panes v.state := by
        refine Or.inl ⟨?_, fun t ht => ?_⟩
        · rw [rowStates_eq]
          exact List.mem_map_of_mem hmem
        · rw [rowStates_eq] at ht
          obtain ⟨w, hw, rfl⟩ := List.mem_map.mp ht
          exact rank_le_of_viewKey_le (le_firstMax viewKey h hw)
      refine ⟨v.state, ?_⟩
      rw [Option.map_some, Option.getD_some]
      cases v with
      | inl x =>
          have hx : x ∈ reports panes := inl_mem_views.mp hmem
          have hex : ∃ y ∈ reports panes, fromRecord y.2 = fromRecord x.2 := ⟨x, hx, rfl⟩
          have hprec : ∀ y ∈ reports panes, fromRecord y.2 = fromRecord x.2 →
              precedence y.2 ≤ precedence x.2 := fun y hy hstate =>
            precedence_le (le_firstMax viewKey h (inl_mem_views.mpr hy)) hstate
          rw [View.state] at hmax ⊢
          rw [describeView]
          by_cases hidle : fromRecord x.2 = .idle
          · rw [if_pos hidle, withBell_of_idle rfl]
            refine ⟨hmax, ?_, ?_, fun _ => ?_, fun _ hne => absurd hidle hne,
              fun _ hne => absurd hidle hne⟩
            · cases bellIndicator <;> simp [hidle]
            · rw [if_pos hex]
              cases bellIndicator <;> simp [hidle]
            · cases bellIndicator <;> simp
          · have hbell : ¬(fromRecord x.2 = .idle ∧ bellIndicator = true) := fun hc => hidle hc.1
            rw [if_neg hidle, withBell_of_ne hidle]
            refine ⟨hmax, ?_, ?_, fun hs => absurd hs hidle, fun hno => absurd rfl (hno x hx),
              fun _ _ => ⟨x, hx, rfl, hprec, rfl, rfl⟩⟩
            · rw [if_neg hbell]
            · rw [if_neg hbell, if_pos hex]
      | inr s =>
          have hno : ¬∃ y ∈ reports panes, fromRecord y.2 = s := by
            rintro ⟨y, hy, hstate⟩
            exact not_viewKey_le hstate (le_firstMax viewKey h (inl_mem_views.mpr hy))
          rw [View.state] at hmax ⊢
          rw [describeView]
          by_cases hidle : s = .idle
          · subst hidle
            rw [withBell_of_idle rfl]
            refine ⟨hmax, ?_, ?_, fun _ => ?_, fun _ hne => absurd rfl hne,
              fun hex => absurd hex hno⟩
            · cases bellIndicator <;> simp
            · rw [if_neg hno]
              cases bellIndicator <;> simp
            · cases bellIndicator <;> simp
          · have hbell : ¬(s = .idle ∧ bellIndicator = true) := fun hc => hidle hc.1
            rw [withBell_of_ne hidle]
            refine ⟨hmax, ?_, ?_, fun hs => absurd hs hidle, fun _ _ => ⟨rfl, rfl⟩,
              fun hex => absurd hex hno⟩
            · rw [if_neg hbell]
            · rw [if_neg hbell, if_neg hno]

/-- The other fields do not count. -/
theorem Determined.of_fields {bellIndicator : Bool} {s : State} {r r' : Result}
    (h : Determined panes bellIndicator s r) (hstate : r'.state = r.state)
    (hsource : r'.source = r.source) (hmessage : r'.message = r.message) (hkind : r'.kind = r.kind) :
    Determined panes bellIndicator s r' := by
  refine ⟨h.strongest, ?_, ?_, ?_, ?_, ?_⟩
  · rw [hstate, h.state]
  · rw [hsource, h.source]
  · rw [hmessage, hkind]
    exact h.resting
  · rw [hmessage, hkind]
    exact h.command
  · rw [hmessage, hkind]
    exact h.record

/-- Keeping a report changes the report kept and the report key. -/
theorem exists_withRetained (keepAfterSeen : Bool) (panes : List PaneInput) (r : Result) :
    ∃ retained key, withRetained keepAfterSeen panes r =
      { r with retained := retained, reportKey := key } := by
  unfold withRetained
  split
  · cases keepLoop panes with
    | none => exact ⟨r.retained, r.reportKey, rfl⟩
    | some k => exact ⟨_, _, rfl⟩
  · exact ⟨r.retained, r.reportKey, rfl⟩

end spec

/-- **What `Derive` returns**: the strongest state, the source and the text of the record that wins,
and from `keepAfterSeen` the report kept and its key and nothing else. The order of the panes, and
of the records in a pane, shows in the agent name alone, unless two records tie. -/
theorem derive_determined (panes : List PaneInput) (bellIndicator keepAfterSeen : Bool) :
    (∃ s, Determined panes bellIndicator s (derive panes bellIndicator keepAfterSeen)) ∧
    (∃ retained key, derive panes bellIndicator true =
      { derive panes bellIndicator false with retained := retained, reportKey := key }) ∧
    ∀ panes', Reordered panes panes' → ((reports panes).Pairwise fun x y => ¬Tied x.2 y.2) →
      { derive panes bellIndicator keepAfterSeen with agentName := [] } =
        { derive panes' bellIndicator keepAfterSeen with agentName := [] } := by
  refine ⟨?_, ?_, fun panes' h hties => derive_reordered h hties bellIndicator keepAfterSeen⟩
  · obtain ⟨s, hs⟩ := determined_describe panes bellIndicator
    rw [← describe_eq] at hs
    obtain ⟨retained, key, hr⟩ := exists_withRetained keepAfterSeen panes
      (withBell bellIndicator (describe (pickLoop 0 panes {})))
    refine ⟨s, ?_⟩
    unfold derive
    simp only [hr]
    exact hs.of_fields rfl rfl rfl rfl
  · obtain ⟨retained, key, hr⟩ := exists_withRetained true panes
      (withBell bellIndicator (describe (pickLoop 0 panes {})))
    refine ⟨retained, key, ?_⟩
    unfold derive
    simp only [hr]
    rfl

/-- A root record of revision 1. -/
def blockedRecord (msg : WString) (seen : Bool) : RecordInput :=
  ⟨true, [], .blocked, .none, msg, [], 1, seen⟩

def paneOf (paneId : ℕ) (r : RecordInput) : PaneInput := ⟨[r], false, paneId, []⟩

/-- Two panes in the other order. -/
theorem reordered_swap (p q : PaneInput) : Reordered [p, q] [q, p] :=
  ⟨_, List.Perm.swap _ _ _, List.forall₂_same.mpr fun _ _ => ⟨List.Perm.refl _, rfl⟩⟩

theorem derive_determined_swap :
    { derive [paneOf 1 (blockedRecord (L "a") true), paneOf 2 ⟨true, [], .idle, .none, [], [], 1, true⟩]
        true true with agentName := [] } =
      { derive [paneOf 2 ⟨true, [], .idle, .none, [], [], 1, true⟩, paneOf 1 (blockedRecord (L "a") true)]
        true true with agentName := [] } :=
  (derive_determined _ true true).2.2 _ (reordered_swap _ _) (by
    simp [reports, paneOf, blockedRecord, Tied])

/-- A pane whose report has been seen. -/
def seenPanes : List PaneInput := [paneOf 1 ⟨true, [], .done, .none, L "ready", [], 1, true⟩]

/-- Two blocked records that only the seen flag tells apart: the first pane's message is shown. A
resting record gives no message, and the bell takes its place as the source. -/
theorem derive_order_shows :
    ¬(∀ panes panes', Reordered panes panes' →
      ((reports panes).Pairwise fun x y => ¬(x.2.state = y.2.state ∧ x.2.seen = y.2.seen ∧
        x.2.isRoot = y.2.isRoot ∧ x.2.revision = y.2.revision)) →
      (derive panes false false).message = (derive panes' false false).message) ∧
    rowStates seenPanes = [.idle] ∧ (derive seenPanes false false).message = [] ∧
      (derive seenPanes true false).source = "bell" := by
  refine ⟨fun hall => ?_, by decide⟩
  have h := hall [paneOf 1 (blockedRecord (L "a") true), paneOf 2 (blockedRecord (L "b") false)]
    [paneOf 2 (blockedRecord (L "b") false), paneOf 1 (blockedRecord (L "a") true)]
    (reordered_swap _ _) (by simp [reports, paneOf, blockedRecord])
  revert h
  decide

end Axan.SessionState
