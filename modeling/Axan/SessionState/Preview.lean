import Axan.SessionState.Seen

/-!
# When a state preview ends

A row can be shown as if it were in another state. The highest revision of each pane is noted when
the preview starts, and the preview ends once a pane has a higher one. Noting the counters of the
terminals would do as well for reports to come, but the row knows the stored records only: the note
may lie below the counter, and what is noted later may fall when records go.

* `revisionsByPane`, `hasNewReport` — the code.
* `Grown` — what a run does to the panes of a tab: a record that was there keeps the time of its
  report, and any other was written during the run, under a revision above the old counter.
* `hasNewReport_iff` — the preview ends exactly on a new report.
-/

namespace Axan.SessionState

open Axan.Base Axan.ProgramStatus

/-! ### The code -/

/-- The highest stored revision of each control, by content id.
Source: `_PreviewNodeState` and `_RecomputeNodeState`, the loops over the controls -/
def revisionsByPane (controls : List Control) : OrdMap ℕ ℕ :=
  controls.foldl (fun m c => m.insert c.contentId (maxRecordRevision c.pane.store.records))
    OrdMap.empty

/-- Source: `HasNewReport` -/
def hasNewReport (baseline current : OrdMap ℕ ℕ) : Bool :=
  current.entries.any fun e => e.2 > (baseline.find? e.1).getD 0

/-! ### The revisions of the panes -/

/-- Each pane is entered with its last revision. -/
theorem mem_foldl_insert {controls : List Control} (m : OrdMap ℕ ℕ)
    (hnodup : (controls.map Control.contentId).Nodup) (e : ℕ × ℕ) :
    e ∈ (controls.foldl (fun m c =>
        m.insert c.contentId (maxRecordRevision c.pane.store.records)) m).entries ↔
      (∃ c ∈ controls, e = (c.contentId, maxRecordRevision c.pane.store.records)) ∨
        e ∈ m.entries ∧ e.1 ∉ controls.map Control.contentId := by
  induction controls generalizing m with
  | nil => simp
  | cons c controls ih =>
      rw [List.map_cons, List.nodup_cons] at hnodup
      rw [List.foldl_cons, ih _ hnodup.2, OrdMap.mem_insert_iff, List.map_cons, List.mem_cons,
        List.exists_mem_cons_iff, not_or]
      constructor
      · rintro (h | ⟨rfl | ⟨he, hne⟩, hni⟩)
        · exact Or.inl (Or.inr h)
        · exact Or.inl (Or.inl rfl)
        · exact Or.inr ⟨he, hne, hni⟩
      · rintro ((rfl | h) | ⟨he, hne, hni⟩)
        · exact Or.inr ⟨Or.inl rfl, hnodup.1⟩
        · exact Or.inl h
        · exact Or.inr ⟨Or.inr ⟨he, hne⟩, hni⟩

theorem mem_revisionsByPane {controls : List Control}
    (hnodup : (controls.map Control.contentId).Nodup) (e : ℕ × ℕ) :
    e ∈ (revisionsByPane controls).entries ↔
      ∃ c ∈ controls, e = (c.contentId, maxRecordRevision c.pane.store.records) := by
  unfold revisionsByPane
  rw [mem_foldl_insert _ hnodup]
  simp

/-- The number noted for an open pane. -/
theorem find?_revisionsByPane {controls : List Control}
    (hnodup : (controls.map Control.contentId).Nodup) {c : Control} (hc : c ∈ controls) :
    (revisionsByPane controls).find? c.contentId =
      some (maxRecordRevision c.pane.store.records) :=
  OrdMap.find?_eq_some_iff.mpr ((mem_revisionsByPane hnodup _).mpr ⟨c, hc, rfl⟩)

/-- Nothing is noted for an id without a pane. -/
theorem find?_revisionsByPane_eq_none {controls : List Control}
    (hnodup : (controls.map Control.contentId).Nodup) {id : ℕ}
    (h : ∀ c ∈ controls, c.contentId ≠ id) : (revisionsByPane controls).find? id = none := by
  rw [OrdMap.find?_eq_none_iff]
  intro e he
  obtain ⟨c, hc, rfl⟩ := (mem_revisionsByPane hnodup e).mp he
  exact h c hc

/-! ### What a run does to the panes -/

/-- A pane between two times: each of its records was there with the same time, or was written
since, under a revision above the counter it had. -/
structure PaneGrown (p p' : Pane) (since : ℕ) : Prop where
  counter : p.store.revision ≤ p'.store.revision
  record : ∀ e ∈ p'.store.records.entries,
    (e ∈ p.store.records.entries ∧ p'.acceptedAt e.2 = p.acceptedAt e.2) ∨
      (p.store.revision < e.2.revision ∧ since ≤ p'.acceptedAt e.2)

/-- The panes of a tab between two times: those that are still open have grown, and the others were
opened since. -/
structure Grown (n n' : Node) : Prop where
  clock : n.clock ≤ n'.clock
  nextId : n.nextId ≤ n'.nextId
  control : ∀ c' ∈ n'.controls,
    (∃ c ∈ n.controls, c'.contentId = c.contentId ∧ PaneGrown c.pane c'.pane n.clock) ∨
      n.nextId ≤ c'.contentId ∧ ∀ e ∈ c'.pane.store.records.entries, n.clock ≤ c'.pane.acceptedAt e.2

/-- A pane has grown by nothing. -/
theorem PaneGrown.refl (p : Pane) (since : ℕ) : PaneGrown p p since :=
  ⟨le_refl _, fun _ he => Or.inl ⟨he, rfl⟩⟩

theorem Grown.refl (n : Node) : Grown n n :=
  ⟨le_refl _, le_refl _, fun c hc => Or.inl ⟨c, hc, rfl, PaneGrown.refl _ _⟩⟩

/-- An operation on a pane at a later time. -/
theorem PaneGrown.step {p p' : Pane} {since now : ℕ} (h : PaneGrown p p' since)
    (hp : p'.Consistent now) (hnow : since ≤ now) (op : Op) :
    PaneGrown p (p'.step op now) since := by
  refine ⟨h.counter.trans (revision_step p'.store op).1, fun e he => ?_⟩
  rcases mem_step_pane hp op he with ⟨hold, htime⟩ | ⟨hrev, htime⟩
  · rw [htime]
    exact h.record e hold
  · right
    rw [hrev, htime]
    exact ⟨Nat.lt_succ_of_le h.counter, hnow⟩

/-- The step lemma. -/
theorem Grown.step {n n' : Node} (h : Grown n n') (hn' : n'.Consistent) (e : NodeEvent) :
    Grown n (n'.step e) := by
  have hclock : n.clock ≤ (n'.step e).clock := h.clock.trans (Nat.le_succ _)
  by_cases he : e.recomputes = true
  · obtain ⟨hcontrols, hnext, -⟩ := apply_spec n' he hn'.ids_nodup
    refine ⟨hclock, h.nextId.trans hnext.ge, fun c' hc' => h.control c' ?_⟩
    rw [← hcontrols]
    exact hc'
  · obtain ⟨-, -, hnext, hmem⟩ := mem_controls_apply n' (Bool.eq_false_iff.mpr he)
    refine ⟨hclock, h.nextId.trans hnext, fun c'' hc'' => ?_⟩
    rcases hmem c'' hc'' with ⟨c', hc', hid, hpane⟩ | ⟨hid, -, enabled, running, hpane⟩
    · rcases h.control c' hc' with ⟨c, hc, hid', hgrown⟩ | ⟨hnew, hall⟩
      · refine Or.inl ⟨c, hc, hid.trans hid', ?_⟩
        rcases hpane with hpane | ⟨op, hpane⟩
        · rw [hpane]
          exact hgrown
        · rw [hpane]
          exact hgrown.step (hn'.pane c' hc') h.clock op
      · refine Or.inr ⟨hid ▸ hnew, fun r hr => ?_⟩
        rcases hpane with hpane | ⟨op, hpane⟩
        · rw [hpane] at hr ⊢
          exact hall r hr
        · rw [hpane] at hr ⊢
          rcases mem_step_pane (hn'.pane c' hc') op hr with ⟨hold, htime⟩ | ⟨-, htime⟩
          · rw [htime]
            exact hall r hold
          · rw [htime]
            exact h.clock
    · refine Or.inr ⟨hid ▸ h.nextId, fun r hr => ?_⟩
      rw [hpane] at hr
      simp [Store.empty] at hr

/-- The run lemma. -/
theorem grown_run {n : Node} (h : n.Consistent) (events : List NodeEvent) :
    Grown n (n.run events) := by
  have hgo : ∀ (events : List NodeEvent) (n' : Node), n'.Consistent → Grown n n' →
      Grown n (n'.run events) := by
    intro events
    induction events with
    | nil => exact fun n' _ hg => hg
    | cons e events ih => exact fun n' hn' hg => ih _ (hn'.step e) (hg.step hn' e)
  exact hgo events n h (Grown.refl n)

/-! ### The end of a preview -/

/-- A pane exceeds what was noted for it exactly when it has a record written since. -/
theorem exceeds_iff {n n' : Node} (hn : n.Consistent) (hn' : n'.Consistent) (hg : Grown n n')
    {c' : Control} (hc' : c' ∈ n'.controls) :
    ((revisionsByPane n.controls).find? c'.contentId).getD 0 <
        maxRecordRevision c'.pane.store.records ↔
      ∃ e ∈ c'.pane.store.records.entries, n.clock ≤ c'.pane.acceptedAt e.2 := by
  rcases hg.control c' hc' with ⟨c, hc, hid, hgrown⟩ | ⟨hnew, hall⟩
  · rw [hid, find?_revisionsByPane hn.ids_nodup hc, Option.getD_some]
    constructor
    · intro hlt
      by_contra hnone
      push Not at hnone
      -- every record was there, so none is above the note
      refine absurd hlt (not_lt.mpr (foldl_max_le (Nat.zero_le _) fun e he => ?_))
      rcases hgrown.record e he with ⟨hold, -⟩ | ⟨-, hsince⟩
      · exact le_maxRecordRevision hold
      · exact absurd hsince (not_le.mpr (hnone e he))
    · rintro ⟨e, he, hsince⟩
      rcases hgrown.record e he with ⟨hold, htime⟩ | ⟨hlt, -⟩
      · have := acceptedAt_lt (hn.pane c hc) hold
        omega
      · have hnote : maxRecordRevision c.pane.store.records ≤ c.pane.store.revision :=
          foldl_max_le (Nat.zero_le _) (hn.pane c hc).inv.revision_le
        exact (hnote.trans_lt hlt).trans_le (le_maxRecordRevision he)
  · have hnone : (revisionsByPane n.controls).find? c'.contentId = none :=
      find?_revisionsByPane_eq_none hn.ids_nodup fun c hc heq => by
        have := hn.ids_lt c hc
        omega
    rw [hnone, Option.getD_none]
    constructor
    · intro hpos
      by_contra hempty
      push Not at hempty
      refine absurd hpos (not_lt.mpr (foldl_max_le (le_refl 0) fun e he => ?_))
      exact absurd (hall e he) (not_le.mpr (hempty e he))
    · rintro ⟨e, he, -⟩
      exact ((hn'.pane c' hc').positive e he).trans_le (le_maxRecordRevision he)

/-- **A preview ends exactly on a new report**: whatever happens to the panes of a tab after the
revisions were noted, one of them is exceeded if and only if an open pane has a record written
since. -/
theorem hasNewReport_iff (events more : List NodeEvent) :
    hasNewReport (revisionsByPane (Node.start.run events).controls)
        (revisionsByPane ((Node.start.run events).run more).controls) = true ↔
      ∃ c ∈ ((Node.start.run events).run more).controls, ∃ e ∈ c.pane.store.records.entries,
        (Node.start.run events).clock ≤ c.pane.acceptedAt e.2 := by
  have hn := consistent_start.run events
  have hn' := hn.run more
  have hg := grown_run hn more
  unfold hasNewReport
  rw [List.any_eq_true]
  constructor
  · rintro ⟨e, he, hlt⟩
    obtain ⟨c, hc, rfl⟩ := (mem_revisionsByPane hn'.ids_nodup e).mp he
    exact ⟨c, hc, (exceeds_iff hn hn' hg hc).mp (of_decide_eq_true hlt)⟩
  · rintro ⟨c, hc, hnew⟩
    exact ⟨_, (mem_revisionsByPane hn'.ids_nodup _).mpr ⟨c, hc, rfl⟩,
      decide_eq_true ((exceeds_iff hn hn' hg hc).mpr hnew)⟩

end Axan.SessionState
