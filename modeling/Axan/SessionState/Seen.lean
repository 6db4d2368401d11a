import Axan.SessionState.Tab

/-!
# What the user has seen: `_RecomputeNodeState`, `_AcknowledgeNodeState`

A row keeps one number for each pane of its tab, the highest revision shown to the user; a record
counts as seen when its revision is not above that number. Reports, clears, evictions and drops
reach the stores at any time; panes open and close; the row is recomputed, and acknowledged when
the user turns to it.

* `Node`, `NodeEvent`, `Node.step`, `Node.run` — the row and the terminals of its tab. The clock,
  the acceptance times and `lastSeen` are ghost state.
* `Node.Consistent` — the invariant: a stored record is covered by the number of its pane exactly
  when it was accepted before the node was last seen, and the number is not above the counter of
  the terminal (`consistent_run`).
* `seen_iff_accepted_before` — **what `Derive` is told**, over every run.
-/

namespace Axan.SessionState

open Axan.Base Axan.ProgramStatus

/-! ### The row and its terminals -/

/-- A terminal control of the tab. -/
structure Control where
  /-- Never used again by another control. -/
  contentId : ℕ
  title : WString
  pane : Pane

/-- The row of a tab: its controls, the numbers of `SeenRevisions`, and what `Derive` was last
given. -/
structure Node where
  controls : List Control
  seenRevisions : OrdMap ℕ ℕ
  panes : List PaneInput
  /-- The next content id. -/
  nextId : ℕ
  clock : ℕ
  /-- When the row was last acknowledged, or recomputed under the user's eyes. -/
  lastSeen : Option ℕ

/-- Source: `_maxRecordRevision` -/
def maxRecordRevision (records : Records) : ℕ :=
  records.entries.foldl (fun maxRevision e => max maxRevision e.2.revision) 0

/-- The number of a pane; none counts as zero. -/
def seenRevision (seen : OrdMap ℕ ℕ) (contentId : ℕ) : ℕ := (seen.find? contentId).getD 0

/-- A control in the focused branch of `_RecomputeNodeState`. -/
def markSeen (seen : OrdMap ℕ ℕ) (c : Control) : OrdMap ℕ ℕ :=
  seen.insert c.contentId
    (max (seenRevision seen c.contentId) (maxRecordRevision c.pane.store.records))

/-- The loop of `_RecomputeNodeState` over the controls. -/
def recomputeLoop (focused : Bool) : List Control → OrdMap ℕ ℕ → OrdMap ℕ ℕ × List PaneInput
  | [], seen => (seen, [])
  | c :: controls, seen =>
      let seen := if focused then markSeen seen c else seen
      let info : PaneInfo := ⟨c.contentId, c.title, seenRevision seen c.contentId⟩
      let rest := recomputeLoop focused controls seen
      (rest.1, paneInput info c.pane :: rest.2)

/-- `focused` is that the window is active and the tab is the focused one.
Source: `_RecomputeNodeState`, up to the call of `Derive` -/
def Node.recomputeNodeState (n : Node) (focused : Bool) : Node :=
  -- panes that have closed are forgotten
  let kept := n.seenRevisions.filter fun e => n.controls.any fun c => c.contentId = e.1
  let result := recomputeLoop focused n.controls kept
  { n with
    seenRevisions := result.1
    panes := result.2
    lastSeen := if focused then some n.clock else n.lastSeen }

/-- A control in the loop of `_AcknowledgeNodeState`. -/
def acknowledgeControl (seen : OrdMap ℕ ℕ) (c : Control) : OrdMap ℕ ℕ :=
  let maxRevision := maxRecordRevision c.pane.store.records
  let old := seenRevision seen c.contentId
  seen.insert c.contentId (if maxRevision > old then maxRevision else old)

/-- Source: `_AcknowledgeNodeState` -/
def Node.acknowledgeNodeState (n : Node) (activated tabFocused : Bool) : Node :=
  if !activated then n.recomputeNodeState (activated && tabFocused)
  else
    { n with
      seenRevisions := n.controls.foldl acknowledgeControl n.seenRevisions
      lastSeen := some n.clock }.recomputeNodeState (activated && tabFocused)

/-! ### Runs -/

/-- What can happen. -/
inductive NodeEvent where
  /-- An operation on the terminal of a pane. -/
  | terminal (contentId : ℕ) (op : Op)
  | setTitle (contentId : ℕ) (title : WString)
  /-- A new pane at a place, with its feature switch and command mark. -/
  | openPane (place : ℕ) (enabled running : Bool)
  | closePane (contentId : ℕ)
  | acknowledge (activated tabFocused : Bool)
  | recompute (activated tabFocused : Bool)

/-- Does the event hand the panes to `Derive`? -/
def NodeEvent.recomputes : NodeEvent → Bool
  | .acknowledge _ _ => true
  | .recompute _ _ => true
  | _ => false

/-- Is the event an acknowledgement in an active window, or a focused recomputation? -/
def NodeEvent.sees : NodeEvent → Bool
  | .acknowledge activated _ => activated
  | .recompute activated tabFocused => activated && tabFocused
  | _ => false

/-- Change the control with an id. -/
def Node.updateControl (n : Node) (contentId : ℕ) (f : Control → Control) : Node :=
  { n with controls := n.controls.map fun c => if c.contentId = contentId then f c else c }

/-- The effect of an event. -/
def Node.apply (n : Node) : NodeEvent → Node
  | .terminal id op => n.updateControl id fun c => { c with pane := c.pane.step op n.clock }
  | .setTitle id title => n.updateControl id fun c => { c with title := title }
  | .openPane place enabled running =>
      { n with
        controls := n.controls.take place ++
          ⟨n.nextId, [], ⟨Store.empty 0 enabled running, []⟩⟩ :: n.controls.drop place
        nextId := n.nextId + 1 }
  | .closePane id => { n with controls := n.controls.filter fun c => c.contentId ≠ id }
  | .acknowledge activated tabFocused => n.acknowledgeNodeState activated tabFocused
  | .recompute activated tabFocused => n.recomputeNodeState (activated && tabFocused)

/-- One event. -/
def Node.step (n : Node) (e : NodeEvent) : Node := { n.apply e with clock := n.clock + 1 }

/-- A finite run. -/
def Node.run (n : Node) (events : List NodeEvent) : Node := events.foldl Node.step n

/-- The row of a new tab, before its first pane. -/
def Node.start : Node := ⟨[], OrdMap.empty, [], 0, 0, none⟩

/-! ## The numbers -/

/-- The greatest revision is within a bound of all. -/
theorem foldl_max_le {l : List (WString × ProgramStatusRecord)} {m b : ℕ} (hm : m ≤ b)
    (h : ∀ e ∈ l, e.2.revision ≤ b) : l.foldl (fun m e => max m e.2.revision) m ≤ b := by
  induction l generalizing m with
  | nil => exact hm
  | cons e l ih =>
      apply ih (max_le hm (h e List.mem_cons_self))
      intro e' he'
      exact h e' (List.mem_cons_of_mem _ he')

theorem le_foldl_max (l : List (WString × ProgramStatusRecord)) (m : ℕ) :
    m ≤ l.foldl (fun m e => max m e.2.revision) m ∧
      ∀ e ∈ l, e.2.revision ≤ l.foldl (fun m e => max m e.2.revision) m := by
  induction l generalizing m with
  | nil => simp
  | cons e l ih =>
      obtain ⟨hm, hl⟩ := ih (max m e.2.revision)
      refine ⟨(le_max_left _ _).trans hm, fun e' he' => ?_⟩
      rcases List.mem_cons.mp he' with rfl | he'
      · exact (le_max_right _ _).trans hm
      · exact hl e' he'

/-- No record is above the greatest revision. -/
theorem le_maxRecordRevision {records : Records} {e : WString × ProgramStatusRecord}
    (h : e ∈ records.entries) : e.2.revision ≤ maxRecordRevision records :=
  (le_foldl_max records.entries 0).2 e h

/-- A pane that is marked is seen up to its last revision. -/
theorem seenRevision_markSeen (seen : OrdMap ℕ ℕ) (c : Control) (id : ℕ) :
    seenRevision (markSeen seen c) id =
      if id = c.contentId then max (seenRevision seen id) (maxRecordRevision c.pane.store.records)
      else seenRevision seen id := by
  rw [seenRevision, markSeen, OrdMap.find?_insert]
  by_cases h : id = c.contentId
  · rw [if_pos h, if_pos h, h]
    rfl
  · rw [if_neg h, if_neg h]
    rfl

/-- The two places that raise a number do the same. -/
theorem acknowledgeControl_eq : acknowledgeControl = markSeen := by
  funext seen c
  rw [acknowledgeControl, markSeen]
  congr 1
  by_cases h : maxRecordRevision c.pane.store.records > seenRevision seen c.contentId
  · rw [if_pos h, max_eq_right h.le]
  · rw [if_neg h, max_eq_left (not_lt.mp h)]

/-- Marking the controls leaves the numbers of others. -/
theorem seenRevision_foldl_of_notMem {controls : List Control} (seen : OrdMap ℕ ℕ) {id : ℕ}
    (h : id ∉ controls.map Control.contentId) :
    seenRevision (controls.foldl markSeen seen) id = seenRevision seen id := by
  induction controls generalizing seen with
  | nil => rfl
  | cons c controls ih =>
      rw [List.map_cons, List.mem_cons, not_or] at h
      rw [List.foldl_cons, ih (markSeen seen c) h.2, seenRevision_markSeen, if_neg h.1]

/-- Marking the controls raises the number of each to its highest revision. -/
theorem seenRevision_foldl_of_mem {controls : List Control} (seen : OrdMap ℕ ℕ)
    (hnodup : (controls.map Control.contentId).Nodup) {c : Control} (hc : c ∈ controls) :
    seenRevision (controls.foldl markSeen seen) c.contentId =
      max (seenRevision seen c.contentId) (maxRecordRevision c.pane.store.records) := by
  induction controls generalizing seen with
  | nil => cases hc
  | cons d controls ih =>
      rw [List.map_cons, List.nodup_cons] at hnodup
      rw [List.foldl_cons]
      rcases List.mem_cons.mp hc with rfl | hc
      · rw [seenRevision_foldl_of_notMem _ hnodup.1, seenRevision_markSeen, if_pos rfl]
      · have hne : c.contentId ≠ d.contentId := by
          intro he
          apply hnodup.1
          rw [← he]
          exact List.mem_map_of_mem hc
        rw [ih (markSeen seen d) hnodup.2 hc, seenRevision_markSeen, if_neg hne]

/-- A focused tab marks all its panes. -/
theorem recomputeLoop_fst (focused : Bool) (controls : List Control) (seen : OrdMap ℕ ℕ) :
    (recomputeLoop focused controls seen).1 =
      if focused then controls.foldl markSeen seen else seen := by
  induction controls generalizing seen with
  | nil => simp [recomputeLoop]
  | cons c controls ih =>
      simp only [recomputeLoop, ih]
      cases focused <;> rfl

/-- What a control hands to `Derive`, with a number. -/
def Control.input (c : Control) (seen : OrdMap ℕ ℕ) : PaneInput :=
  paneInput ⟨c.contentId, c.title, seenRevision seen c.contentId⟩ c.pane

/-- The loop reads the number of a control after it was raised. -/
theorem recomputeLoop_snd (focused : Bool) {controls : List Control} (seen : OrdMap ℕ ℕ)
    (hnodup : (controls.map Control.contentId).Nodup) :
    (recomputeLoop focused controls seen).2 =
      controls.map fun c => c.input (recomputeLoop focused controls seen).1 := by
  induction controls generalizing seen with
  | nil => rfl
  | cons c controls ih =>
      rw [List.map_cons, List.nodup_cons] at hnodup
      have hlater : ∀ seen', seenRevision (recomputeLoop focused controls seen').1 c.contentId =
          seenRevision seen' c.contentId := by
        intro seen'
        rw [recomputeLoop_fst]
        split
        · exact seenRevision_foldl_of_notMem seen' hnodup.1
        · rfl
      simp only [recomputeLoop, List.map_cons, ih _ hnodup.2, Control.input, hlater]

/-! ## What the events do -/

/-- What a recomputation leaves. -/
theorem recompute_spec (n : Node) (focused : Bool)
    (hnodup : (n.controls.map Control.contentId).Nodup) :
    (n.recomputeNodeState focused).controls = n.controls ∧
      (∀ c ∈ n.controls, seenRevision (n.recomputeNodeState focused).seenRevisions c.contentId =
        if focused then
          max (seenRevision n.seenRevisions c.contentId)
            (maxRecordRevision c.pane.store.records)
        else seenRevision n.seenRevisions c.contentId) ∧
      (∀ id, id ∉ n.controls.map Control.contentId →
        seenRevision (n.recomputeNodeState focused).seenRevisions id = 0) ∧
      (n.recomputeNodeState focused).panes =
        n.controls.map fun c => c.input (n.recomputeNodeState focused).seenRevisions := by
  have hkept : ∀ id, seenRevision (n.seenRevisions.filter fun e =>
      n.controls.any fun c => c.contentId = e.1) id =
        if id ∈ n.controls.map Control.contentId then seenRevision n.seenRevisions id else 0 := by
    intro id
    have hany : (n.controls.any fun c => decide (c.contentId = id)) = true ↔
        id ∈ n.controls.map Control.contentId := by simp
    rw [seenRevision,
      OrdMap.find?_filter_key _ fun id => n.controls.any fun c => c.contentId = id]
    simp only [hany]
    split <;> rfl
  refine ⟨rfl, fun c hc => ?_, fun id hid => ?_, recomputeLoop_snd focused _ hnodup⟩
  · have hmem : c.contentId ∈ n.controls.map Control.contentId := List.mem_map_of_mem hc
    simp only [Node.recomputeNodeState, recomputeLoop_fst]
    cases focused with
    | true =>
        rw [if_pos rfl, if_pos rfl, seenRevision_foldl_of_mem _ hnodup hc, hkept, if_pos hmem]
    | false => exact (hkept c.contentId).trans (if_pos hmem)
  · simp only [Node.recomputeNodeState, recomputeLoop_fst]
    cases focused with
    | true => rw [if_pos rfl, seenRevision_foldl_of_notMem _ hid, hkept, if_neg hid]
    | false => exact (hkept id).trans (if_neg hid)

/-- What an event that hands the panes to `Derive` leaves. -/
theorem apply_spec (n : Node) {e : NodeEvent} (he : e.recomputes = true)
    (hnodup : (n.controls.map Control.contentId).Nodup) :
    (n.apply e).controls = n.controls ∧ (n.apply e).nextId = n.nextId ∧
      (n.apply e).lastSeen = (if e.sees then some n.clock else n.lastSeen) ∧
      (∀ c ∈ n.controls, seenRevision (n.apply e).seenRevisions c.contentId =
        if e.sees then
          max (seenRevision n.seenRevisions c.contentId)
            (maxRecordRevision c.pane.store.records)
        else seenRevision n.seenRevisions c.contentId) ∧
      (∀ id, id ∉ n.controls.map Control.contentId →
        seenRevision (n.apply e).seenRevisions id = 0) ∧
      (n.apply e).panes = n.controls.map fun c => c.input (n.apply e).seenRevisions := by
  cases e with
  | recompute activated tabFocused =>
      obtain ⟨hc, hseen, hrest⟩ := recompute_spec n (activated && tabFocused) hnodup
      exact ⟨hc, rfl, rfl, hseen, hrest⟩
  | acknowledge activated tabFocused =>
      cases activated with
      | false =>
          obtain ⟨hc, hseen, hrest⟩ := recompute_spec n false hnodup
          exact ⟨hc, rfl, rfl, hseen, hrest⟩
      | true =>
          obtain ⟨hc, hseen, hrest⟩ := recompute_spec
            { n with
              seenRevisions := n.controls.foldl acknowledgeControl n.seenRevisions
              lastSeen := some n.clock } (true && tabFocused) hnodup
          refine ⟨hc, rfl, ?_, fun c hm => ?_, hrest⟩
          · show (if true && tabFocused then some n.clock else some n.clock) = some n.clock
            exact ite_self _
          · have hmark : seenRevision (n.controls.foldl acknowledgeControl n.seenRevisions)
                c.contentId = max (seenRevision n.seenRevisions c.contentId)
                  (maxRecordRevision c.pane.store.records) := by
              rw [acknowledgeControl_eq]
              exact seenRevision_foldl_of_mem _ hnodup hm
            refine (hseen c hm).trans ?_
            simp only [hmark, max_assoc, max_self, ite_self]
            rfl
  | terminal id op => cases he
  | setTitle id title => cases he
  | openPane place enabled running => cases he
  | closePane id => cases he

/-- What any other event does to the controls: it keeps or steps some of the old ones, or adds a
new one. -/
theorem mem_controls_apply (n : Node) {e : NodeEvent} (he : e.recomputes = false) :
    (n.apply e).seenRevisions = n.seenRevisions ∧ (n.apply e).lastSeen = n.lastSeen ∧
      n.nextId ≤ (n.apply e).nextId ∧
      ∀ c' ∈ (n.apply e).controls,
        (∃ c ∈ n.controls, c'.contentId = c.contentId ∧
          (c'.pane = c.pane ∨ ∃ op, c'.pane = c.pane.step op n.clock)) ∨
        (c'.contentId = n.nextId ∧ n.nextId < (n.apply e).nextId ∧
          ∃ enabled running, c'.pane = ⟨Store.empty 0 enabled running, []⟩) := by
  have hupdate : ∀ (id : ℕ) (f : Control → Control),
      (∀ c, (f c).contentId = c.contentId ∧
        ((f c).pane = c.pane ∨ ∃ op, (f c).pane = c.pane.step op n.clock)) →
      ∀ c' ∈ (n.updateControl id f).controls, ∃ c ∈ n.controls, c'.contentId = c.contentId ∧
        (c'.pane = c.pane ∨ ∃ op, c'.pane = c.pane.step op n.clock) := by
    intro id f hf c' hc'
    obtain ⟨c, hc, rfl⟩ := List.mem_map.mp hc'
    refine ⟨c, hc, ?_⟩
    split
    · exact hf c
    · exact ⟨rfl, Or.inl rfl⟩
  cases e with
  | terminal id op =>
      refine ⟨rfl, rfl, le_refl _, fun c' hc' => Or.inl (hupdate id _ ?_ c' hc')⟩
      exact fun c => ⟨rfl, Or.inr ⟨op, rfl⟩⟩
  | setTitle id title =>
      refine ⟨rfl, rfl, le_refl _, fun c' hc' => Or.inl (hupdate id _ ?_ c' hc')⟩
      exact fun c => ⟨rfl, Or.inl rfl⟩
  | openPane place enabled running =>
      refine ⟨rfl, rfl, Nat.le_succ _, fun c' hc' => ?_⟩
      rcases List.mem_append.mp hc' with hc' | hc'
      · exact Or.inl ⟨c', List.mem_of_mem_take hc', rfl, Or.inl rfl⟩
      · rcases List.mem_cons.mp hc' with rfl | hc'
        · exact Or.inr ⟨rfl, Nat.lt_succ_self _, enabled, running, rfl⟩
        · exact Or.inl ⟨c', List.mem_of_mem_drop hc', rfl, Or.inl rfl⟩
  | closePane id =>
      refine ⟨rfl, rfl, le_refl _, fun c' hc' => Or.inl ⟨c', ?_, rfl, Or.inl rfl⟩⟩
      exact List.mem_of_mem_filter hc'
  | acknowledge activated tabFocused => cases he
  | recompute activated tabFocused => cases he

/-! ## The invariant -/

/-- When a record was accepted. -/
def Pane.acceptedAt (p : Pane) (r : ProgramStatusRecord) : ℕ := p.accepted.getD (r.revision - 1) 0

/-- The record was accepted before the row was last seen. -/
def Node.SeenSince (n : Node) (c : Control) (r : ProgramStatusRecord) : Prop :=
  ∃ time ∈ n.lastSeen, c.pane.acceptedAt r < time

/-- The invariant of a run. -/
structure Node.Consistent (n : Node) : Prop where
  ids_nodup : (n.controls.map Control.contentId).Nodup
  ids_lt : ∀ c ∈ n.controls, c.contentId < n.nextId
  pane : ∀ c ∈ n.controls, c.pane.Consistent n.clock
  /-- Nothing is remembered of an id that was not given out. -/
  fresh : ∀ id, n.nextId ≤ id → seenRevision n.seenRevisions id = 0
  past : ∀ time ∈ n.lastSeen, time < n.clock
  /-- A number is not above the counter of its terminal. -/
  seen_le : ∀ c ∈ n.controls,
    seenRevision n.seenRevisions c.contentId ≤ c.pane.store.revision
  seen_iff : ∀ c ∈ n.controls, ∀ e ∈ c.pane.store.records.entries,
    e.2.revision ≤ seenRevision n.seenRevisions c.contentId ↔ n.SeenSince c e.2

/-- A record after an operation: an old one with its time, or a new one. -/
theorem mem_step_pane {p : Pane} {now : ℕ} (h : p.Consistent now) (op : Op)
    {e : WString × ProgramStatusRecord} (he : e ∈ (p.step op now).store.records.entries) :
    (e ∈ p.store.records.entries ∧ (p.step op now).acceptedAt e.2 = p.acceptedAt e.2) ∨
      (e.2.revision = p.store.revision + 1 ∧ (p.step op now).acceptedAt e.2 = now) := by
  rcases step_cases p.store op with ⟨hsub, hrev, -⟩ | ⟨r, -, -, -, hs⟩
  · refine Or.inl ⟨hsub.subset he, ?_⟩
    simp [Pane.acceptedAt, Pane.step, hrev]
  · have hacc : (p.step op now).accepted = p.accepted ++ [now] := by
      simp [Pane.step, hs, Store.write]
    have he' : e ∈ ((makeRoom p.store.records r.id).insert r.id
        (recordOf r (p.store.revision + 1))).entries := by
      have hstore : (p.step op now).store = (p.store.write r).notify := hs
      rw [hstore] at he
      exact he
    rcases OrdMap.mem_insert_iff.mp he' with rfl | ⟨hold, -⟩
    · refine Or.inr ⟨rfl, ?_⟩
      rw [Pane.acceptedAt, hacc]
      simp [recordOf, ← h.length]
    · have hmem := (makeRoom_sublist _ _).subset hold
      refine Or.inl ⟨hmem, ?_⟩
      have hpos := h.positive e hmem
      have hle := h.inv.revision_le e hmem
      have hlt : e.2.revision - 1 < p.accepted.length := by
        rw [h.length]
        omega
      rw [Pane.acceptedAt, hacc, Pane.acceptedAt, List.getD_append _ _ _ _ hlt]

/-- A stored record was accepted in the past. -/
theorem acceptedAt_lt {p : Pane} {now : ℕ} (h : p.Consistent now)
    {e : WString × ProgramStatusRecord} (he : e ∈ p.store.records.entries) :
    p.acceptedAt e.2 < now := by
  have hpos := h.positive e he
  have hle := h.inv.revision_le e he
  have hlt : e.2.revision - 1 < p.accepted.length := by
    rw [h.length]
    omega
  rw [Pane.acceptedAt, List.getD_eq_getElem _ _ hlt]
  exact h.past _ (List.getElem_mem hlt)

/-- No event gives two panes one id. -/
theorem ids_nodup_apply {n : Node} (h : n.Consistent) (e : NodeEvent) :
    ((n.apply e).controls.map Control.contentId).Nodup := by
  have hupdate : ∀ (id : ℕ) (f : Control → Control), (∀ c, (f c).contentId = c.contentId) →
      (n.updateControl id f).controls.map Control.contentId =
        n.controls.map Control.contentId := by
    intro id f hf
    rw [Node.updateControl, List.map_map]
    apply List.map_congr_left
    intro c _
    simp only [Function.comp_apply]
    split
    · exact hf c
    · rfl
  by_cases he : e.recomputes = true
  · rw [(apply_spec n he h.ids_nodup).1]
    exact h.ids_nodup
  · cases e with
    | terminal id op =>
        rw [Node.apply, hupdate id _ (by intro c; rfl)]
        exact h.ids_nodup
    | setTitle id title =>
        rw [Node.apply, hupdate id _ (by intro c; rfl)]
        exact h.ids_nodup
    | openPane place enabled running =>
        have hnew : n.nextId ∉ n.controls.map Control.contentId := by
          intro hmem
          obtain ⟨c, hc, hid⟩ := List.mem_map.mp hmem
          exact absurd (h.ids_lt c hc) (by omega)
        have hsplit := h.ids_nodup
        rw [← List.take_append_drop place n.controls, List.map_append] at hsplit hnew
        simp only [Node.apply, List.map_append, List.map_cons]
        exact List.nodup_middle.mpr (List.nodup_cons.mpr ⟨hnew, hsplit⟩)
    | closePane id => exact h.ids_nodup.sublist (List.filter_sublist.map _)
    | acknowledge activated tabFocused => exact absurd rfl he
    | recompute activated tabFocused => exact absurd rfl he

/-- The step lemma, for the events that hand the panes to `Derive`. -/
theorem Node.Consistent.recompute {n : Node} (h : n.Consistent) {e : NodeEvent}
    (he : e.recomputes = true) : (n.step e).Consistent := by
  obtain ⟨hcontrols, hnext, hlast, hseen, hclosed, -⟩ := apply_spec n he h.ids_nodup
  have hmax : ∀ c ∈ n.controls, maxRecordRevision c.pane.store.records ≤ c.pane.store.revision :=
    fun c hc => foldl_max_le (Nat.zero_le _) (h.pane c hc).inv.revision_le
  refine ⟨ids_nodup_apply h e, ?_, ?_, ?_, ?_, ?_, ?_⟩
  · show ∀ c ∈ (n.apply e).controls, c.contentId < (n.apply e).nextId
    rw [hcontrols, hnext]
    exact h.ids_lt
  · show ∀ c ∈ (n.apply e).controls, c.pane.Consistent (n.clock + 1)
    rw [hcontrols]
    exact fun c hc => (h.pane c hc).mono (Nat.le_succ _)
  · intro id hid
    apply hclosed
    intro hmem
    obtain ⟨c, hc, rfl⟩ := List.mem_map.mp hmem
    have hlt := h.ids_lt c hc
    have hle : n.nextId ≤ c.contentId := hnext ▸ hid
    omega
  · show ∀ time ∈ (n.apply e).lastSeen, time < n.clock + 1
    rw [hlast]
    intro time ht
    split at ht
    · cases ht
      exact Nat.lt_succ_self _
    · exact (h.past time ht).trans (Nat.lt_succ_self _)
  · show ∀ c ∈ (n.apply e).controls, _
    rw [hcontrols]
    intro c hc
    refine (hseen c hc).trans_le ?_
    split
    · exact max_le (h.seen_le c hc) (hmax c hc)
    · exact h.seen_le c hc
  · show ∀ c ∈ (n.apply e).controls, _
    rw [hcontrols]
    intro c hc r hr
    have hval : seenRevision (n.step e).seenRevisions c.contentId = _ := hseen c hc
    rw [hval, Node.SeenSince]
    show _ ↔ ∃ time ∈ (n.apply e).lastSeen, _
    rw [hlast]
    by_cases hs : e.sees = true
    · -- every stored record was accepted before now, and is covered
      rw [if_pos hs, if_pos hs]
      have hle := le_maxRecordRevision hr
      refine ⟨fun _ => ⟨n.clock, rfl, ?_⟩, fun _ => hle.trans (le_max_right _ _)⟩
      exact acceptedAt_lt (h.pane c hc) hr
    · rw [if_neg hs, if_neg hs]
      exact h.seen_iff c hc r hr

/-- A record of a stepped pane is covered as before; a new one is not. -/
theorem seen_iff_step_pane {n : Node} (h : n.Consistent) {c : Control} (hc : c ∈ n.controls)
    (op : Op) {r : WString × ProgramStatusRecord}
    (hr : r ∈ (c.pane.step op n.clock).store.records.entries) :
    r.2.revision ≤ seenRevision n.seenRevisions c.contentId ↔
      ∃ time ∈ n.lastSeen, (c.pane.step op n.clock).acceptedAt r.2 < time := by
  rcases mem_step_pane (h.pane c hc) op hr with ⟨hold, htime⟩ | ⟨hrev, htime⟩
  · rw [htime]
    exact h.seen_iff c hc r hold
  · rw [hrev, htime]
    have hle := h.seen_le c hc
    constructor
    · intro hcov
      omega
    · rintro ⟨time, ht, hlt⟩
      exact absurd (h.past time ht) (by omega)

/-- The step lemma, for the other events. -/
theorem Node.Consistent.other {n : Node} (h : n.Consistent) {e : NodeEvent}
    (he : e.recomputes = false) : (n.step e).Consistent := by
  obtain ⟨hseen, hlast, hnext, hmem⟩ := mem_controls_apply n he
  refine ⟨ids_nodup_apply h e, ?_, ?_, ?_, ?_, ?_, ?_⟩
  · intro c' hc'
    rcases hmem c' hc' with ⟨c, hc, hid, -⟩ | ⟨hid, hlt, -⟩
    · rw [hid]
      exact (h.ids_lt c hc).trans_le hnext
    · rw [hid]
      exact hlt
  · intro c' hc'
    show c'.pane.Consistent (n.clock + 1)
    rcases hmem c' hc' with ⟨c, hc, -, hp | ⟨op, hp⟩⟩ | ⟨-, -, enabled, running, hp⟩
    · rw [hp]
      exact (h.pane c hc).mono (Nat.le_succ _)
    · rw [hp]
      exact (h.pane c hc).step op
    · rw [hp]
      exact consistent_fresh enabled running _
  · intro id hid
    show seenRevision (n.apply e).seenRevisions id = 0
    rw [hseen]
    exact h.fresh id (hnext.trans hid)
  · intro time ht
    have ht' : time ∈ n.lastSeen := hlast ▸ ht
    exact (h.past time ht').trans (Nat.lt_succ_self _)
  · intro c' hc'
    show seenRevision (n.apply e).seenRevisions c'.contentId ≤ c'.pane.store.revision
    rw [hseen]
    rcases hmem c' hc' with ⟨c, hc, hid, hp | ⟨op, hp⟩⟩ | ⟨hid, -, -⟩
    · rw [hid, hp]
      exact h.seen_le c hc
    · rw [hid, hp]
      exact (h.seen_le c hc).trans (revision_step c.pane.store op).1
    · rw [hid, h.fresh n.nextId (le_refl _)]
      exact Nat.zero_le _
  · intro c' hc' r hr
    show r.2.revision ≤ seenRevision (n.apply e).seenRevisions c'.contentId ↔
      ∃ time ∈ (n.apply e).lastSeen, c'.pane.acceptedAt r.2 < time
    rw [hseen, hlast]
    rcases hmem c' hc' with ⟨c, hc, hid, hp | ⟨op, hp⟩⟩ | ⟨-, -, enabled, running, hp⟩
    · rw [hp] at hr ⊢
      rw [hid]
      exact h.seen_iff c hc r hr
    · rw [hp] at hr ⊢
      rw [hid]
      exact seen_iff_step_pane h hc op hr
    · rw [hp] at hr
      simp [Store.empty] at hr

/-- The step lemma. -/
theorem Node.Consistent.step {n : Node} (h : n.Consistent) (e : NodeEvent) :
    (n.step e).Consistent := by
  by_cases he : e.recomputes = true
  · exact h.recompute he
  · exact h.other (Bool.eq_false_iff.mpr he)

/-- The run lemma. -/
theorem Node.Consistent.run {n : Node} (h : n.Consistent) (events : List NodeEvent) :
    (n.run events).Consistent := by
  induction events generalizing n with
  | nil => exact h
  | cons e events ih => exact ih (h.step e)

/-- The first tab is consistent. -/
theorem consistent_start : Node.start.Consistent := by
  constructor <;> simp [Node.start, seenRevision, OrdMap.find?]

/-! ## Whole runs -/

/-- Only a computed row sees something. -/
theorem sees_of_not_recomputes {e : NodeEvent} (he : e.recomputes = false) : e.sees = false := by
  cases e <;> first | rfl | cases he

/-- The number of an open pane after an event. -/
theorem seenRevision_step {n : Node} (h : n.Consistent) (e : NodeEvent) {c : Control}
    (hc : c ∈ n.controls) :
    seenRevision (n.step e).seenRevisions c.contentId =
      if e.sees then
        max (seenRevision n.seenRevisions c.contentId) (maxRecordRevision c.pane.store.records)
      else seenRevision n.seenRevisions c.contentId := by
  by_cases he : e.recomputes = true
  · exact (apply_spec n he h.ids_nodup).2.2.2.1 c hc
  · have he' := Bool.eq_false_iff.mpr he
    have hseen : (n.step e).seenRevisions = n.seenRevisions := (mem_controls_apply n he').1
    rw [if_neg (by simp [sees_of_not_recomputes he']), hseen]

/-- An old pane that is open after an event was open before, and ids only grow. -/
theorem exists_control_step {n : Node} (h : n.Consistent) (e : NodeEvent) :
    n.nextId ≤ (n.step e).nextId ∧ ∀ c' ∈ (n.step e).controls, c'.contentId < n.nextId →
      ∃ c ∈ n.controls, c.contentId = c'.contentId := by
  by_cases he : e.recomputes = true
  · obtain ⟨hcontrols, hnext, -⟩ := apply_spec n he h.ids_nodup
    refine ⟨hnext.ge, fun c' hc' _ => ⟨c', ?_, rfl⟩⟩
    rw [← hcontrols]
    exact hc'
  · obtain ⟨-, -, hnext, hmem⟩ := mem_controls_apply n (Bool.eq_false_iff.mpr he)
    refine ⟨hnext, fun c' hc' hlt => ?_⟩
    rcases hmem c' hc' with ⟨c, hc, hid, -⟩ | ⟨hid, -⟩
    · exact ⟨c, hc, hid.symm⟩
    · omega

/-- A pane of an old id has been there. -/
theorem exists_control_run {n : Node} (h : n.Consistent) (events : List NodeEvent) {c' : Control}
    (hc' : c' ∈ (n.run events).controls) (hlt : c'.contentId < n.nextId) :
    ∃ c ∈ n.controls, c.contentId = c'.contentId := by
  induction events generalizing n with
  | nil => exact ⟨c', hc', rfl⟩
  | cons e events ih =>
      obtain ⟨hnext, hback⟩ := exists_control_step h e
      obtain ⟨c, hc, hid⟩ := ih (h.step e) hc' (hlt.trans_le hnext)
      obtain ⟨d, hd, hid'⟩ := hback c hc (by omega)
      exact ⟨d, hd, hid'.trans hid⟩

/-- **The number of an open pane never decreases**, and stays while nothing is seen. -/
theorem seenRevision_run {n : Node} (h : n.Consistent) (events : List NodeEvent) {c' : Control}
    (hc' : c' ∈ (n.run events).controls) (hlt : c'.contentId < n.nextId) :
    seenRevision n.seenRevisions c'.contentId ≤
        seenRevision (n.run events).seenRevisions c'.contentId ∧
      ((∀ e ∈ events, e.sees = false) → seenRevision (n.run events).seenRevisions c'.contentId =
        seenRevision n.seenRevisions c'.contentId) := by
  induction events generalizing n with
  | nil => exact ⟨le_refl _, fun _ => rfl⟩
  | cons e events ih =>
      obtain ⟨c, hc, hid⟩ := exists_control_run h (e :: events) hc' hlt
      have hstep := seenRevision_step h e hc
      rw [hid] at hstep
      obtain ⟨hle, hquiet⟩ := ih (h.step e) hc' (hlt.trans_le (exists_control_step h e).1)
      constructor
      · refine le_trans ?_ hle
        rw [hstep]
        split
        · exact le_max_left _ _
        · exact le_refl _
      · intro hall
        refine (hquiet fun e' he' => hall e' (List.mem_cons_of_mem _ he')).trans ?_
        rw [hstep, if_neg (by simp [hall e List.mem_cons_self])]

/-- What `Derive` is told of a control: each record, seen when it was accepted before the row was
last seen. -/
def Node.Told (n : Node) (c : Control) (input : PaneInput) : Prop :=
  input.paneId = c.contentId ∧
    List.Forall₂ (fun e r => r.id = e.2.id ∧ r.revision = e.2.revision ∧
      (r.seen = true ↔ n.SeenSince c e.2)) c.pane.store.records.entries input.records

/-- A computed row is told which records were seen. -/
theorem told_of_recomputes {n : Node} (h : n.Consistent) {e : NodeEvent}
    (he : e.recomputes = true) : List.Forall₂ (n.step e).Told (n.step e).controls (n.step e).panes := by
  obtain ⟨hcontrols, -, -, -, -, hpanes⟩ := apply_spec n he h.ids_nodup
  have hpanes' : (n.step e).panes =
      (n.step e).controls.map fun c => c.input (n.step e).seenRevisions := by
    show (n.apply e).panes = (n.apply e).controls.map fun c => c.input (n.apply e).seenRevisions
    rw [hpanes, hcontrols]
  rw [hpanes', List.forall₂_map_right_iff, List.forall₂_same]
  intro c hc
  refine ⟨rfl, ?_⟩
  show List.Forall₂ _ _ (List.map _ _)
  rw [List.forall₂_map_right_iff, List.forall₂_same]
  intro r hr
  refine ⟨rfl, rfl, ?_⟩
  show decide (r.2.revision ≤ seenRevision (n.step e).seenRevisions c.contentId) = true ↔ _
  rw [decide_eq_true_iff]
  exact (h.step e).seen_iff c hc r hr

/-- **Seen bookkeeping.** After every run: an event that recomputes the row tells `Derive` that a
stored record is seen exactly when its report was accepted before the last acknowledgement or
focused recomputation; the number of an open pane never decreases; a record that is covered stays
covered until it is reported again; and a report accepted since is not seen before the row is. -/
theorem seen_iff_accepted_before (events : List NodeEvent) :
    (∀ e : NodeEvent, e.recomputes = true →
      List.Forall₂ (Node.start.run (events ++ [e])).Told
        (Node.start.run (events ++ [e])).controls (Node.start.run (events ++ [e])).panes) ∧
    ∀ (more : List NodeEvent), ∀ c ∈ (Node.start.run events).controls,
      ∀ c' ∈ (Node.start.run (events ++ more)).controls, c'.contentId = c.contentId →
        seenRevision (Node.start.run events).seenRevisions c.contentId ≤
            seenRevision (Node.start.run (events ++ more)).seenRevisions c.contentId ∧
          (∀ r ∈ c.pane.store.records.entries, r ∈ c'.pane.store.records.entries →
            (Node.start.run events).SeenSince c r.2 →
            (Node.start.run (events ++ more)).SeenSince c' r.2) ∧
          ((∀ e ∈ more, e.sees = false) → ∀ r ∈ c'.pane.store.records.entries,
            c.pane.store.revision < r.2.revision →
            ¬ (Node.start.run (events ++ more)).SeenSince c' r.2) := by
  have h := consistent_start.run events
  constructor
  · intro e he
    rw [Node.run, List.foldl_append]
    exact told_of_recomputes h he
  · intro more c hc c' hc' hid
    have h' := consistent_start.run (events ++ more)
    have hrun : Node.start.run (events ++ more) = (Node.start.run events).run more := by
      rw [Node.run, List.foldl_append]
      rfl
    have hlt : c'.contentId < (Node.start.run events).nextId := by
      rw [hid]
      exact h.ids_lt c hc
    rw [hrun] at hc' h' ⊢
    obtain ⟨hle, hquiet⟩ := seenRevision_run h more hc' hlt
    rw [hid] at hle hquiet
    refine ⟨hle, fun r hr hr' hseen => ?_, fun hall r hr' hnew hseen => ?_⟩
    · rw [← h'.seen_iff c' hc' r hr', hid]
      exact ((h.seen_iff c hc r hr).mpr hseen).trans hle
    · rw [← h'.seen_iff c' hc' r hr', hid, hquiet hall] at hseen
      have hbound := h.seen_le c hc
      omega

/-- A pane reports `done` in a focused tab and again while the user is elsewhere. -/
def repeatedReport : List NodeEvent :=
  [.openPane 0 true false, .terminal 0 (.report (L "state=done")), .recompute true true,
    .terminal 0 (.report (L "state=done"))]

theorem seen_iff_accepted_before_repeatedReport :
    ((Node.start.run (repeatedReport ++ [.recompute true false])).panes.map fun p =>
        p.records.map RecordInput.seen) = [[false]] ∧
      List.Forall₂ (Node.start.run (repeatedReport ++ [.recompute true false])).Told
        (Node.start.run (repeatedReport ++ [.recompute true false])).controls
        (Node.start.run (repeatedReport ++ [.recompute true false])).panes :=
  ⟨by decide, (seen_iff_accepted_before repeatedReport).1 (.recompute true false) rfl⟩

end Axan.SessionState
