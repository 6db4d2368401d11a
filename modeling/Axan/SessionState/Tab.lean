import Axan.Base.Reorder
import Axan.ProgramStatus.Store
import Axan.SessionState.Derive

/-!
# The panes of a tab

Each pane of a tab has a terminal with a record store of its own; the row of the tab is derived
from all of them. Here the stores run together: an event is an operation on one pane, and a clock
counts the events, so that the record of a write has a time at which its report was accepted.

* `Tab`, `step`, `run` — the panes under any interleaving of operations, with the acceptance times
  as ghost state.
* `paneInput` — what `_RecomputeNodeState` hands to `Derive`.
* `Consistent` — the invariant: a pane's revisions are the places of its acceptance times, and no
  two panes accept at one time (`consistent_run`).
* `ShowsLastAccepted` — the documented rule, read across panes: among the records that tie, the row
  shows the one accepted last.
* `showsLastAccepted_iff` — when the rule holds. The revisions the loop compares count the reports
  of one terminal each, so the last report wins only when its pane has accepted the most.
-/

namespace Axan.SessionState

open Axan.Base Axan.ProgramStatus

/-! ### Runs -/

/-- A terminal of a tab, with the times at which it accepted the reports it wrote. -/
structure Pane where
  store : Store
  accepted : List ℕ

/-- A tab: its panes and the number of events so far. -/
structure Tab where
  panes : List Pane
  clock : ℕ

/-- An operation on one of the panes. -/
structure Event where
  pane : ℕ
  op : Op

/-- An operation on a pane at a time; a write raises the revision counter. -/
def Pane.step (p : Pane) (op : Op) (now : ℕ) : Pane where
  store := ProgramStatus.step p.store op
  accepted :=
    if p.store.revision < (ProgramStatus.step p.store op).revision then p.accepted ++ [now]
    else p.accepted

/-- One event. -/
def Tab.step (t : Tab) (e : Event) : Tab where
  panes := t.panes.modify e.pane fun p => p.step e.op t.clock
  clock := t.clock + 1

/-- A finite run. -/
def Tab.run (t : Tab) (events : List Event) : Tab := events.foldl Tab.step t

/-- A tab whose terminals have just started, each with its feature switch and command mark. -/
def Tab.start (flags : List (Bool × Bool)) : Tab where
  panes := flags.map fun f => ⟨Store.empty 0 f.1 f.2, []⟩
  clock := 0

/-! ### The inputs of the row -/

/-- What a row knows of a pane besides its terminal: the content id, the title, and the highest
revision shown to the user. -/
structure PaneInfo where
  paneId : ℕ
  terminalTitle : WString
  seenRevision : ℕ
  deriving DecidableEq, Repr

/-- The cast between the enumerations, by number; no record holds `clear`. -/
def recordState : ProgramStatus.State → RecordState
  | .idle => .idle
  | .working => .working
  | .done => .done
  | .blocked => .blocked
  | .error => .error
  | .clear => .idle

/-- The cast between the enumerations, by number. -/
def recordKind : ProgramStatus.Kind → RecordKind
  | .none => .none
  | .permission => .permission
  | .question => .question
  | .auth => .auth

/-- Source: `_RecomputeNodeState`, the loop over the records -/
def recordInput (info : PaneInfo) (r : ProgramStatusRecord) : RecordInput where
  isRoot := r.id.isEmpty
  id := r.id
  state := recordState r.state
  kind := recordKind r.kind
  msg := r.msg
  title := r.title
  revision := r.revision
  seen := r.revision ≤ info.seenRevision

/-- Source: `_RecomputeNodeState`, the loop over the controls -/
def paneInput (info : PaneInfo) (p : Pane) : PaneInput where
  records := p.store.records.entries.map fun e => recordInput info e.2
  commandRunning := p.store.shellCommandRunning
  paneId := info.paneId
  terminalTitle := info.terminalTitle

/-- The inputs of `Derive` for a tab. -/
def Tab.inputs (t : Tab) (infos : ℕ → PaneInfo) : List PaneInput :=
  t.panes.mapIdx fun i p => paneInput (infos i) p

/-! ### The documented rule -/

/-- When the report of a record was accepted. -/
def Tab.timeOf (t : Tab) (c : Cand) : ℕ :=
  ((t.panes[c.place]?.map Pane.accepted).getD []).getD (c.record.revision - 1) 0

/-- How many reports the pane of a record had accepted when it accepted that one. -/
def Tab.reportsAt (t : Tab) (c : Cand) : ℕ :=
  (((t.panes[c.place]?.map Pane.accepted).getD []).filter fun time => time ≤ t.timeOf c).length

/-- The record whose message and kind the row shows. -/
def Tab.shown (t : Tab) (infos : ℕ → PaneInfo) : Option Cand :=
  (pickLoop 0 (t.inputs infos) {}).best

/-- **The documented rule across the panes of a tab**: of the records that share the row state of
the one shown, and agree with it on being root, none was accepted later. -/
def ShowsLastAccepted (t : Tab) (infos : ℕ → PaneInfo) : Prop :=
  ∀ c, t.shown infos = some c → ∀ d ∈ cands 0 (t.inputs infos),
    fromRecord d.record = fromRecord c.record → d.record.isRoot = c.record.isRoot →
    t.timeOf d ≤ t.timeOf c

instance (t : Tab) (infos : ℕ → PaneInfo) : Decidable (ShowsLastAccepted t infos) :=
  inferInstanceAs <| Decidable <| ∀ c ∈ t.shown infos, ∀ d ∈ cands 0 (t.inputs infos),
    fromRecord d.record = fromRecord c.record → d.record.isRoot = c.record.isRoot →
    t.timeOf d ≤ t.timeOf c

/-- A record that ties for the row: its row state is the strongest of the tab, and it is the root
if a root record has that state. -/
def Ties (t : Tab) (infos : ℕ → PaneInfo) (c : Cand) : Prop :=
  c ∈ cands 0 (t.inputs infos) ∧
    (∀ x ∈ items 0 (t.inputs infos), rank x.state ≤ rank (fromRecord c.record)) ∧
    ∀ d ∈ cands 0 (t.inputs infos), fromRecord d.record = fromRecord c.record →
      d.record.isRoot = true → c.record.isRoot = true

/-- Of the records that tie, the one accepted last comes from the pane that had accepted the most
reports by then, or as many as another and stands first among the panes. -/
def LastHasMostReports (t : Tab) (infos : ℕ → PaneInfo) : Prop :=
  ∀ l, Ties t infos l → (∀ d, Ties t infos d → t.timeOf d ≤ t.timeOf l) →
    ∀ d, Ties t infos d → d ≠ l →
      t.reportsAt d < t.reportsAt l ∨ t.reportsAt d = t.reportsAt l ∧ l.place < d.place

/-! ## The ghost state is consistent -/

/-- What holds of a pane at a time. -/
structure Pane.Consistent (p : Pane) (now : ℕ) : Prop where
  inv : Invariant p.store
  /-- One acceptance time for each revision. -/
  length : p.accepted.length = p.store.revision
  increasing : p.accepted.Pairwise (· < ·)
  past : ∀ time ∈ p.accepted, time < now
  /-- Revisions start at one. -/
  positive : ∀ e ∈ p.store.records.entries, 0 < e.2.revision

/-- The invariant of a run. -/
structure Tab.Consistent (t : Tab) : Prop where
  pane : ∀ p ∈ t.panes, p.Consistent t.clock
  /-- No two panes accept at one time. -/
  disjoint : t.panes.Pairwise fun p q => List.Disjoint p.accepted q.accepted

theorem Pane.Consistent.mono {p : Pane} {now later : ℕ} (h : p.Consistent now)
    (hle : now ≤ later) : p.Consistent later where
  inv := h.inv
  length := h.length
  increasing := h.increasing
  past time ht := lt_of_lt_of_le (h.past time ht) hle
  positive := h.positive

/-- The step lemma for a pane. -/
theorem Pane.Consistent.step {p : Pane} {now : ℕ} (h : p.Consistent now) (op : Op) :
    (p.step op now).Consistent (now + 1) := by
  have hinv : Invariant (ProgramStatus.step p.store op) := h.inv.step op
  rcases step_cases p.store op with ⟨hsub, hrev, -⟩ | ⟨r, -, -, -, hs⟩
  · have hacc : (p.step op now).accepted = p.accepted := by
      unfold Pane.step
      simp [hrev]
    refine ⟨hinv, ?_, ?_, ?_, ?_⟩
    · rw [hacc]
      exact h.length.trans hrev.symm
    · rw [hacc]
      exact h.increasing
    · rw [hacc]
      intro time ht
      exact (h.past time ht).trans (Nat.lt_succ_self now)
    · intro e he
      exact h.positive e (hsub.subset he)
  · have hrev : (ProgramStatus.step p.store op).revision = p.store.revision + 1 := by
      rw [hs]
      rfl
    have hacc : (p.step op now).accepted = p.accepted ++ [now] := by
      unfold Pane.step
      simp [hrev]
    refine ⟨hinv, ?_, ?_, ?_, ?_⟩
    · rw [hacc, List.length_append, h.length]
      exact hrev.symm
    · rw [hacc, List.pairwise_append]
      refine ⟨h.increasing, List.pairwise_singleton _ _, fun a ha b hb => ?_⟩
      rw [List.mem_singleton.mp hb]
      exact h.past a ha
    · rw [hacc]
      intro time ht
      rcases List.mem_append.mp ht with ht | ht
      · exact (h.past time ht).trans (Nat.lt_succ_self now)
      · rw [List.mem_singleton.mp ht]
        exact Nat.lt_succ_self now
    · intro e he
      have he' : e ∈ ((makeRoom p.store.records r.id).insert r.id
          (recordOf r (p.store.revision + 1))).entries := by
        have : (p.step op now).store = (p.store.write r).notify := hs
        rw [this] at he
        exact he
      rcases (OrdMap.mem_insert_iff ..).mp he' with rfl | ⟨he', -⟩
      · exact Nat.succ_pos _
      · exact h.positive e ((makeRoom_sublist _ _).subset he')

/-- What is accepted is accepted now. -/
theorem accepted_step (p : Pane) (op : Op) (now : ℕ) :
    ∀ time ∈ (p.step op now).accepted, time ∈ p.accepted ∨ time = now := by
  intro time ht
  unfold Pane.step at ht
  simp only at ht
  split_ifs at ht
  · rcases List.mem_append.mp ht with ht | ht
    · exact Or.inl ht
    · exact Or.inr (List.mem_singleton.mp ht)
  · exact Or.inl ht

/-- The step lemma. -/
theorem Tab.Consistent.step {t : Tab} (h : t.Consistent) (e : Event) : (t.step e).Consistent := by
  unfold Tab.step
  cases hp : t.panes[e.pane]? with
  | none =>
      have hmod : t.panes.modify e.pane (fun p => p.step e.op t.clock) = t.panes :=
        List.modify_eq_self (List.getElem?_eq_none_iff.mp hp)
      refine ⟨?_, ?_⟩
      · rw [hmod]
        exact fun p hp => (h.pane p hp).mono (Nat.le_succ _)
      · rw [hmod]
        exact h.disjoint
  | some p =>
      obtain ⟨pre, post, hl, hlen⟩ := split_of_getElem? hp
      have hmod : t.panes.modify e.pane (fun p => p.step e.op t.clock) =
          pre ++ p.step e.op t.clock :: post := by
        rw [hl, hlen]
        exact modify_split pre post p _
      have hdis := h.disjoint
      rw [hl, List.pairwise_append, List.pairwise_cons] at hdis
      have hother : ∀ q ∈ pre ++ post, q ∈ t.panes := by
        intro q hq
        rw [hl]
        simp only [List.mem_append, List.mem_cons] at hq ⊢
        tauto
      -- the new time is later than those of the other panes
      have hnew : ∀ q ∈ pre ++ post, List.Disjoint p.accepted q.accepted →
          List.Disjoint (p.step e.op t.clock).accepted q.accepted := by
        intro q hq hpq time h₁ h₂
        rcases accepted_step p e.op t.clock time h₁ with h₁ | h₁
        · exact hpq h₁ h₂
        · have := (h.pane q (hother q hq)).past time h₂
          omega
      refine ⟨?_, ?_⟩
      · rw [hmod]
        intro q hq
        simp only [List.mem_append, List.mem_cons] at hq
        rcases hq with hq | rfl | hq
        · exact (h.pane q (hother q (List.mem_append_left _ hq))).mono (Nat.le_succ _)
        · exact (h.pane p (by rw [hl]; simp)).step e.op
        · exact (h.pane q (hother q (List.mem_append_right _ hq))).mono (Nat.le_succ _)
      · rw [hmod, List.pairwise_append, List.pairwise_cons]
        refine ⟨hdis.1, ⟨fun q hq => ?_, hdis.2.1.2⟩, fun q hq r hr => ?_⟩
        · exact hnew q (List.mem_append_right _ hq) (hdis.2.1.1 q hq)
        · rcases List.mem_cons.mp hr with rfl | hr
          · have := hdis.2.2 q hq p List.mem_cons_self
            exact (hnew q (List.mem_append_left _ hq) this.symm).symm
          · exact hdis.2.2 q hq r (List.mem_cons_of_mem _ hr)

/-- A terminal that has just started. -/
theorem consistent_fresh (enabled running : Bool) (now : ℕ) :
    Pane.Consistent ⟨Store.empty 0 enabled running, []⟩ now := by
  refine ⟨invariant_empty 0 enabled running, rfl, List.Pairwise.nil, by simp, ?_⟩
  intro e he
  simp [Store.empty] at he

/-- The run lemma. -/
theorem consistent_run (flags : List (Bool × Bool)) (events : List Event) :
    ((Tab.start flags).run events).Consistent := by
  have hstart : (Tab.start flags).Consistent := by
    refine ⟨fun p hp => ?_, ?_⟩
    · obtain ⟨f, -, rfl⟩ := List.mem_map.mp hp
      exact consistent_fresh f.1 f.2 0
    · unfold Tab.start
      rw [List.pairwise_map]
      exact List.pairwise_of_forall fun _ _ => List.disjoint_nil_left _
  have hrun : ∀ (events : List Event) (t : Tab), t.Consistent → (t.run events).Consistent := by
    intro events
    induction events with
    | nil => intro t h; exact h
    | cons e events ih => intro t h; exact ih _ (h.step e)
  exact hrun events _ hstart

/-! ## Times and revisions -/

/-- In an increasing list the entries up to one are those at its index and before. -/
theorem length_filter_le_getElem {l : List ℕ} (h : l.Pairwise (· < ·)) {k : ℕ}
    (hk : k < l.length) : (l.filter fun x => x ≤ l[k]).length = k + 1 := by
  obtain ⟨pre, post, hl, hlen⟩ := split_of_getElem? (List.getElem?_eq_getElem hk)
  generalize l[k] = x at hl
  subst hl hlen
  rw [List.pairwise_append, List.pairwise_cons] at h
  have h₁ : pre.filter (fun y => y ≤ x) = pre := List.filter_eq_self.mpr fun y hy =>
    decide_eq_true (h.2.2 y hy x List.mem_cons_self).le
  have h₂ : post.filter (fun y => y ≤ x) = [] := List.filter_eq_nil_iff.mpr fun y hy => by
    have := h.2.1.1 y hy
    simpa using this
  rw [List.filter_append, h₁, List.filter_cons_of_pos (by simp), h₂]
  simp

/-- A candidate is the input of a record of the pane at its place. -/
theorem exists_record {t : Tab} {infos : ℕ → PaneInfo} {c : Cand}
    (hc : c ∈ cands 0 (t.inputs infos)) : ∃ p e, t.panes[c.place]? = some p ∧
      e ∈ p.store.records.entries ∧ c = ⟨c.place, paneInput (infos c.place) p,
        recordInput (infos c.place) e.2⟩ := by
  obtain ⟨i, hi, hplace, hr⟩ := mem_cands.mp hc
  rw [Nat.zero_add] at hplace
  subst hplace
  unfold Tab.inputs at hi
  rw [List.getElem?_mapIdx] at hi
  obtain ⟨p, hp, hpane⟩ := Option.map_eq_some_iff.mp hi
  rw [← hpane] at hr
  obtain ⟨e, he, hrec⟩ := List.mem_map.mp hr
  refine ⟨p, e, hp, he, ?_⟩
  obtain ⟨place, pane, record⟩ := c
  simp only at hpane hrec ⊢
  rw [hpane, hrec]

section consistent

variable {t : Tab} (ht : t.Consistent) {infos : ℕ → PaneInfo}
include ht

/-- The acceptance time of a candidate, in its pane. -/
theorem timeOf_spec {c : Cand} (hc : c ∈ cands 0 (t.inputs infos)) :
    ∃ p, t.panes[c.place]? = some p ∧ 0 < c.record.revision ∧
      ∃ h : c.record.revision - 1 < p.accepted.length,
        t.timeOf c = p.accepted[c.record.revision - 1] := by
  obtain ⟨p, e, hp, he, hceq⟩ := exists_record hc
  have hpc := ht.pane p (List.mem_of_getElem? hp)
  have hrev : c.record.revision = e.2.revision := by
    rw [hceq]
    rfl
  have hpos := hpc.positive e he
  have hle := hpc.inv.revision_le e he
  have hlt : c.record.revision - 1 < p.accepted.length := by
    rw [hpc.length]
    omega
  refine ⟨p, hp, by omega, hlt, ?_⟩
  unfold Tab.timeOf
  rw [hp]
  simp [hlt]

/-- **A revision counts the reports of its own pane.** -/
theorem reportsAt_eq {c : Cand} (hc : c ∈ cands 0 (t.inputs infos)) :
    t.reportsAt c = c.record.revision := by
  obtain ⟨p, hp, hpos, hlt, htime⟩ := timeOf_spec ht hc
  have hpc := ht.pane p (List.mem_of_getElem? hp)
  unfold Tab.reportsAt
  rw [hp, htime]
  simp only [Option.map_some, Option.getD_some]
  rw [length_filter_le_getElem hpc.increasing hlt]
  omega

/-- Candidates of one pane with one revision are the same. -/
theorem eq_of_revision_eq {c d : Cand} (hc : c ∈ cands 0 (t.inputs infos))
    (hd : d ∈ cands 0 (t.inputs infos)) (hplace : c.place = d.place)
    (hrev : c.record.revision = d.record.revision) : c = d := by
  obtain ⟨p, e, hp, he, hceq⟩ := exists_record hc
  obtain ⟨q, f, hq, hf, hdeq⟩ := exists_record hd
  rw [hplace] at hp hceq
  obtain rfl : p = q := Option.some.inj (hp.symm.trans hq)
  have hpc := ht.pane p (List.mem_of_getElem? hp)
  have hef : e.2.revision = f.2.revision := by
    have h₁ : c.record.revision = e.2.revision := by rw [hceq]; rfl
    have h₂ : d.record.revision = f.2.revision := by rw [hdeq]; rfl
    rw [← h₁, ← h₂, hrev]
  have : e = f := by
    by_contra hne
    have hsymm : Std.Symm fun a b : WString × ProgramStatusRecord =>
        a.2.revision ≠ b.2.revision := ⟨fun a b h => Ne.symm h⟩
    exact hpc.inv.revisions_distinct.forall he hf hne hef
  rw [hceq, hdeq, this]

/-- No two records were accepted at one time. -/
theorem eq_of_timeOf_eq {c d : Cand} (hc : c ∈ cands 0 (t.inputs infos))
    (hd : d ∈ cands 0 (t.inputs infos)) (htime : t.timeOf c = t.timeOf d) : c = d := by
  obtain ⟨p, hp, hcpos, hclt, hct⟩ := timeOf_spec ht hc
  obtain ⟨q, hq, hdpos, hdlt, hdt⟩ := timeOf_spec ht hd
  by_cases hplace : c.place = d.place
  · apply eq_of_revision_eq ht hc hd hplace
    rw [hplace] at hp
    obtain rfl : p = q := Option.some.inj (hp.symm.trans hq)
    have hnd : p.accepted.Nodup :=
      (ht.pane p (List.mem_of_getElem? hp)).increasing.imp fun h => ne_of_lt h
    have := (List.Nodup.getElem_inj_iff hnd).mp (hct.symm.trans (htime.trans hdt))
    omega
  · exfalso
    obtain ⟨hi, rfl⟩ := List.getElem?_eq_some_iff.mp hp
    obtain ⟨hj, rfl⟩ := List.getElem?_eq_some_iff.mp hq
    have hdis : List.Disjoint t.panes[c.place].accepted t.panes[d.place].accepted := by
      rcases Nat.lt_or_gt_of_ne hplace with hlt | hlt
      · exact List.pairwise_iff_getElem.mp ht.disjoint _ _ hi hj hlt
      · exact (List.pairwise_iff_getElem.mp ht.disjoint _ _ hj hi hlt).symm
    refine hdis (List.getElem_mem hclt) ?_
    rw [← hct, htime, hdt]
    exact List.getElem_mem hdlt

end consistent

/-! ## When the last report is shown -/

/-- The order of the candidates, spelled out. -/
theorem key_le_iff {c d : Cand} : (Item.record d).key ≤ (Item.record c).key ↔
    rank (fromRecord d.record) < rank (fromRecord c.record) ∨
      rank (fromRecord d.record) = rank (fromRecord c.record) ∧
        (d.record.isRoot = false ∧ c.record.isRoot = true ∨
          d.record.isRoot = c.record.isRoot ∧ d.record.revision ≤ c.record.revision) := by
  have hroot : d.record.isRoot.toNat = c.record.isRoot.toNat ↔
      d.record.isRoot = c.record.isRoot := by
    cases c.record.isRoot <;> cases d.record.isRoot <;> simp
  simp only [Item.key, Prod.Lex.toLex_le_toLex, toNat_lt_toNat, hroot, lt_self_iff_false,
    false_or, true_and]

/-- It goes by rank first. -/
theorem rank_le_of_key_le {x : Item} {c : Cand} (h : x.key ≤ (Item.record c).key) :
    rank x.state ≤ rank (fromRecord c.record) := by
  cases x with
  | record d =>
      rcases key_le_iff.mp h with h | h
      · exact h.le
      · exact h.1.le
  | command s =>
      simp only [Item.key, Prod.Lex.toLex_le_toLex] at h
      rcases h with h | h
      · exact h.le
      · exact h.1.le

/-- The record shown ties, and nothing that ties has a larger key. -/
theorem ties_of_shown {t : Tab} {infos : ℕ → PaneInfo} {c : Cand} (h : t.shown infos = some c) :
    Ties t infos c ∧ ∀ x ∈ items 0 (t.inputs infos), x.key ≤ (Item.record c).key := by
  obtain ⟨pre, post, hl, hpre, hpost⟩ :=
    firstMax_split Item.key ((pickLoop_best_iff _ c).mp h)
  have hmax : ∀ x ∈ items 0 (t.inputs infos), x.key ≤ (Item.record c).key := by
    intro x hx
    rw [hl] at hx
    simp only [List.mem_append, List.mem_cons] at hx
    rcases hx with hx | rfl | hx
    · exact (hpre x hx).le
    · exact le_refl _
    · exact hpost x hx
  have hmem : c ∈ cands 0 (t.inputs infos) := by
    apply record_mem_items.mp
    rw [hl]
    simp
  refine ⟨⟨hmem, fun x hx => rank_le_of_key_le (hmax x hx), fun d hd hs hroot => ?_⟩, hmax⟩
  rcases key_le_iff.mp (hmax _ (record_mem_items.mpr hd)) with hlt | ⟨-, h | h⟩
  · rw [hs] at hlt
    exact absurd hlt (lt_irrefl _)
  · exact h.2
  · rw [← h.1]
    exact hroot

/-- Where records tie, one of them is shown. -/
theorem exists_shown {t : Tab} {infos : ℕ → PaneInfo} {l : Cand} (h : Ties t infos l) :
    ∃ c, t.shown infos = some c := by
  obtain ⟨hl, hrank, -⟩ := h
  have hmem := record_mem_items.mpr hl
  cases hm : firstMax Item.key (items 0 (t.inputs infos)) with
  | none =>
      rw [(firstMax_eq_none_iff _ _).mp hm] at hmem
      simp at hmem
  | some x =>
      obtain ⟨pre, post, hsplit, hpre, hpost⟩ := firstMax_split Item.key hm
      cases x with
      | record c => exact ⟨c, (pickLoop_best_iff _ c).mpr hm⟩
      | command s =>
          -- a command mark of that state would lose to the record
          exfalso
          have hle : (Item.record l).key ≤ (Item.command s).key := by
            rw [hsplit] at hmem
            simp only [List.mem_append, List.mem_cons, reduceCtorEq, false_or] at hmem
            rcases hmem with hmem | hmem
            · exact (hpre _ hmem).le
            · exact hpost _ hmem
          have hs := hrank (.command s) (by rw [hsplit]; simp)
          simp only [Item.state] at hs
          simp only [Item.key, Prod.Lex.toLex_le_toLex] at hle
          rcases hle with hlt | ⟨-, hlt | ⟨h, -⟩⟩
          · omega
          · omega
          · exact absurd h (by decide)

/-- Records that tie agree on their row state and on being root. -/
theorem Ties.agree {t : Tab} {infos : ℕ → PaneInfo} {c d : Cand} (hc : Ties t infos c)
    (hd : Ties t infos d) : fromRecord d.record = fromRecord c.record ∧
      d.record.isRoot = c.record.isRoot := by
  have h₁ := hc.2.1 _ (record_mem_items.mpr hd.1)
  have h₂ := hd.2.1 _ (record_mem_items.mpr hc.1)
  have hs : fromRecord d.record = fromRecord c.record := rank_injective (le_antisymm h₁ h₂)
  refine ⟨hs, ?_⟩
  have hdc := hc.2.2 d hd.1 hs
  have hcd := hd.2.2 c hc.1 hs.symm
  cases hcr : c.record.isRoot with
  | true => exact hcd hcr
  | false =>
      by_contra hdr
      rw [Bool.not_eq_false] at hdr
      rw [hdc hdr] at hcr
      cases hcr

/-- The record shown has the highest revision of those that tie, and the first place. -/
theorem lt_of_shown {t : Tab} (ht : t.Consistent) {infos : ℕ → PaneInfo} {c d : Cand}
    (h : t.shown infos = some c) (hd : Ties t infos d) (hne : d ≠ c) :
    d.record.revision < c.record.revision ∨
      d.record.revision = c.record.revision ∧ c.place < d.place := by
  obtain ⟨hc, hmax⟩ := ties_of_shown h
  obtain ⟨hs, hroot⟩ := hc.agree hd
  have hle : d.record.revision ≤ c.record.revision := by
    rcases key_le_iff.mp (hmax _ (record_mem_items.mpr hd.1)) with hlt | ⟨-, h' | h'⟩
    · rw [hs] at hlt
      exact absurd hlt (lt_irrefl _)
    · rw [hroot, h'.2] at h'
      cases h'.1
    · exact h'.2
  rcases Nat.lt_or_eq_of_le hle with hlt | heq
  · exact Or.inl hlt
  · refine Or.inr ⟨heq, ?_⟩
    obtain ⟨pre, post, hl, hpre, -⟩ := firstMax_split Item.key ((pickLoop_best_iff _ c).mp h)
    have hmem := record_mem_items.mpr hd.1
    rw [hl] at hmem
    simp only [List.mem_append, List.mem_cons, Item.record.injEq, hne, false_or] at hmem
    have hkey : (Item.record c).key ≤ (Item.record d).key :=
      key_le_iff.mpr (Or.inr ⟨by rw [hs], Or.inr ⟨hroot.symm, heq.ge⟩⟩)
    rcases hmem with hmem | hmem
    · exact absurd (hpre _ hmem) (not_lt.mpr hkey)
    · have hplace := place_le_of_items hl hmem
      refine lt_of_le_of_ne hplace fun he => hne ?_
      exact eq_of_revision_eq ht hd.1 hc.1 he.symm heq

/-- **When the row shows the report accepted last**: in every state of every run of the panes, the
documented rule holds exactly when the last accepted of the tied records is the one whose pane had
accepted the most reports by then. Records of one pane always meet that. -/
theorem showsLastAccepted_iff (flags : List (Bool × Bool)) (events : List Event)
    (infos : ℕ → PaneInfo) :
    ShowsLastAccepted ((Tab.start flags).run events) infos ↔
      LastHasMostReports ((Tab.start flags).run events) infos := by
  have ht := consistent_run flags events
  set t := (Tab.start flags).run events
  constructor
  · intro hshow l hl hlast d hd hne
    obtain ⟨c, hc⟩ := exists_shown hl
    have hct := (ties_of_shown hc).1
    obtain ⟨hs, hroot⟩ := hct.agree hl
    obtain rfl : l = c := by
      apply eq_of_timeOf_eq ht hl.1 hct.1
      exact le_antisymm (hshow c hc l hl.1 hs hroot) (hlast c hct)
    rw [reportsAt_eq ht hd.1, reportsAt_eq ht hl.1]
    exact lt_of_shown ht hc hd hne
  · intro hmost c hc d hd hs hroot
    have hct := (ties_of_shown hc).1
    -- the last accepted of the tied records
    obtain ⟨l, hl, hlast⟩ : ∃ l, Ties t infos l ∧ ∀ d, Ties t infos d → t.timeOf d ≤ t.timeOf l := by
      classical
      have hne : (((cands 0 (t.inputs infos)).filter fun d => Ties t infos d).toFinset).Nonempty :=
        ⟨c, by simp [hct, hct.1]⟩
      obtain ⟨l, hl, hmax⟩ := Finset.exists_max_image _ t.timeOf hne
      simp only [List.mem_toFinset, List.mem_filter, decide_eq_true_eq] at hl hmax
      exact ⟨l, hl.2, fun d hd => hmax d ⟨hd.1, hd⟩⟩
    have hdt : Ties t infos d := by
      refine ⟨hd, fun x hx => ?_, fun e he hse hre => ?_⟩
      · rw [hs]
        exact hct.2.1 x hx
      · rw [hroot]
        exact hct.2.2 e he (hse.trans hs) hre
    obtain rfl : l = c := by
      by_contra hne
      have h₁ := lt_of_shown ht hc hl hne
      have h₂ := hmost l hl hlast c hct fun h => hne h.symm
      rw [reportsAt_eq ht hct.1, reportsAt_eq ht hl.1] at h₂
      omega
    exact hlast d hdt

/-- Two panes: the first asks for a permission as its second report, then the second asks a
question as its first. The question was accepted last; the row shows the permission. -/
theorem shows_earlier_report :
    (derive (((Tab.start [(true, false), (true, false)]).run
        [⟨0, .report (L "state=working")⟩, ⟨0, .report (L "state=blocked:kind=permission")⟩,
          ⟨1, .report (L "state=blocked:kind=question")⟩]).inputs fun i => ⟨i, [], 0⟩)
      false false).kind = L "permission" ∧
    ¬ShowsLastAccepted ((Tab.start [(true, false), (true, false)]).run
        [⟨0, .report (L "state=working")⟩, ⟨0, .report (L "state=blocked:kind=permission")⟩,
          ⟨1, .report (L "state=blocked:kind=question")⟩]) fun i => ⟨i, [], 0⟩ := by
  decide

end Axan.SessionState
