import Axan.ProgramStatus.Store

/-!
# The snapshot of the records and the inherited app

`GetProgramStatusRecords` lists the records in id order. A record without an app of its own takes
the app of its nearest ancestor that has one: the walk cuts the id at its last slash until it is
empty, so the root record is asked last.

* `cutLast`, `inheritApp`, `getProgramStatusRecords` — the code.
* `ProperPathPrefix` — the ancestors of an id; `properPathPrefix_cutLast` is one step up.
* `Inherits` — what the nearest ancestor with an app is; `inherits_inheritApp` is the walk.
* `getProgramStatusRecords_run` — the snapshot of every reachable store.
-/

namespace Axan.ProgramStatus

open Axan.Base

/-! ## The code -/

/-- An id less its last segment; without a slash nothing is left.
Source: `Terminal::GetProgramStatusRecords`, `rfind` and `substr` -/
def cutLast (id : WString) : WString := (id.rdropWhile (· ≠ wide '/')).dropLast

/-- The id without its last part is shorter. -/
theorem length_cutLast_lt {id : WString} (h : id ≠ []) : (cutLast id).length < id.length := by
  have hle : (id.rdropWhile (· ≠ wide '/')).length ≤ id.length :=
    (List.rdropWhile_prefix (· ≠ wide '/') id).length_le
  have hpos := List.length_pos_of_ne_nil h
  rw [cutLast, List.length_dropLast]
  omega

/-- The walk to the nearest ancestor with an app.
Source: `Terminal::GetProgramStatusRecords`, the while loop -/
def inheritApp (records : Records) (ancestor : WString) : Option WString :=
  if _h : ancestor = [] then none
  else
    match records.find? (cutLast ancestor) with
    | some found =>
        if found.app ≠ [] then some found.app else inheritApp records (cutLast ancestor)
    | none => inheritApp records (cutLast ancestor)
termination_by ancestor.length
decreasing_by all_goals exact length_cutLast_lt _h

/-- The records with their effective apps. Source: `Terminal::GetProgramStatusRecords` -/
def Store.getProgramStatusRecords (s : Store) : List ProgramStatusRecord :=
  s.records.entries.map fun e =>
    if e.2.app ≠ [] then { e.2 with effectiveApp := e.2.app }
    else
      match inheritApp s.records e.1 with
      | some app => { e.2 with effectiveApp := app }
      | none => e.2

/-! ## Ancestors -/

/-- The first id is an ancestor of the second: it ends before a slash of it, or it is the empty id
of the root. -/
def ProperPathPrefix (p id : WString) : Prop :=
  id ≠ [] ∧ (p = [] ∨ ∃ t, id = p ++ wide '/' :: t)

theorem ProperPathPrefix.length_lt {p id : WString} (h : ProperPathPrefix p id) :
    p.length < id.length := by
  obtain ⟨hid, rfl | ⟨t, rfl⟩⟩ := h
  · exact List.length_pos_of_ne_nil hid
  · simp

/-- The last part is cut with its slash. -/
theorem cutLast_append {q t : WString} (h : wide '/' ∉ t) : cutLast (q ++ wide '/' :: t) = q := by
  have hdrop : (q ++ wide '/' :: t).rdropWhile (· ≠ wide '/') = q ++ [wide '/'] := by
    induction t using List.reverseRecOn with
    | nil => exact List.rdropWhile_concat_neg _ _ _ (by simp)
    | append_singleton t c ih =>
        rw [List.mem_append, not_or] at h
        have hc : c ≠ wide '/' := fun hc => h.2 (by simp [hc])
        rw [← List.cons_append, ← List.append_assoc,
          List.rdropWhile_concat_pos _ _ _ (by simpa using hc)]
        exact ih h.1
  rw [cutLast, hdrop, List.dropLast_concat]

/-- Without a slash nothing is left. -/
theorem cutLast_eq_nil {id : WString} (h : wide '/' ∉ id) : cutLast id = [] := by
  have hdrop : id.rdropWhile (· ≠ wide '/') = [] := by
    rw [List.rdropWhile_eq_nil_iff]
    intro c hc
    have : c ≠ wide '/' := fun he => h (he ▸ hc)
    simpa using this
  rw [cutLast, hdrop]
  rfl

/-- A text with a slash splits at its last one. -/
theorem exists_lastSlash {id : WString} (h : wide '/' ∈ id) :
    ∃ q t, id = q ++ wide '/' :: t ∧ wide '/' ∉ t := by
  obtain ⟨a, b, hsplit, ha⟩ := List.eq_append_cons_of_mem (List.mem_reverse.mpr h)
  refine ⟨b.reverse, a.reverse, ?_, by simpa using ha⟩
  rw [← List.reverse_inj, hsplit]
  simp

/-- The ancestors of an id are the id less its last segment, and the ancestors of that. -/
theorem properPathPrefix_cutLast {id : WString} (h : id ≠ []) (p : WString) :
    ProperPathPrefix p id ↔ p = cutLast id ∨ ProperPathPrefix p (cutLast id) := by
  by_cases hslash : wide '/' ∈ id
  · obtain ⟨q, t, rfl, ht⟩ := exists_lastSlash hslash
    rw [cutLast_append ht]
    constructor
    · rintro ⟨-, rfl | ⟨t', hsplit⟩⟩
      · by_cases hq : q = []
        · exact Or.inl hq.symm
        · exact Or.inr ⟨hq, Or.inl rfl⟩
      · rcases List.append_eq_append_iff.mp hsplit with ⟨c, hc, ht'⟩ | ⟨c, hc, ht'⟩
        · -- the ancestor is at least as long as the cut, and `t` has no slash
          cases c with
          | nil => exact Or.inl (hc.trans (List.append_nil q))
          | cons d c =>
              rw [List.cons_append, List.cons.injEq] at ht'
              exact absurd (ht'.2 ▸ by simp) ht
        · cases c with
          | nil => exact Or.inl (hc.trans (List.append_nil p)).symm
          | cons d c =>
              rw [List.cons_append, List.cons.injEq] at ht'
              rw [hc, ← ht'.1]
              exact Or.inr ⟨by simp, Or.inr ⟨c, rfl⟩⟩
    · rintro (rfl | ⟨-, hp | ⟨c, rfl⟩⟩)
      · exact ⟨h, Or.inr ⟨t, rfl⟩⟩
      · exact ⟨h, Or.inl hp⟩
      · exact ⟨h, Or.inr ⟨c ++ wide '/' :: t, by simp⟩⟩
  · rw [cutLast_eq_nil hslash]
    constructor
    · rintro ⟨-, hp | ⟨t, rfl⟩⟩
      · exact Or.inl hp
      · exact absurd (by simp) hslash
    · rintro (hp | ⟨hne, -⟩)
      · exact ⟨h, Or.inl hp⟩
      · exact absurd rfl hne

/-! ## The walk -/

/-- An ancestor of the id is stored with an app. -/
def AppAt (records : Records) (id p app : WString) : Prop :=
  ProperPathPrefix p id ∧ ∃ found, records.find? p = some found ∧ found.app = app ∧ app ≠ []

/-- The app of the longest ancestor that is stored with one, or none when no ancestor is. -/
def Inherits (records : Records) (id : WString) : Option WString → Prop
  | some app => ∃ p, AppAt records id p app ∧
      ∀ p' app', AppAt records id p' app' → p'.length ≤ p.length
  | none => ∀ p app, ¬AppAt records id p app

/-- The name is that of the parent, or one further up. -/
theorem appAt_cutLast {records : Records} {id : WString} (h : id ≠ []) (p app : WString) :
    AppAt records id p app ↔
      (p = cutLast id ∧ ∃ found, records.find? p = some found ∧ found.app = app ∧ app ≠ []) ∨
        AppAt records (cutLast id) p app := by
  unfold AppAt
  rw [properPathPrefix_cutLast h, or_and_right]

/-- When the next ancestor has no app, the walk goes on from it. -/
theorem Inherits.of_cutLast {records : Records} {id : WString} (hid : id ≠ [])
    (hnone : ∀ found, records.find? (cutLast id) = some found → found.app = [])
    {app : Option WString} (h : Inherits records (cutLast id) app) : Inherits records id app := by
  have hup : ∀ p a, AppAt records id p a ↔ AppAt records (cutLast id) p a := by
    intro p a
    rw [appAt_cutLast hid]
    constructor
    · rintro (⟨rfl, found, hf, ha, hne⟩ | h)
      · exact absurd (ha ▸ hnone found hf) hne
      · exact h
    · exact Or.inr
  cases app with
  | none => exact fun p a hp => h p a ((hup p a).mp hp)
  | some app =>
      obtain ⟨p, hp, hmax⟩ := h
      exact ⟨p, (hup p app).mpr hp, fun p' a hp' => hmax p' a ((hup p' a).mp hp')⟩

/-- The walk finds what is inherited. -/
theorem inherits_inheritApp (records : Records) (id : WString) :
    Inherits records id (inheritApp records id) := by
  induction id using inheritApp.induct records with
  | case1 =>
      -- the root has no ancestors
      rw [inheritApp, dif_pos rfl]
      exact fun p app hp => hp.1.1 rfl
  | case2 id hid found hfound happ =>
      rw [inheritApp, dif_neg hid, hfound]
      simp only [if_pos happ]
      refine ⟨cutLast id, (appAt_cutLast hid _ _).mpr (Or.inl ⟨rfl, found, hfound, rfl, happ⟩), ?_⟩
      intro p' app' hp'
      rcases (appAt_cutLast hid _ _).mp hp' with ⟨rfl, -⟩ | hp'
      · exact le_rfl
      · exact hp'.1.length_lt.le
  | case3 id hid found hfound happ ih =>
      rw [inheritApp, dif_neg hid, hfound]
      simp only [if_neg happ]
      refine ih.of_cutLast hid fun found' hfound' => ?_
      rw [hfound, Option.some.injEq] at hfound'
      rw [← hfound']
      exact not_not.mp happ
  | case4 id hid hnone ih =>
      rw [inheritApp, dif_neg hid, hnone]
      exact ih.of_cutLast hid fun found hfound => by rw [hnone] at hfound; cases hfound

/-! ## The snapshot -/

/-- No stored record has an effective app: it is resolved in the snapshot only. -/
def Unresolved (s : Store) : Prop := ∀ e ∈ s.records.entries, e.2.effectiveApp = []

/-- No operation resolves a name in the store. -/
theorem Unresolved.step {s : Store} (h : Unresolved s) (op : Op) :
    Unresolved (ProgramStatus.step s op) := by
  intro e he
  rcases step_cases s op with ⟨hsub, -, -⟩ | ⟨r, -, -, -, hs⟩
  · exact h e (hsub.subset he)
  · rw [hs] at he
    rcases OrdMap.mem_insert_iff.mp he with rfl | ⟨he, -⟩
    · rfl
    · exact h e ((makeRoom_sublist s.records r.id).subset he)

theorem unresolved_run {s : Store} (h : Unresolved s) (ops : List Op) : Unresolved (run s ops) := by
  induction ops generalizing s with
  | nil => exact h
  | cons op ops ih => exact ih (h.step op)

/-- What a listed record says about the store: it is the stored record with its effective app. -/
structure Lists (s : Store) (e : WString × ProgramStatusRecord) (out : ProgramStatusRecord) :
    Prop where
  same : { out with effectiveApp := e.2.effectiveApp } = e.2
  own : e.2.app ≠ [] → out.effectiveApp = e.2.app
  inherited : e.2.app = [] → ∃ app, Inherits s.records e.2.id app ∧ out.effectiveApp = app.getD []

/-- **The snapshot of every reachable store** lists the stored records in id order, each once, with
its own app or the one of its nearest ancestor that has an app. -/
theorem getProgramStatusRecords_run (revision : ℕ) (enabled running : Bool) (ops : List Op) :
    let s := run (Store.empty revision enabled running) ops
    List.Forall₂ (Lists s) s.records.entries s.getProgramStatusRecords ∧
      (s.getProgramStatusRecords.map ProgramStatusRecord.id).Pairwise (· < ·) := by
  intro s
  have hinv : Invariant s := invariant_run (invariant_empty revision enabled running) ops
  have hun : Unresolved s := unresolved_run (fun e he => by cases he) ops
  have hlists : List.Forall₂ (Lists s) s.records.entries s.getProgramStatusRecords := by
    unfold Store.getProgramStatusRecords
    rw [List.forall₂_map_right_iff, List.forall₂_same]
    intro e he
    split_ifs with happ
    · exact ⟨rfl, fun _ => rfl, fun h => absurd h happ⟩
    · have hwalk := inherits_inheritApp s.records e.1
      rw [← (hinv.key e he).1] at hwalk ⊢
      cases hi : inheritApp s.records e.2.id with
      | none => exact ⟨rfl, fun h => absurd h happ, fun _ => ⟨none, hi ▸ hwalk, hun e he⟩⟩
      | some app => exact ⟨rfl, fun h => absurd h happ, fun _ => ⟨some app, hi ▸ hwalk, rfl⟩⟩
  refine ⟨hlists, ?_⟩
  have hids : s.getProgramStatusRecords.map ProgramStatusRecord.id =
      s.records.entries.map Prod.fst := by
    unfold Store.getProgramStatusRecords
    rw [List.map_map]
    apply List.map_congr_left
    intro e he
    rw [Function.comp_apply]
    split_ifs
    · exact (hinv.key e he).1
    · cases inheritApp s.records e.1 <;> exact (hinv.key e he).1
  rw [hids]
  exact List.pairwise_map.mpr s.records.sorted

end Axan.ProgramStatus
