import Axan.Base.FirstMax
import Axan.Base.Text

/-!
# The state of a session row: `AxanSessionState.h`

A row shows one state for all panes of its tab. `Derive` picks it from the panes' program-status
records, from the shell's command marks where a pane has no record, and from the bell.

* `derive` — the function, cut where the source has its loops: `pickLoop` finds the strongest
  state and the record it comes from, `keepLoop` the report to keep on display, `agentNameOf` the
  agent's name.
* `Item`, `Item.key` — the pick as a maximum: every record, and every pane without one, with the
  key the loop compares by. `pickLoop_represents` says that the loop finds the first maximum.
* `pickLoop_best_iff` — so the record a row shows is a record of the strongest state, root if one
  of those is, with the highest revision, and the first of these.

A pointer to a pane is its place in the list.
-/

namespace Axan.SessionState

open Axan.Base

/-- The states of a row, the strongest last. Source: `SessionState::State` -/
inductive State where
  | idle
  | running
  | working
  | doneUnseen
  | error
  | needsYou
  deriving DecidableEq, Repr

/-- Source: `RecordState` -/
inductive RecordState where
  | idle
  | working
  | done
  | blocked
  | error
  deriving DecidableEq, Repr

/-- Source: `RecordKind` -/
inductive RecordKind where
  | none
  | permission
  | question
  | auth
  deriving DecidableEq, Repr

/-- Source: `RecordInput` -/
structure RecordInput where
  isRoot : Bool
  id : WString
  state : RecordState
  kind : RecordKind
  msg : WString
  title : WString
  revision : ℕ
  seen : Bool
  deriving DecidableEq, Repr

/-- Source: `PaneInput` -/
structure PaneInput where
  records : List RecordInput
  commandRunning : Bool
  paneId : ℕ
  terminalTitle : WString
  deriving DecidableEq, Repr

/-- Source: `Slot` -/
inductive Slot where
  | none
  | idle
  | working
  | blocked
  | done
  | error
  | running
  deriving DecidableEq, Repr

/-- A seen report kept on display. Source: `Retained` -/
structure Retained where
  present : Bool := false
  state : RecordState := .done
  message : WString := []
  deriving DecidableEq, Repr

/-- Source: `Result` -/
structure Result where
  state : State := .idle
  message : WString := []
  kind : WString := []
  source : String := "none"
  slot : Slot := .none
  agentName : WString := []
  retained : Retained := {}
  reportKey : WString := []
  deriving DecidableEq, Repr

/-- Source: `Rank` -/
def rank : State → ℕ
  | .idle => 0
  | .running => 1
  | .working => 2
  | .doneUnseen => 3
  | .error => 4
  | .needsYou => 5

/-- No two states have the same rank. -/
theorem rank_injective : Function.Injective rank := by
  intro s t h
  cases s <;> cases t <;> first | rfl | exact absurd h (by decide)

/-- Source: `KindName` -/
def kindName : RecordKind → WString
  | .permission => L "permission"
  | .question => L "question"
  | .auth => L "auth"
  | .none => []

/-- The row state of a record; a seen outcome rests. Source: `FromRecord` -/
def fromRecord (r : RecordInput) : State :=
  match r.state with
  | .blocked => .needsYou
  | .error => if r.seen then .idle else .error
  | .done => if r.seen then .idle else .doneUnseen
  | .working => .working
  | .idle => .idle

/-- The number of a record state. -/
def RecordState.toNat : RecordState → ℕ
  | .idle => 0
  | .working => 1
  | .done => 2
  | .blocked => 3
  | .error => 4

/-- Source: `ReportKey` -/
def reportKey (pane : PaneInput) (r : RecordInput) : WString :=
  L (toString pane.paneId) ++ L ":" ++ r.id ++ L ":" ++ L (toString r.state.toNat)

/-- A unit that stops the strip at the front of a title. Source: `CleanTerminalTitle`, `nameChar` -/
def nameChar (c : WChar) : Bool :=
  inRange '0' '9' c || inRange 'A' 'Z' c || inRange 'a' 'z' c || c = wide '_' || c = wide '-' ||
    c = wide '.' || c = wide '(' || c = wide '[' || c = wide '~' || c = wide '/' ||
    (0x00C0 ≤ c.val && c.val < 0x2000) || (0x3040 ≤ c.val && c.val < 0xD800) ||
    (0xF900 ≤ c.val && c.val < 0xFFF0)

/-- Source: `CleanTerminalTitle` -/
def cleanTerminalTitle (title : WString) : WString :=
  (title.dropWhile fun c => !nameChar c).rdropWhile fun c => c = wide ' ' || c = wide '\t'

/-! ### The pick -/

/-- A record and the pane it is in. -/
structure Cand where
  /-- The pane's place in the list. -/
  place : ℕ
  pane : PaneInput
  record : RecordInput
  deriving DecidableEq, Repr

/-- What the first loop of `Derive` carries: `best`, `haveBest`, and `bestRecord` with
`bestPane`. -/
structure Pick where
  haveBest : Bool := false
  state : State := .idle
  source : String := "none"
  best : Option Cand := none
  deriving DecidableEq, Repr

/-- Does a record win over another of the same row state? -/
def newer (r s : RecordInput) : Bool :=
  (r.isRoot && !s.isRoot) || (r.isRoot = s.isRoot && r.revision > s.revision)

/-- Source: `Derive`, `better` -/
def better (b : Pick) (r : RecordInput) : Bool :=
  !b.haveBest || rank (fromRecord r) > rank b.state ||
    (rank (fromRecord r) = rank b.state &&
      match b.best with
      | some c => newer r c.record
      | none => true)

/-- One record of the first loop. -/
def pickRecord (b : Pick) (c : Cand) : Pick :=
  if better b c.record then ⟨true, fromRecord c.record, "osc7501", some c⟩ else b

/-- A pane without records, in the first loop. -/
def pickCommand (b : Pick) (running : Bool) : Pick :=
  let s := if running then State.running else State.idle
  if !b.haveBest || rank s > rank b.state then
    ⟨true, s, if running then "osc133" else "none", none⟩
  else b

/-- The records of a pane with their place. -/
def candsOf (place : ℕ) (pane : PaneInput) : List Cand :=
  pane.records.map fun r => ⟨place, pane, r⟩

/-- One pane of the first loop. -/
def pickPane (b : Pick) (place : ℕ) (pane : PaneInput) : Pick :=
  if pane.records.isEmpty then pickCommand b pane.commandRunning
  else (candsOf place pane).foldl pickRecord b

/-- The first loop of `Derive`, from the pane at `place` on. -/
def pickLoop : ℕ → List PaneInput → Pick → Pick
  | _, [], b => b
  | place, pane :: panes, b => pickLoop (place + 1) panes (pickPane b place pane)

/-- The message and the kind of the record picked. -/
def describe (b : Pick) : Result :=
  match b.best with
  | some c =>
      if b.state = .idle then { state := b.state, source := b.source }
      else
        { state := b.state
          source := b.source
          message := if c.record.msg.isEmpty then c.record.title else c.record.msg
          kind := if b.state = .needsYou then kindName c.record.kind else []
          reportKey :=
            if b.state = .doneUnseen ∨ b.state = .error then reportKey c.pane c.record else [] }
  | none => { state := b.state, source := b.source }

/-! ### The rest of the row -/

/-- A resting row with the bell up. -/
def withBell (bellIndicator : Bool) (r : Result) : Result :=
  if r.state = .idle && bellIndicator then
    { r with state := .doneUnseen, message := L "bell", kind := [], source := "bell" }
  else r

/-- One record of the `keep` loop. -/
def keepRecord (kept : Option Cand) (c : Cand) : Option Cand :=
  if !c.record.seen || (c.record.state ≠ .done && c.record.state ≠ .error) then kept
  else
    match kept with
    | none => some c
    | some k =>
        if (c.record.state = .error && k.record.state ≠ .error) ||
            (c.record.state = k.record.state && newer c.record k.record) then some c
        else some k

/-- The records of all panes, in the order the loops visit them. -/
def cands : ℕ → List PaneInput → List Cand
  | _, [] => []
  | place, pane :: panes => candsOf place pane ++ cands (place + 1) panes

/-- The report kept on display. -/
def keepLoop (panes : List PaneInput) : Option Cand := (cands 0 panes).foldl keepRecord none

/-- Source: `Derive`, the `keepAfterSeen` part -/
def withRetained (keepAfterSeen : Bool) (panes : List PaneInput) (r : Result) : Result :=
  if keepAfterSeen && (r.state = .idle || r.state = .running) then
    match keepLoop panes with
    | none => r
    | some k =>
        { r with
          retained :=
            ⟨true, k.record.state, if k.record.msg.isEmpty then k.record.title else k.record.msg⟩
          reportKey := reportKey k.pane k.record }
  else r

/-- Source: `Derive`, the `switch` over the state -/
def slotOf (state : State) (anyRecords : Bool) : Slot :=
  match state with
  | .needsYou => .blocked
  | .error => .error
  | .doneUnseen => .done
  | .working => .working
  | .running => .running
  | .idle => if anyRecords then .idle else .none

/-- Source: `Derive`, the agent name -/
def agentNameOf (panes : List PaneInput) : WString :=
  match (cands 0 panes).find? fun c => c.record.isRoot && !c.record.title.isEmpty with
  | some c => c.record.title
  | none =>
      match panes.find? fun p => !p.records.isEmpty with
      | some p => cleanTerminalTitle p.terminalTitle
      | none => []

/-- Source: `Derive` -/
def derive (panes : List PaneInput) (bellIndicator keepAfterSeen : Bool) : Result :=
  let r := withBell bellIndicator (describe (pickLoop 0 panes {}))
  let r := withRetained keepAfterSeen panes r
  let anyRecords := panes.any fun p => !p.records.isEmpty
  { r with slot := slotOf r.state anyRecords, agentName := agentNameOf panes }

/-! ## The pick is a first maximum -/

/-- What the first loop chooses from. -/
inductive Item where
  | record (c : Cand)
  | command (s : State)

/-- The row state of a choice. -/
def Item.state : Item → State
  | .record c => fromRecord c.record
  | .command s => s

/-- The key of a choice: its row state, then a record before a command mark, then the root, then
the revision. -/
def Item.key : Item → ℕ ×ₗ ℕ ×ₗ ℕ ×ₗ ℕ
  | .record c =>
      toLex (rank (fromRecord c.record), toLex (1, toLex (c.record.isRoot.toNat, c.record.revision)))
  | .command s => toLex (rank s, toLex (0, toLex (0, 0)))

/-- The choices of a pane. -/
def itemsOf (place : ℕ) (pane : PaneInput) : List Item :=
  if pane.records.isEmpty then [.command (if pane.commandRunning then .running else .idle)]
  else (candsOf place pane).map .record

/-- The choices of all panes, in the order of the loop. -/
def items : ℕ → List PaneInput → List Item
  | _, [] => []
  | place, pane :: panes => itemsOf place pane ++ items (place + 1) panes

/-- The loop's variables stand for the best choice so far. -/
def Represents (b : Pick) : Option Item → Prop
  | none => b.haveBest = false
  | some (.record c) =>
      b.haveBest = true ∧ b.state = fromRecord c.record ∧ b.best = some c
  | some (.command s) => b.haveBest = true ∧ b.state = s ∧ b.best = none

theorem toNat_lt_toNat {a b : Bool} : a.toNat < b.toNat ↔ a = false ∧ b = true := by
  cases a <;> cases b <;> simp

/-- A record replaces the best choice when its key is larger. -/
theorem better_iff {b : Pick} {o : Item} (h : Represents b (some o)) (c : Cand) :
    better b c.record = true ↔ o.key < (Item.record c).key := by
  cases o with
  | record d =>
      obtain ⟨hb, hs, hbest⟩ := h
      simp only [better, newer, hb, hs, hbest, Item.key, Prod.Lex.toLex_lt_toLex,
        toNat_lt_toNat, Bool.not_true, Bool.false_or, Bool.or_eq_true, Bool.and_eq_true,
        Bool.not_eq_true', decide_eq_true_eq, gt_iff_lt, lt_self_iff_false, false_or, true_and]
      have hroot : d.record.isRoot.toNat = c.record.isRoot.toNat ↔
          c.record.isRoot = d.record.isRoot := by
        cases c.record.isRoot <;> cases d.record.isRoot <;> simp
      rw [hroot]
      constructor
      · rintro (h | ⟨h, h' | h'⟩)
        · exact Or.inl h
        · exact Or.inr ⟨h.symm, Or.inl ⟨h'.2, h'.1⟩⟩
        · exact Or.inr ⟨h.symm, Or.inr h'⟩
      · rintro (h | ⟨h, h' | h'⟩)
        · exact Or.inl h
        · exact Or.inr ⟨h.symm, Or.inl ⟨h'.2, h'.1⟩⟩
        · exact Or.inr ⟨h.symm, Or.inr h'⟩
  | command s =>
      obtain ⟨hb, hs, hbest⟩ := h
      simp only [better, hb, hs, hbest, Item.key, Prod.Lex.toLex_lt_toLex, Bool.not_true,
        Bool.false_or, Bool.or_eq_true, Bool.and_true, decide_eq_true_eq, gt_iff_lt,
        Nat.zero_lt_one, true_or, and_true]
      omega

/-- A record that is picked is the new best. -/
theorem Represents.record {b : Pick} {o : Option Item} (h : Represents b o) (c : Cand) :
    Represents (pickRecord b c) (keepMax Item.key o (.record c)) := by
  unfold pickRecord
  cases o with
  | none =>
      have hb : better b c.record = true := by
        have h' : b.haveBest = false := h
        simp [better, h']
      rw [if_pos hb]
      exact ⟨rfl, rfl, rfl⟩
  | some o =>
      by_cases hb : better b c.record = true
      · rw [if_pos hb, keepMax, if_pos ((better_iff h c).mp hb)]
        exact ⟨rfl, rfl, rfl⟩
      · rw [if_neg hb, keepMax, if_neg fun hlt => hb ((better_iff h c).mpr hlt)]
        exact h

theorem Represents.command {b : Pick} {o : Option Item} (h : Represents b o) (running : Bool) :
    Represents (pickCommand b running)
      (keepMax Item.key o (.command (if running then .running else .idle))) := by
  unfold pickCommand
  set s : State := if running then .running else .idle
  cases o with
  | none =>
      have h' : b.haveBest = false := h
      simp only [h', Bool.not_false, Bool.true_or, if_true]
      exact ⟨rfl, rfl, rfl⟩
  | some o =>
      have hkey : (!b.haveBest || decide (rank s > rank b.state)) = true ↔
          o.key < (Item.command s).key := by
        cases o with
        | record d =>
            obtain ⟨hb, hs, -⟩ := h
            simp [hb, hs, Item.key, Prod.Lex.toLex_lt_toLex]
        | command t =>
            obtain ⟨hb, hs, -⟩ := h
            simp [hb, hs, Item.key, Prod.Lex.toLex_lt_toLex]
      by_cases hb : (!b.haveBest || decide (rank s > rank b.state)) = true
      · simp only [if_pos hb]
        rw [keepMax, if_pos (hkey.mp hb)]
        exact ⟨rfl, rfl, rfl⟩
      · simp only [if_neg hb]
        rw [keepMax, if_neg fun hlt => hb (hkey.mpr hlt)]
        exact h

/-- One pane: the loop over its records, or its command mark. -/
theorem Represents.pane {b : Pick} {o : Option Item} (h : Represents b o) (place : ℕ)
    (pane : PaneInput) :
    Represents (pickPane b place pane) ((itemsOf place pane).foldl (keepMax Item.key) o) := by
  unfold pickPane itemsOf
  by_cases hr : pane.records.isEmpty = true
  · rw [if_pos hr, if_pos hr]
    exact h.command pane.commandRunning
  · rw [if_neg hr, if_neg hr]
    generalize candsOf place pane = cs
    induction cs generalizing b o with
    | nil => exact h
    | cons c cs ih => exact ih (h.record c)

/-- **The first loop of `Derive` finds the first maximum.** -/
theorem pickLoop_represents (panes : List PaneInput) :
    Represents (pickLoop 0 panes {}) (firstMax Item.key (items 0 panes)) := by
  have key : ∀ (panes : List PaneInput) (place : ℕ) (b : Pick) (o : Option Item),
      Represents b o →
      Represents (pickLoop place panes b) ((items place panes).foldl (keepMax Item.key) o) := by
    intro panes
    induction panes with
    | nil => intro place b o h; exact h
    | cons pane panes ih =>
        intro place b o h
        rw [pickLoop, items, List.foldl_append]
        exact ih _ _ _ (h.pane place pane)
  exact key panes 0 {} none rfl

/-- The record a row shows is the first maximum, when that is a record. -/
theorem pickLoop_best_iff (panes : List PaneInput) (c : Cand) :
    (pickLoop 0 panes {}).best = some c ↔
      firstMax Item.key (items 0 panes) = some (.record c) := by
  have h := pickLoop_represents panes
  cases ho : firstMax Item.key (items 0 panes) with
  | none =>
      rw [(firstMax_eq_none_iff Item.key _).mp ho] at h
      have hnil : panes = [] := by
        have := (firstMax_eq_none_iff Item.key _).mp ho
        cases panes with
        | nil => rfl
        | cons pane panes =>
            simp only [items, itemsOf, List.append_eq_nil_iff] at this
            have h₁ := this.1
            split_ifs at h₁ with hr
            simp [candsOf] at h₁ hr
            exact absurd h₁ hr
      subst hnil
      simp [pickLoop]
  | some o =>
      rw [ho] at h
      cases o with
      | record d =>
          rw [h.2.2]
          simp
      | command s =>
          rw [h.2.2]
          simp

/-! ### The candidates -/

/-- A candidate is a record at the place of its pane. -/
theorem mem_cands {place : ℕ} {panes : List PaneInput} {c : Cand} :
    c ∈ cands place panes ↔ ∃ i, panes[i]? = some c.pane ∧ c.place = place + i ∧
      c.record ∈ c.pane.records := by
  induction panes generalizing place with
  | nil => simp [cands]
  | cons pane panes ih =>
      rw [cands, List.mem_append, ih]
      have hof : c ∈ candsOf place pane ↔
          pane = c.pane ∧ c.place = place ∧ c.record ∈ c.pane.records := by
        obtain ⟨p, q, r⟩ := c
        simp only [candsOf, List.mem_map, Cand.mk.injEq]
        constructor
        · rintro ⟨r, hr, rfl, rfl, rfl⟩
          exact ⟨rfl, rfl, hr⟩
        · rintro ⟨rfl, rfl, hr⟩
          exact ⟨r, hr, rfl, rfl, rfl⟩
      rw [hof]
      constructor
      · rintro (⟨hp, hpl, hr⟩ | ⟨i, hp, hpl, hr⟩)
        · exact ⟨0, by simp [hp], by omega, hr⟩
        · exact ⟨i + 1, by simpa using hp, by omega, hr⟩
      · rintro ⟨i, hp, hpl, hr⟩
        cases i with
        | zero => exact Or.inl ⟨by simpa using hp, by omega, hr⟩
        | succ i => exact Or.inr ⟨i, by simpa using hp, by omega, hr⟩

/-- And so it is among the items. -/
theorem record_mem_items {place : ℕ} {panes : List PaneInput} {c : Cand} :
    Item.record c ∈ items place panes ↔ c ∈ cands place panes := by
  induction panes generalizing place with
  | nil => simp [items, cands]
  | cons pane panes ih =>
      rw [items, cands, List.mem_append, List.mem_append, ih]
      have hof : Item.record c ∈ itemsOf place pane ↔ c ∈ candsOf place pane := by
        unfold itemsOf
        by_cases hr : pane.records.isEmpty = true
        · rw [if_pos hr]
          simp only [List.isEmpty_iff] at hr
          simp [candsOf, hr]
        · rw [if_neg hr]
          simp
      rw [hof]

/-- The loop goes from place to place. -/
theorem place_le_of_items {place : ℕ} {panes : List PaneInput} {pre post : List Item} {c d : Cand}
    (h : items place panes = pre ++ .record c :: post) (hd : Item.record d ∈ post) :
    c.place ≤ d.place := by
  have hpair : ∀ (panes : List PaneInput) (place : ℕ), (items place panes).Pairwise fun x y =>
      ∀ c d, x = .record c → y = .record d → c.place ≤ d.place := by
    intro panes
    induction panes with
    | nil => intro place; exact List.Pairwise.nil
    | cons pane panes ih =>
        intro place
        rw [items, List.pairwise_append]
        have hplace : ∀ c, Item.record c ∈ itemsOf place pane → c.place = place := by
          intro c hc
          have hmem : Item.record c ∈ items place [pane] := by simpa [items] using hc
          obtain ⟨i, hi, hpl, -⟩ := mem_cands.mp (record_mem_items.mp hmem)
          have := (List.getElem?_eq_some_iff.mp hi).1
          simp at this
          omega
        refine ⟨?_, ih (place + 1), ?_⟩
        · refine List.pairwise_of_forall_mem_list fun x hx y hy => ?_
          rintro c d rfl rfl
          rw [hplace c hx, hplace d hy]
        · rintro x hx y hy c d rfl rfl
          obtain ⟨i, -, hpl, -⟩ := mem_cands.mp (record_mem_items.mp hy)
          rw [hplace c hx]
          omega
  have hp := hpair panes place
  rw [h, List.pairwise_append] at hp
  exact (List.pairwise_cons.mp hp.2.1).1 (.record d) hd c d rfl rfl

end Axan.SessionState
