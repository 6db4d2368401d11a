import Axan.LinuxSidebar.PreOrder

/-!
# A drag between two windows

The drag target is open to every sidebar of the process, and the payload is a bare row pointer. The
handler of the second sidebar takes the index of the row in the list of the first, and moves the
rows that it finds there in its own list.

* `dragDataReceivedFrom` — the handler with a row of another sidebar.
* `Harmless` — what should hold afterwards.
* `harmless_iff` — it holds exactly when the row gets no parent, and the rows that are moved in its
  place are put back where they were.
-/

namespace Axan.LinuxSidebar

open Axan.Base Axan.Base.Forest TerminalSidebar

/-! ### The handler -/

/-- The new parent and the index of a drop; no target is the area below all rows. -/
def dropPlan (rows : List Row) : Option (ℕ × DropZone) → Option (Option ℕ × Option ℕ)
  | none => some (none, none)
  | some (t, zone) => do
      let targetRow ← rows.find? fun r => r.key = t
      let targetIndex ← rowGetIndex rows t
      let targetEnd ← subtreeEndIndex rows targetIndex
      match zone with
      | .siblingBefore => some (targetRow.parent, some targetIndex)
      | .siblingAfter => some (targetRow.parent, some targetEnd)
      | .child => some (some t, some targetEnd)

/-- Is the drop refused? -/
def dropRefused (rows : List Row) (source : ℕ) : Option (ℕ × DropZone) → Option Bool
  | none => some false
  | some (t, zone) => do
      let targetRow ← rows.find? fun r => r.key = t
      let inside ← rowIsDescendantOf rows targetRow source
      some (inside || (source = t && zone = .child))

/-- A drop of a row of another sidebar. Source: `on_listbox_drag_data_received` -/
def dragDataReceivedFrom (other self : TerminalSidebar) (source : ℕ)
    (target : Option (ℕ × DropZone)) : Option (TerminalSidebar × TerminalSidebar) := do
  let refused ← dropRefused self.rows source target
  if refused then some (other, self)
  else
    let (newParent, insertIndex) ← dropPlan self.rows target
    -- the index of the row in its own list, the end in this one
    let sourceStart ← rowGetIndex other.rows source
    let sourceEnd ← subtreeEndIndex self.rows sourceStart
    let subtreeSize := sourceEnd - sourceStart
    let dest := insertIndex.bind fun i =>
      if sourceStart < i then (if subtreeSize ≤ i then some (i - subtreeSize) else none) else some i
    let moving := (self.rows.drop sourceStart).take subtreeSize
    let rest := self.rows.take sourceStart ++ self.rows.drop sourceEnd
    let self' := { self.deselect moving with rows := listBoxInsert rest moving dest }
    some ({ other with rows := other.rows.map (rowSetParent source newParent) },
      self'.reselect source)

/-! ### Lists whose pointers end -/

/-- The rows are distinct, and every chain of pointers ends in the list. -/
structure Settled (rows : List Row) : Prop where
  nodup : (rows.map Line.key).Nodup
  ends : ∀ r ∈ rows, (rowDepth rows r).isSome

section Walks

variable {rows : List Row}

/-- Every row has a depth. -/
theorem Settled.exists_depth (h : Settled rows) {r : Row} (hr : r ∈ rows) :
    ∃ d, rowDepth rows r = some d := Option.isSome_iff_exists.mp (h.ends r hr)

/-- One pointer of a chain that ends. -/
theorem ancestors_succ {n p : ℕ} {up : List ℕ} (h : ancestors rows (n + 1) (some p) = some up) :
    p ∈ rows.map Line.key ∧
      ∃ q up', parentOf rows p = some q ∧ ancestors rows n q = some up' := by
  rw [ancestors] at h
  obtain ⟨q, hq, h⟩ := Option.bind_eq_some_iff.mp h
  obtain ⟨up', hup', -⟩ := Option.bind_eq_some_iff.mp h
  refine ⟨?_, q, up', hq, hup'⟩
  obtain ⟨l, hl, -⟩ := Option.map_eq_some_iff.mp hq
  have hkey := List.find?_some hl
  exact List.mem_map.mpr ⟨l, List.mem_of_find?_eq_some hl, of_decide_eq_true hkey⟩

/-- Every parent has a row. -/
theorem Settled.parent_mem (h : Settled rows) {r : Row} (hr : r ∈ rows) {p : ℕ}
    (hp : r.parent = some p) : p ∈ rows.map Line.key := by
  obtain ⟨d, hd⟩ := h.exists_depth hr
  rw [rowDepth, hp] at hd
  obtain ⟨up, hup, -⟩ := Option.map_eq_some_iff.mp hd
  obtain ⟨n, hn⟩ : ∃ n, rows.length = n + 1 :=
    Nat.exists_eq_succ_of_ne_zero (List.length_pos_of_mem hr).ne'
  rw [hn] at hup
  exact (ancestors_succ hup).1

/-- A row outside the list is not met. -/
theorem walkMeets_of_not_mem {source : ℕ} (hsource : source ∉ rows.map Line.key) {n : ℕ}
    {p : Option ℕ} {up : List ℕ} (hup : ancestors rows n p = some up) :
    walkMeets rows source n p = some false := by
  induction n generalizing p up with
  | zero =>
      cases p with
      | none => rfl
      | some q => cases hup
  | succ n ih =>
      cases p with
      | none => rfl
      | some q =>
          obtain ⟨hmem, q', up', hparent, hup'⟩ := ancestors_succ hup
          have hne : q ≠ source := fun heq => hsource (heq ▸ hmem)
          rw [walkMeets, if_neg hne, hparent]
          exact ih hup'

/-- The walk over deeper rows stops at the end or at the first row that is not deeper. -/
theorem Settled.walkDeeper_eq (h : Settled rows) (depth : ℕ) {i : ℕ} (hi : i ≤ rows.length) :
    ∃ e, walkDeeper rows depth i (rows.drop i) = some e ∧ i ≤ e ∧ e ≤ rows.length ∧
      (∀ k r d, i ≤ k → k < e → rows[k]? = some r → rowDepth rows r = some d → depth < d) ∧
      ∀ r d, rows[e]? = some r → rowDepth rows r = some d → d ≤ depth := by
  obtain ⟨m, hm⟩ := Nat.exists_eq_add_of_le hi
  induction m generalizing i with
  | zero =>
      have hlen : rows.length = i := hm
      refine ⟨i, ?_, le_rfl, hi, fun k _ _ hik hki => absurd hki (by omega), fun r d hr => ?_⟩
      · rw [← hlen, List.drop_length]
        rfl
      · have := (List.getElem?_eq_some_iff.mp hr).1
        omega
  | succ m ih =>
      have hlt : i < rows.length := by omega
      obtain ⟨d, hd⟩ := h.exists_depth (List.getElem_mem hlt)
      rw [List.drop_eq_getElem_cons hlt, walkDeeper, hd]
      by_cases hle : d ≤ depth
      · refine ⟨i, by simp [hle], le_rfl, hi, fun k _ _ hik hki => absurd hki (by omega), ?_⟩
        intro r d' hr hd'
        rw [List.getElem?_eq_getElem hlt] at hr
        obtain rfl := Option.some.inj hr
        obtain rfl := Option.some.inj (hd.symm.trans hd')
        exact hle
      · obtain ⟨e, he, hie, hen, hdeep, hstop⟩ := ih (i := i + 1) hlt (by omega)
        refine ⟨e, by simpa [hle] using he, by omega, hen, ?_, hstop⟩
        intro k r d' hik hke hr hd'
        rcases Nat.eq_or_lt_of_le hik with rfl | hik
        · rw [List.getElem?_eq_getElem hlt] at hr
          obtain rfl := Option.some.inj hr
          obtain rfl := Option.some.inj (hd.symm.trans hd')
          omega
        · exact hdeep k r d' hik hke hr hd'

/-- The rows that count as the subtree of a row: those behind it that are deeper. -/
theorem Settled.subtreeEndIndex_eq (h : Settled rows) {i : ℕ} (hi : i < rows.length) :
    ∃ e, subtreeEndIndex rows i = some e ∧ i < e ∧ e ≤ rows.length ∧
      (∀ k r, i < k → k < e → rows[k]? = some r → rowDepth rows r ≠ some 0) ∧
      (rowDepth rows (rows[i]) = some 0 → ∀ r, rows[e]? = some r → rowDepth rows r = some 0) := by
  obtain ⟨d, hd⟩ := h.exists_depth (List.getElem_mem hi)
  obtain ⟨e, he, hie, hen, hdeep, hstop⟩ := h.walkDeeper_eq d (i := i + 1) hi
  refine ⟨e, ?_, hie, hen, ?_, ?_⟩
  · rw [subtreeEndIndex, List.getElem?_eq_getElem hi]
    simp only [hd, Option.bind_eq_bind, Option.bind_some]
    exact he
  · intro k r hik hke hr hzero
    have := hdeep k r 0 hik hke hr hzero
    omega
  · intro hroot r hr
    obtain rfl := Option.some.inj (hd.symm.trans hroot)
    obtain ⟨d, hd'⟩ := h.exists_depth (List.mem_of_getElem? hr)
    have := hstop r d hr hd'
    rw [hd']
    congr 1
    omega

/-- A root has depth zero. -/
theorem rowDepth_eq_zero {r : Row} (hr : r.parent = none) : rowDepth rows r = some 0 := by
  rw [rowDepth, hr]
  cases rows.length <;> rfl

end Walks

/-! ### A block that is put back -/

/-- A block of rows is where it was exactly when as many rows are in front of it. -/
theorem insert_eq_iff {X M Z Y W : List Row} (hnd : (X ++ (M ++ Z)).Nodup) (hM : M ≠ [])
    (hYW : Y ++ W = X ++ Z) : Y ++ (M ++ W) = X ++ (M ++ Z) ↔ Y.length = X.length := by
  obtain ⟨m, M, rfl⟩ := List.exists_cons_of_ne_nil hM
  have hm : m ∉ X ++ Z := by
    have hperm : (X ++ (m :: M ++ Z)).Perm (m :: (X ++ (M ++ Z))) := List.perm_middle
    have hnot := (List.nodup_cons.mp (hperm.nodup_iff.mp hnd)).1
    simp only [List.mem_append] at hnot ⊢
    tauto
  constructor
  · intro heq
    rcases List.append_eq_append_iff.mp heq with ⟨A, rfl, hA⟩ | ⟨A, rfl, hA⟩
    · cases A with
      | nil => simp
      | cons a A =>
          obtain ⟨rfl, -⟩ := List.cons.inj hA
          exact absurd (by simp) hm
    · cases A with
      | nil => simp
      | cons a A =>
          obtain ⟨rfl, -⟩ := List.cons.inj hA
          rw [← hYW] at hm
          exact absurd (by simp) hm
  · intro hlen
    obtain ⟨rfl, rfl⟩ := List.append_inj hYW hlen
    rfl

/-- The handler's index for a block of rows. -/
def blockIndex (start size : ℕ) (insertIndex : Option ℕ) : Option ℕ :=
  insertIndex.bind fun i =>
    if start < i then (if size ≤ i then some (i - size) else none) else some i

/-- A block stays when it is inserted right in front of itself or right behind itself. -/
theorem blockIndex_stays_iff {X M Z : List Row} (hnd : (X ++ (M ++ Z)).Nodup) (hM : M ≠ [])
    {insertIndex : Option ℕ} (hle : ∀ j ∈ insertIndex, j ≤ (X ++ (M ++ Z)).length)
    (hout : ∀ j ∈ insertIndex, ¬ (X.length < j ∧ j < X.length + M.length)) :
    listBoxInsert (X ++ Z) M (blockIndex X.length M.length insertIndex) = X ++ (M ++ Z) ↔
      insertIndex.getD (X ++ (M ++ Z)).length = X.length ∨
        insertIndex.getD (X ++ (M ++ Z)).length = X.length + M.length := by
  have hpos : 0 < M.length := List.length_pos_of_ne_nil hM
  have hn : (X ++ (M ++ Z)).length = X.length + M.length + Z.length := by
    simp only [List.length_append]
    omega
  cases insertIndex with
  | none =>
      have hend : listBoxInsert (X ++ Z) M (blockIndex X.length M.length none) =
          (X ++ Z) ++ (M ++ []) := by
        rw [List.append_nil]
        rfl
      rw [hend, insert_eq_iff hnd hM (List.append_nil _), Option.getD_none, hn, List.length_append]
      omega
  | some j =>
      have hj := hle j rfl
      have hj' := hout j rfl
      rw [Option.getD_some]
      obtain ⟨dest, hdest, hlt, hiff⟩ : ∃ dest, blockIndex X.length M.length (some j) = some dest ∧
          dest ≤ (X ++ Z).length ∧
          (dest = X.length ↔ j = X.length ∨ j = X.length + M.length) := by
        rw [List.length_append]
        by_cases hlt : X.length < j
        · refine ⟨j - M.length, ?_, by omega, by omega⟩
          rw [blockIndex, Option.bind_some, if_pos hlt, if_pos (by omega)]
        · refine ⟨j, ?_, by omega, by omega⟩
          rw [blockIndex, Option.bind_some, if_neg hlt]
      rw [hdest, listBoxInsert, insert_eq_iff hnd hM (List.take_append_drop dest _),
        List.length_take, min_eq_left hlt, hiff]

/-! ### The promise -/

/-- The rows that are neither the dragged one nor below it. -/
def notDragged (rows : List Row) (source : ℕ) (r : Row) : Bool :=
  r.key ≠ source && rowIsDescendantOf rows r source ≠ some true

/-- Neither window is harmed. -/
structure Harmless (s₁ s₂ s₁' s₂' : TerminalSidebar) (source : ℕ) : Prop where
  rows₁ : (s₁'.rows.map Line.key).Perm (s₁.rows.map Line.key)
  rows₂ : (s₂'.rows.map Line.key).Perm (s₂.rows.map Line.key)
  apart₁ : ∀ r ∈ s₁'.rows, ∀ p ∈ r.parent, p ∉ s₂'.rows.map Line.key
  apart₂ : ∀ r ∈ s₂'.rows, ∀ p ∈ r.parent, p ∉ s₁'.rows.map Line.key
  kept₁ : s₁'.rows.filter (notDragged s₁.rows source) = s₁.rows.filter (notDragged s₁.rows source)
  kept₂ : s₂'.rows = s₂.rows

/-- The row gets no parent. In the other list there is no row at its index, or the rows of the
subtree there are inserted right in front of themselves or right behind themselves. -/
def Undisturbed (other self : TerminalSidebar) (source : ℕ) (target : Option (ℕ × DropZone)) : Prop :=
  ∀ newParent insertIndex i e, dropPlan self.rows target = some (newParent, insertIndex) →
    rowGetIndex other.rows source = some i → subtreeEndIndex self.rows i = some e →
    newParent = none ∧ (self.rows.length ≤ i ∨ insertIndex.getD self.rows.length = i ∨
      insertIndex.getD self.rows.length = e)

/-- A drop goes on a row of the list, or below all. -/
def OnRow (rows : List Row) (target : Option (ℕ × DropZone)) : Prop :=
  ∀ t ∈ target, t.1 ∈ rows.map Line.key

/-- What the handler finds at the target. -/
theorem dropPlan_eq {rows : List Row} (h : Settled rows) {target : Option (ℕ × DropZone)}
    (htarget : OnRow rows target) :
    ∃ newParent insertIndex, dropPlan rows target = some (newParent, insertIndex) ∧
      (∀ p ∈ newParent, p ∈ rows.map Line.key) ∧ (∀ j ∈ insertIndex, j ≤ rows.length) ∧
      (newParent = none → ∀ j ∈ insertIndex, ∀ r, rows[j]? = some r → rowDepth rows r = some 0) := by
  cases target with
  | none => exact ⟨none, none, rfl, by simp, by simp, by simp⟩
  | some t =>
      obtain ⟨t, zone⟩ := t
      obtain ⟨row, hrow, rfl⟩ := List.mem_map.mp (htarget _ rfl)
      obtain ⟨X, Z, hsplit⟩ := List.append_of_mem hrow
      have hfind : rows.find? (fun r => r.key = row.key) = some row := find?_of_mem h.nodup hrow
      have hindex : rowGetIndex rows row.key = some X.length := by
        have hnd := h.nodup
        rw [hsplit] at hnd ⊢
        exact rowGetIndex_of_split hnd
      have hlt : X.length < rows.length := by
        rw [hsplit]
        simp
      have hget : rows[X.length]? = some row := by
        rw [hsplit, List.getElem?_append_right le_rfl, Nat.sub_self]
        rfl
      obtain ⟨e, he, hie, hen, -, hstop⟩ := h.subtreeEndIndex_eq hlt
      have hparent : ∀ p ∈ row.parent, p ∈ rows.map Line.key := fun p hp => h.parent_mem hrow hp
      have hrowget : rows[X.length] = row := by
        rw [List.getElem?_eq_getElem hlt] at hget
        exact Option.some.inj hget
      rw [dropPlan, hfind, hindex]
      simp only [Option.bind_eq_bind, Option.bind_some, he]
      cases zone with
      | siblingBefore =>
          refine ⟨_, _, rfl, hparent, by simpa using hlt.le, fun hroot j hj r hr => ?_⟩
          obtain rfl := Option.some.inj hj
          obtain rfl := Option.some.inj (hget.symm.trans hr)
          exact rowDepth_eq_zero hroot
      | siblingAfter =>
          refine ⟨_, _, rfl, hparent, by simpa using hen, fun hroot j hj r hr => ?_⟩
          obtain rfl := Option.some.inj hj
          exact hstop (hrowget ▸ rowDepth_eq_zero hroot) r hr
      | child =>
          refine ⟨_, _, rfl, ?_, by simpa using hen, fun hroot => by cases hroot⟩
          intro p hp
          obtain rfl := Option.some.inj hp
          exact List.mem_map_of_mem hrow

/-- A row of another list is met nowhere. -/
theorem dropRefused_eq {rows : List Row} (h : Settled rows) {target : Option (ℕ × DropZone)}
    (htarget : OnRow rows target) {source : ℕ} (hsource : source ∉ rows.map Line.key) :
    dropRefused rows source target = some false := by
  cases target with
  | none => rfl
  | some t =>
      obtain ⟨t, zone⟩ := t
      obtain ⟨row, hrow, rfl⟩ := List.mem_map.mp (htarget _ rfl)
      obtain ⟨d, hd⟩ := h.exists_depth hrow
      obtain ⟨up, hup, -⟩ := Option.map_eq_some_iff.mp hd
      have hfind : rows.find? (fun r => r.key = row.key) = some row := find?_of_mem h.nodup hrow
      have hne : source ≠ row.key := fun heq => hsource (heq ▸ List.mem_map_of_mem hrow)
      rw [dropRefused, hfind]
      simp only [Option.bind_eq_bind, Option.bind_some]
      rw [rowIsDescendantOf, walkMeets_of_not_mem hsource hup]
      simp [hne]

/-! ### The list of the other window -/

section Effect

variable {rows : List Row}

/-- The list after the rows at the foreign index were moved. -/
def movedRows (rows : List Row) (i e : ℕ) (insertIndex : Option ℕ) : List Row :=
  listBoxInsert (rows.take i ++ rows.drop e) ((rows.drop i).take (e - i))
    (blockIndex i (e - i) insertIndex)

/-- An insertion loses no row. -/
theorem perm_listBoxInsert (rest moving : List Row) (position : Option ℕ) :
    (listBoxInsert rest moving position).Perm (rest ++ moving) := by
  cases position with
  | none => exact List.Perm.refl _
  | some i =>
      rw [listBoxInsert, List.perm_iff_count]
      intro a
      have hcount := congrArg (List.count a) (List.take_append_drop i rest)
      simp only [List.count_append] at hcount ⊢
      omega

/-- The index is past the end, or a block of rows starts there. -/
theorem movedRows_spec (h : Settled rows) (i : ℕ) :
    ∃ e, subtreeEndIndex rows i = some e ∧ ∀ insertIndex,
      (movedRows rows i e insertIndex).Perm rows ∧
      ((∀ j ∈ insertIndex, j ≤ rows.length) →
        (∀ j ∈ insertIndex, ∀ r, rows[j]? = some r → rowDepth rows r = some 0) →
        (movedRows rows i e insertIndex = rows ↔ rows.length ≤ i ∨
          insertIndex.getD rows.length = i ∨ insertIndex.getD rows.length = e)) := by
  rcases Nat.lt_or_ge i rows.length with hi | hi
  · obtain ⟨e, he, hie, hen, hdeep, -⟩ := h.subtreeEndIndex_eq hi
    have hsplit : rows = rows.take i ++ ((rows.drop i).take (e - i) ++ rows.drop e) := by
      have hdrop : rows.drop e = (rows.drop i).drop (e - i) := by
        rw [List.drop_drop, Nat.add_sub_cancel' hie.le]
      rw [hdrop, List.take_append_drop, List.take_append_drop]
    have hX : (rows.take i).length = i := by
      rw [List.length_take]
      omega
    have hMlen : ((rows.drop i).take (e - i)).length = e - i := by
      rw [List.length_take, List.length_drop]
      omega
    refine ⟨e, he, fun insertIndex => ⟨?_, fun hle hroot => ?_⟩⟩
    · rw [movedRows]
      refine (perm_listBoxInsert _ _ _).trans ?_
      nth_rewrite 4 [hsplit]
      rw [List.append_assoc]
      exact List.perm_append_comm.append_left _
    · have hM : (rows.drop i).take (e - i) ≠ [] := by
        rw [ne_eq, ← List.length_eq_zero_iff, hMlen]
        omega
      have hnd : (rows.take i ++ ((rows.drop i).take (e - i) ++ rows.drop e)).Nodup := by
        rw [← hsplit]
        exact h.nodup.of_map
      -- a root is not among the deeper rows
      have hout : ∀ j ∈ insertIndex, ¬ (i < j ∧ j < i + (e - i)) := by
        rintro j hj ⟨hij, hje⟩
        have hlt : j < rows.length := by omega
        exact hdeep j _ hij (by omega) (List.getElem?_eq_getElem hlt)
          (hroot j hj _ (List.getElem?_eq_getElem hlt))
      have hiff := @blockIndex_stays_iff _ _ _ hnd hM insertIndex
      rw [← hsplit, hX, hMlen, Nat.add_sub_cancel' hie.le] at hiff
      rw [movedRows, hiff hle (by simpa [Nat.add_sub_cancel' hie.le] using hout)]
      constructor
      · exact Or.inr
      · rintro (hlong | hcond)
        · omega
        · exact hcond
  · have he : subtreeEndIndex rows i = some i := by
      rw [subtreeEndIndex, List.getElem?_eq_none hi]
    have hsame (insertIndex : Option ℕ) : movedRows rows i i insertIndex = rows := by
      have hmoving : (rows.drop i).take (i - i) = [] := by rw [Nat.sub_self, List.take_zero]
      rw [movedRows, hmoving, List.take_append_drop]
      cases blockIndex i (i - i) insertIndex with
      | none => exact List.append_nil rows
      | some j => exact List.take_append_drop j rows
    refine ⟨i, he, fun insertIndex => ⟨?_, fun _ _ => ?_⟩⟩
    · rw [hsame]
    · exact ⟨fun _ => Or.inl hi, fun _ => hsame insertIndex⟩

/-- Another parent keeps the keys. -/
theorem map_key_rowSetParent (rows : List Row) (source : ℕ) (parent : Option ℕ) :
    (rows.map (rowSetParent source parent)).map Line.key = rows.map Line.key := by
  rw [List.map_map]
  apply List.map_congr_left
  intro r _
  rw [Function.comp_apply, rowSetParent]
  split <;> rfl

/-- And the rows that are not dragged. -/
theorem filter_rowSetParent (rows : List Row) (source : ℕ) (parent : Option ℕ) :
    (rows.map (rowSetParent source parent)).filter (notDragged rows source) =
      rows.filter (notDragged rows source) := by
  have hkeep : ∀ r, notDragged rows source r = true → rowSetParent source parent r = r := by
    intro r hr
    simp only [notDragged, Bool.and_eq_true, decide_eq_true_iff] at hr
    rw [rowSetParent, if_neg hr.1]
  have hiff (r : Row) : notDragged rows source (rowSetParent source parent r) =
      notDragged rows source r := by
    by_cases hr : r.key = source
    · rw [rowSetParent, if_pos hr]
      simp [notDragged, hr]
    · rw [rowSetParent, if_neg hr]
  rw [List.filter_map]
  have hcomp : (notDragged rows source ∘ rowSetParent source parent) = notDragged rows source :=
    funext hiff
  rw [hcomp]
  conv_rhs => rw [← List.map_id (rows.filter (notDragged rows source))]
  exact List.map_congr_left fun r hr => hkeep r (List.mem_filter.mp hr).2

/-- A selection keeps the rows. -/
theorem rows_reselect (s : TerminalSidebar) (source : ℕ) : (s.reselect source).rows = s.rows := by
  rw [reselect]
  split <;> rfl

end Effect

/-- **A drag between two windows harms neither exactly when the row gets no parent and the rows at
its index in the other window are put back where they were.** -/
theorem harmless_iff {other self : TerminalSidebar} (h₁ : Settled other.rows)
    (h₂ : Settled self.rows) (hapart : ∀ k ∈ other.rows.map Line.key, k ∉ self.rows.map Line.key)
    {source : ℕ} (hsource : source ∈ other.rows.map Line.key) {target : Option (ℕ × DropZone)}
    (htarget : OnRow self.rows target) :
    ∃ other' self', dragDataReceivedFrom other self source target = some (other', self') ∧
      (Harmless other self other' self' source ↔ Undisturbed other self source target) := by
  obtain ⟨newParent, insertIndex, hplan, hparent, hle, hroot⟩ := dropPlan_eq h₂ htarget
  obtain ⟨row, hrow, rfl⟩ := List.mem_map.mp hsource
  obtain ⟨i, hi⟩ : ∃ i, rowGetIndex other.rows row.key = some i := by
    obtain ⟨X, Z, hsplit⟩ := List.append_of_mem hrow
    refine ⟨X.length, ?_⟩
    have hnd := h₁.nodup
    rw [hsplit] at hnd ⊢
    exact rowGetIndex_of_split hnd
  obtain ⟨e, he, hmoved⟩ := movedRows_spec h₂ i
  obtain ⟨hperm, hstays⟩ := hmoved insertIndex
  obtain ⟨self', hdrop, hself⟩ : ∃ self' : TerminalSidebar,
      dragDataReceivedFrom other self row.key target =
        some ({ other with rows := other.rows.map (rowSetParent row.key newParent) }, self') ∧
      self'.rows = movedRows self.rows i e insertIndex := by
    refine ⟨TerminalSidebar.reselect { self.deselect ((self.rows.drop i).take (e - i)) with
      rows := movedRows self.rows i e insertIndex } row.key, ?_, rows_reselect _ _⟩
    rw [dragDataReceivedFrom, dropRefused_eq h₂ htarget (hapart _ hsource)]
    simp only [Option.bind_eq_bind, Option.bind_some, Bool.false_eq_true, if_false, hplan, hi, he]
    rfl
  have hkeys₁ := map_key_rowSetParent other.rows row.key newParent
  have hkeys₂ := (hself ▸ hperm : self'.rows.Perm self.rows).map Line.key
  refine ⟨_, self', hdrop, fun hharm => ?_, fun hcond => ?_⟩
  · intro newParent' insertIndex' i' e' hplan' hi' he'
    obtain ⟨rfl, rfl⟩ := Prod.mk.inj (Option.some.inj (hplan.symm.trans hplan'))
    obtain rfl := Option.some.inj (hi.symm.trans hi')
    obtain rfl := Option.some.inj (he.symm.trans he')
    have hnone : newParent = none := by
      cases hnew : newParent with
      | none => rfl
      | some p =>
          have hmem : (⟨row.key, some p⟩ : Row) ∈ other.rows.map (rowSetParent row.key newParent) := by
            refine List.mem_map.mpr ⟨row, hrow, ?_⟩
            rw [rowSetParent, if_pos rfl, hnew]
          have hp := hharm.apart₁ _ hmem p rfl
          exact absurd (hkeys₂.mem_iff.mpr (hparent p hnew)) hp
    exact ⟨hnone, (hstays hle (hroot hnone)).mp (hself.symm.trans hharm.kept₂)⟩
  · obtain ⟨rfl, hblock⟩ := hcond newParent insertIndex i e hplan hi he
    have hsame : self'.rows = self.rows := hself.trans ((hstays hle (hroot rfl)).mpr hblock)
    constructor
    · rw [hkeys₁]
    · exact hkeys₂
    · intro r hr p hp
      obtain ⟨r', hr', rfl⟩ := List.mem_map.mp hr
      rw [hsame]
      rw [rowSetParent] at hp
      split_ifs at hp
      · cases hp
      · exact hapart p (h₁.parent_mem hr' hp)
    · intro r hr p hp hmem
      rw [hsame] at hr
      rw [hkeys₁] at hmem
      exact hapart p hmem (h₂.parent_mem hr hp)
    · exact filter_rowSetParent other.rows row.key none
    · exact hsame

/-- A window with one shell, and one with two. -/
def oneShell : TerminalSidebar := { rows := [⟨10, none⟩] }

def twoShells : TerminalSidebar := { rows := [⟨0, none⟩, ⟨1, none⟩] }

/-- A drop beside the first row of the other window moves nothing there. -/
theorem oneShell_harmless :
    ∃ other' self', dragDataReceivedFrom oneShell twoShells 10 (some (0, .siblingAfter)) =
      some (other', self') ∧ Harmless oneShell twoShells other' self' 10 := by
  have htarget : OnRow twoShells.rows (some (0, .siblingAfter)) := by
    intro t ht
    obtain rfl := Option.some.inj ht
    decide
  obtain ⟨other', self', hdrop, hiff⟩ := @harmless_iff oneShell twoShells ⟨by decide, by decide⟩
    ⟨by decide, by decide⟩ (by decide) 10 (by decide) _ htarget
  refine ⟨other', self', hdrop, hiff.mpr ?_⟩
  intro newParent insertIndex i e hplan hi he
  obtain ⟨rfl, rfl⟩ := Prod.mk.inj (Option.some.inj hplan)
  obtain rfl := Option.some.inj hi
  obtain rfl := Option.some.inj he
  decide

/-- A drop on the second row: the shell hangs in the other window, whose rows change places. -/
theorem oneShell_not_harmless :
    Settled oneShell.rows ∧ Settled twoShells.rows ∧
      (∀ k ∈ oneShell.rows.map Line.key, k ∉ twoShells.rows.map Line.key) ∧
      ∃ other' self', dragDataReceivedFrom oneShell twoShells 10 (some (1, .child)) =
        some (other', self') ∧ ¬ Harmless oneShell twoShells other' self' 10 := by
  refine ⟨⟨by decide, by decide⟩, ⟨by decide, by decide⟩, by decide, _, _, rfl, fun h => ?_⟩
  exact absurd h.kept₂ (by decide)

end Axan.LinuxSidebar
