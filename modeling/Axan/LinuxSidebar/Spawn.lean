import Axan.LinuxSidebar.PreOrder
import Axan.LinuxSidebar.Startup

/-!
# One more tab

What `createInstance` does to the rows of the tabs before it, in any order they may stand in: a new
root goes to its place, and is hung at its parent together with the rows behind it up to the next
root.

* `Downward` — the pointers lead to older rows, so that the walks over them end.
* `setScreenParent_downward` — hanging a new root.
* `Spawned` — the rows so far; `Created` — what one more tab does (`createInstance_eq`).
-/

namespace Axan.LinuxSidebar

open Axan.Base Axan.Base.Forest TerminalSidebar

/-! ### Lists whose pointers lead to older rows -/

/-- Every pointer leads to a row of the list with a smaller number. -/
structure Downward (rows : List Row) : Prop where
  nodup : (rows.map Line.key).Nodup
  bounded : ∀ r ∈ rows, r.key < rows.length
  parent : ∀ r ∈ rows, ∀ q, r.parent = some q → q < r.key ∧ q ∈ rows.map Line.key

namespace Downward

variable {rows : List Row}

theorem ancestors_isSome (h : Downward rows) {n q : ℕ} (hq : q ∈ rows.map Line.key) (hn : q < n) :
    ∃ up, ancestors rows n (some q) = some (q :: up) := by
  induction n generalizing q with
  | zero => omega
  | succ n ih =>
      obtain ⟨r, hr, rfl⟩ := List.mem_map.mp hq
      rw [ancestors, parentOf_of_mem h.nodup hr]
      cases hparent : r.parent with
      | none =>
          refine ⟨[], ?_⟩
          cases n <;> rfl
      | some p =>
          obtain ⟨hlt, hmem⟩ := h.parent r hr p hparent
          obtain ⟨up, hup⟩ := ih hmem (by omega)
          exact ⟨p :: up, by simp [hup]⟩

/-- Only the roots have depth zero. -/
theorem rowDepth_eq (h : Downward rows) {r : Row} (hr : r ∈ rows) :
    ∃ d, rowDepth rows r = some d ∧ (d = 0 ↔ r.parent = none) := by
  unfold rowDepth
  cases hparent : r.parent with
  | none => exact ⟨0, by cases rows.length <;> rfl, by simp⟩
  | some q =>
      obtain ⟨hlt, hmem⟩ := h.parent r hr q hparent
      obtain ⟨up, hup⟩ := h.ancestors_isSome hmem (hlt.trans (h.bounded r hr))
      rw [hup]
      exact ⟨up.length + 1, rfl, by simp⟩

/-- It does not meet a shell that is newer. -/
theorem walkMeets_eq_false (h : Downward rows) {k n : ℕ} {p : Option ℕ}
    (hp : ∀ q, p = some q → q < k ∧ q < n ∧ q ∈ rows.map Line.key) :
    walkMeets rows k n p = some false := by
  induction n generalizing p with
  | zero =>
      cases p with
      | none => rfl
      | some q => have := (hp q rfl).2.1; omega
  | succ n ih =>
      cases p with
      | none => rfl
      | some q =>
          obtain ⟨hk, hn, hmem⟩ := hp q rfl
          obtain ⟨r, hr, rfl⟩ := List.mem_map.mp hmem
          rw [walkMeets, if_neg (by omega), parentOf_of_mem h.nodup hr]
          refine ih fun q hq => ?_
          obtain ⟨hlt, hmem'⟩ := h.parent r hr q hq
          exact ⟨by omega, by omega, hmem'⟩

/-- The walk ends, and not before it starts. -/
theorem walkDeeper_le (h : Downward rows) (depth : ℕ) {rs : List Row} (hrs : ∀ r ∈ rs, r ∈ rows)
    (i : ℕ) : ∃ e, walkDeeper rows depth i rs = some e ∧ i ≤ e := by
  induction rs generalizing i with
  | nil => exact ⟨i, rfl, le_rfl⟩
  | cons r rs ih =>
      obtain ⟨d, hd, -⟩ := h.rowDepth_eq (hrs r List.mem_cons_self)
      rw [walkDeeper, hd]
      by_cases hle : d ≤ depth
      · exact ⟨i, by simp [hle], le_rfl⟩
      · obtain ⟨e, he, hi⟩ := ih (fun r' hr' => hrs r' (List.mem_cons_of_mem _ hr')) (i + 1)
        exact ⟨e, by simpa [hle] using he, by omega⟩

/-- Every subtree has its head. -/
theorem subtreeEndIndex_lt (h : Downward rows) {i : ℕ} (hi : i < rows.length) :
    ∃ e, subtreeEndIndex rows i = some e ∧ i < e := by
  rw [subtreeEndIndex, List.getElem?_eq_getElem hi]
  obtain ⟨d, hd, -⟩ := h.rowDepth_eq (List.getElem_mem hi)
  obtain ⟨e, he, hle⟩ := h.walkDeeper_le d
    (fun r hr => List.mem_of_mem_drop hr : ∀ r ∈ rows.drop (i + 1), r ∈ rows) (i + 1)
  exact ⟨e, by simp [hd, he], by omega⟩

/-- From a root the walk goes to the next root. -/
theorem subtreeEndIndex_root (h : Downward rows) {L T R : List Row} {k : ℕ}
    (hrows : rows = L ++ ⟨k, none⟩ :: (T ++ R)) (hT : ∀ r ∈ T, r.parent ≠ none)
    (hR : ∀ r ∈ R.head?, r.parent = none) :
    subtreeEndIndex rows L.length = some (L.length + 1 + T.length) := by
  have hmem : ∀ r ∈ T ++ R, r ∈ rows := by
    intro r hr
    rw [hrows]
    exact List.mem_append_right _ (List.mem_cons_of_mem _ hr)
  have hwalk : ∀ (T' : List Row) (i : ℕ), (∀ r ∈ T', r ∈ T) →
      walkDeeper rows 0 i (T' ++ R) = some (i + T'.length) := by
    intro T'
    induction T' with
    | nil =>
        intro i _
        cases R with
        | nil => rfl
        | cons r R =>
            obtain ⟨d, hd, hzero⟩ := h.rowDepth_eq (hmem r (by simp))
            rw [List.nil_append, walkDeeper, hd]
            simp [hzero.mpr (hR r rfl)]
    | cons r T' ih =>
        intro i hsub
        have hr := hsub r List.mem_cons_self
        obtain ⟨d, hd, hzero⟩ := h.rowDepth_eq (hmem r (List.mem_append_left _ hr))
        have hpos : ¬ d ≤ 0 := fun hle => hT r hr (hzero.mp (by omega))
        rw [List.cons_append, walkDeeper, hd]
        have hrest := ih (i + 1) fun r' hr' => hsub r' (List.mem_cons_of_mem _ hr')
        simp only [Option.bind_eq_bind, Option.bind_some, hpos, if_false, hrest, List.length_cons]
        congr 1
        omega
  have hget : rows[L.length]? = some ⟨k, none⟩ := by
    rw [hrows, List.getElem?_append_right le_rfl, Nat.sub_self]
    rfl
  have hdrop : rows.drop (L.length + 1) = T ++ R := by
    rw [hrows, ← List.drop_drop, List.drop_left]
    rfl
  have hdepth : rowDepth rows ⟨k, none⟩ = some 0 := by
    unfold rowDepth
    cases rows.length <;> rfl
  rw [subtreeEndIndex, hget]
  simp only [hdepth, hdrop, Option.bind_eq_bind, Option.bind_some]
  exact hwalk T _ fun r hr => hr

end Downward

/-! ### Hanging a new row -/

/-- Rows are inserted between two parts of the others. -/
theorem exists_listBoxInsert (rows moving : List Row) (position : Option ℕ) :
    ∃ Y Z, Y ++ Z = rows ∧ listBoxInsert rows moving position = Y ++ (moving ++ Z) := by
  cases position with
  | none => exact ⟨rows, [], List.append_nil rows, by simp [listBoxInsert]⟩
  | some i => exact ⟨rows.take i, rows.drop i, List.take_append_drop i rows, rfl⟩

/-- Where the rows go that are taken out. -/
def destination (start size insertIndex : ℕ) : Option ℕ :=
  if start < insertIndex then (if size ≤ insertIndex then some (insertIndex - size) else none)
  else some insertIndex

section Hang

variable {s : TerminalSidebar} {L T R : List Row} {k p : ℕ}

/-- The rows of a root move together; only the root gets a new parent. -/
theorem moveSubtree_root (hd : Downward s.rows) (hrows : s.rows = L ++ ⟨k, none⟩ :: (T ++ R))
    (hT : ∀ r ∈ T, r.parent ≠ none) (hR : ∀ r ∈ R.head?, r.parent = none)
    (hselected : ∀ r ∈ (⟨k, none⟩ :: T : List Row), s.selectedRow ≠ some r.key) (e : ℕ) :
    s.moveSubtree k (some p) (some e) =
      some { s with
        rows := listBoxInsert (L ++ R) (⟨k, some p⟩ :: T) (destination L.length (1 + T.length) e) } := by
  have hnodup := hd.nodup
  have hstart : rowGetIndex s.rows k = some L.length := by
    rw [hrows] at hnodup ⊢
    exact rowGetIndex_of_split (x := ⟨k, none⟩) hnodup
  have hend := hd.subtreeEndIndex_root hrows hT hR
  have hsize : L.length + 1 + T.length - L.length = 1 + T.length := by omega
  have hmoving : (s.rows.drop L.length).take (1 + T.length) = ⟨k, none⟩ :: T := by
    rw [hrows, List.drop_left, Nat.add_comm, List.take_succ_cons, List.take_left]
  have hrest : s.rows.take L.length ++ s.rows.drop (L.length + 1 + T.length) = L ++ R := by
    have hdrop : s.rows.drop (L.length + 1 + T.length) = R := by
      rw [hrows, Nat.add_assoc, ← List.drop_drop, List.drop_left, Nat.add_comm, List.drop_succ_cons,
        List.drop_left]
    rw [hdrop, hrows, List.take_left]
  have hset : (⟨k, none⟩ :: T : List Row).map (rowSetParent k (some p)) = ⟨k, some p⟩ :: T := by
    have hT' : ∀ r ∈ T, rowSetParent k (some p) r = r := by
      intro r hr
      have hne : r.key ≠ k := by
        rw [hrows, List.map_append, List.nodup_append, List.map_cons, List.nodup_cons] at hnodup
        intro heq
        exact hnodup.2.1.1 (List.mem_map.mpr ⟨r, List.mem_append_left R hr, heq⟩)
      rw [rowSetParent, if_neg hne]
    rw [List.map_cons, List.map_congr_left hT', List.map_id']
    simp [rowSetParent]
  have hkept : s.deselect (⟨k, none⟩ :: T) = s := by
    rw [deselect, if_neg]
    simpa using hselected
  rw [moveSubtree]
  simp only [hstart, hend, Option.bind_eq_bind, Option.bind_some, hsize, hmoving, hrest, hset, hkept]
  rfl

/-- A new root that is hung at `p` takes the rows up to the next root with it. -/
theorem setScreenParent_downward (hd : Downward s.rows)
    (hrows : s.rows = L ++ ⟨k, none⟩ :: (T ++ R)) (hk : p < k) (hp : p ∈ s.rows.map Line.key)
    (hT : ∀ r ∈ T, r.parent ≠ none) (hR : ∀ r ∈ R.head?, r.parent = none)
    (hselected : ∀ r ∈ (⟨k, none⟩ :: T : List Row), s.selectedRow ≠ some r.key) :
    ∃ i e, rowGetIndex s.rows p = some i ∧ subtreeEndIndex s.rows i = some e ∧ i < e ∧
      s.setScreenParent k (some p) =
        some ({ s with
          rows := listBoxInsert (L ++ R) (⟨k, some p⟩ :: T)
            (destination L.length (1 + T.length) e) }, true) := by
  obtain ⟨row, hrow, rfl⟩ := List.mem_map.mp hp
  have hnodup := hd.nodup
  have hlookup : s.lookupRow row.key = some row := find?_of_mem hnodup hrow
  have hmem : (⟨k, none⟩ : Row) ∈ s.rows := by
    rw [hrows]
    exact List.mem_append_right _ List.mem_cons_self
  have hlookup' : s.lookupRow k = some ⟨k, none⟩ := find?_of_mem hnodup hmem
  have hinside : rowIsDescendantOf s.rows row k = some false := by
    refine hd.walkMeets_eq_false fun q hq => ?_
    obtain ⟨hlt, hmem'⟩ := hd.parent row hrow q hq
    exact ⟨by omega, hlt.trans (hd.bounded row hrow), hmem'⟩
  obtain ⟨A, B, hsplit⟩ := List.append_of_mem hrow
  have hindex : rowGetIndex s.rows row.key = some A.length := by
    rw [hsplit] at hnodup ⊢
    exact rowGetIndex_of_split hnodup
  have hlt : A.length < s.rows.length := by
    rw [hsplit]
    simp
  obtain ⟨e, he, hie⟩ := hd.subtreeEndIndex_lt hlt
  have hmove := moveSubtree_root (p := row.key) hd hrows hT hR hselected e
  refine ⟨A.length, e, hindex, he, hie, ?_⟩
  have hne : (some row.key : Option ℕ) ≠ some k := by
    intro heq
    have := Option.some.inj heq
    omega
  unfold setScreenParent
  rw [if_neg hne]
  simp only [hlookup', hlookup, hinside, Option.bind_eq_bind, Option.bind_some, hindex, he, hmove]
  rfl

end Hang

/-! ### One tab -/

/-- The rows of the tabs so far: each once, each with its parent. The first is selected. -/
structure Spawned (par : ℕ → Option ℕ) (k : ℕ) (s : TerminalSidebar) : Prop where
  keys : (s.rows.map Line.key).Perm (List.range k)
  parents : ∀ r ∈ s.rows, r.parent = par r.key
  selected : s.selectedRow = some 0
  active : s.activeScreen = some 0

section Tab

variable {par : ℕ → Option ℕ} {k : ℕ} {s : TerminalSidebar}

/-- The shells so far have rows. -/
theorem Spawned.mem_iff (h : Spawned par k s) {i : ℕ} : i ∈ s.rows.map Line.key ↔ i < k := by
  rw [h.keys.mem_iff, List.mem_range]

theorem Spawned.length_eq (h : Spawned par k s) : s.rows.length = k := by
  simpa using h.keys.length_eq

theorem Spawned.nodup (h : Spawned par k s) : (s.rows.map Line.key).Nodup :=
  h.keys.nodup_iff.mpr List.nodup_range

/-- Every shell has the row of its parent. -/
theorem Spawned.mem (h : Spawned par k s) {i : ℕ} (hi : i < k) : (⟨i, par i⟩ : Row) ∈ s.rows := by
  obtain ⟨r, hr, rfl⟩ := List.mem_map.mp (h.mem_iff.mpr hi)
  have hrow : r = ⟨r.key, par r.key⟩ := by rw [← h.parents r hr]
  rwa [← hrow]

theorem Spawned.lt_of_mem (h : Spawned par k s) {r : Row} (hr : r ∈ s.rows) : r.key < k :=
  h.mem_iff.mp (List.mem_map_of_mem hr)

/-- The pointers lead to older rows, also with a new root in the list. -/
theorem Spawned.downward (h : Spawned par k s) (hpar : ∀ i q, par i = some q → q < i)
    {L R : List Row} (hLR : L ++ R = s.rows) : Downward (L ++ ⟨k, none⟩ :: R) := by
  have hperm : (L ++ ⟨k, none⟩ :: R).Perm (⟨k, none⟩ :: s.rows) := hLR ▸ List.perm_middle
  have hlength : (L ++ ⟨k, none⟩ :: R).length = k + 1 := by
    rw [hperm.length_eq, List.length_cons, h.length_eq]
  constructor
  · rw [(hperm.map Line.key).nodup_iff, List.map_cons, List.nodup_cons]
    exact ⟨fun hmem => absurd (h.mem_iff.mp hmem) (by simp), h.nodup⟩
  · intro r hr
    rw [hlength]
    rcases List.mem_cons.mp (hperm.mem_iff.mp hr) with rfl | hr
    · exact Nat.lt_succ_self k
    · exact (h.lt_of_mem hr).trans (Nat.lt_succ_self k)
  · intro r hr q hq
    rw [(hperm.map Line.key).mem_iff, List.map_cons, List.mem_cons]
    rcases List.mem_cons.mp (hperm.mem_iff.mp hr) with rfl | hr
    · cases hq
    · rw [h.parents r hr] at hq
      have hlt := hpar _ _ hq
      exact ⟨hlt, Or.inr (h.mem_iff.mpr (hlt.trans (h.lt_of_mem hr)))⟩

/-- The row of the first tab. -/
def firstRow : Row := ⟨0, none⟩

/-- The first shell is a root. -/
theorem Spawned.firstRow_mem (h : Spawned par k s) (hpar : ∀ i q, par i = some q → q < i)
    (hk : 0 < k) : firstRow ∈ s.rows := by
  have hzero : par 0 = none := by
    cases hp : par 0 with
    | none => rfl
    | some q => exact absurd (hpar 0 q hp) (by omega)
  have hmem := h.mem hk
  rwa [hzero] at hmem

/-- Where a new root goes: to the end, or behind the first row. -/
def NewPlace (positionPref : NewTabPosition) (L R : List Row) : Prop :=
  match positionPref with
  | .last => R = []
  | .next => ∃ X, L = X ++ [firstRow]

/-- A new shell is inserted at the place of the setting. -/
theorem windowAddScreen_eq (h : Spawned par k s) (hpar : ∀ i q, par i = some q → q < i)
    (hk : 0 < k) (positionPref : NewTabPosition) :
    ∃ L R, L ++ R = s.rows ∧ NewPlace positionPref L R ∧
      windowAddScreen s k positionPref = { s with rows := L ++ ⟨k, none⟩ :: R } := by
  have hnone : s.lookupRow k = none :=
    lookupRow_eq_none fun hmem => absurd (h.mem_iff.mp hmem) (lt_irrefl k)
  have hactive : s.activeScreen.isNone = false := by rw [h.active]; rfl
  have hadd (position : Option ℕ) : s.addScreen k position =
      { s with rows := listBoxInsert s.rows [⟨k, none⟩] position } := by
    rw [addScreen]
    simp [hactive]
  rw [windowAddScreen, hnone]
  cases positionPref with
  | last =>
      refine ⟨s.rows, [], List.append_nil _, rfl, ?_⟩
      simp only [Option.isSome_none, Bool.false_eq_true, if_false]
      exact hadd none
  | next =>
      obtain ⟨X, W, hsplit⟩ := List.append_of_mem (h.firstRow_mem hpar hk)
      have hnodup := h.nodup
      have hindex : rowGetIndex s.rows 0 = some X.length := by
        rw [hsplit] at hnodup ⊢
        exact rowGetIndex_of_split (x := firstRow) hnodup
      have hposition : newPosition s .next = some (X.length + 1) := by
        simp [newPosition, getActiveScreenNum, h.selected, hindex]
      refine ⟨X ++ [firstRow], W, by simp [hsplit], ⟨X, rfl⟩, ?_⟩
      simp only [Option.isSome_none, Bool.false_eq_true, if_false, hposition, hadd]
      have hinsert : listBoxInsert s.rows [⟨k, none⟩] (some (X.length + 1)) =
          X ++ [firstRow] ++ ⟨k, none⟩ :: W := by
        have hlen : (X ++ [firstRow]).length = X.length + 1 := by simp
        have hrows : s.rows = (X ++ [firstRow]) ++ W := by simp [hsplit]
        rw [listBoxInsert, hrows, ← hlen, List.take_left, List.drop_left]
        rfl
      rw [hinsert]

/-- The rows behind a place: those up to the next root, and the others. -/
theorem exists_root_split (W : List Row) :
    ∃ T R, W = T ++ R ∧ (∀ r ∈ T, r.parent ≠ none) ∧ ∀ r ∈ R.head?, r.parent = none := by
  refine ⟨W.takeWhile fun r => r.parent ≠ none, W.dropWhile fun r => r.parent ≠ none,
    List.takeWhile_append_dropWhile.symm, ?_, ?_⟩
  · intro r hr
    simpa using List.mem_takeWhile_imp hr
  · intro r hr
    have hhead := List.head?_dropWhile_not (fun r : Row => r.parent ≠ none) W
    rw [Option.mem_def.mp hr] at hhead
    simpa using hhead

/-- What one more tab does. -/
structure Created (positionPref : NewTabPosition) (par : ℕ → Option ℕ) (k : ℕ)
    (s s' : TerminalSidebar) (L T R : List Row) : Prop where
  rows : L ++ (T ++ R) = s.rows
  place : NewPlace positionPref L (T ++ R)
  below : ∀ r ∈ T, r.parent ≠ none
  next : ∀ r ∈ R.head?, r.parent = none
  root : par k = none → s'.rows = L ++ ⟨k, none⟩ :: (T ++ R)
  child : ∀ p, par k = some p → ∃ i e,
    rowGetIndex (L ++ ⟨k, none⟩ :: (T ++ R)) p = some i ∧
    subtreeEndIndex (L ++ ⟨k, none⟩ :: (T ++ R)) i = some e ∧ i < e ∧
    s'.rows = listBoxInsert (L ++ R) (⟨k, some p⟩ :: T) (destination L.length (1 + T.length) e)
  keepsOrder : PreOrder (L ++ ⟨k, none⟩ :: (T ++ R)) → PreOrder s'.rows
  selected : s'.selectedRow = s.selectedRow
  active : s'.activeScreen = s.activeScreen

/-- Then it is hung under its parent. -/
theorem createInstance_eq (h : Spawned par k s) (hpar : ∀ i q, par i = some q → q < i)
    (hk : 0 < k) (positionPref : NewTabPosition) :
    ∃ s' L T R, createInstance positionPref s k (par k) false = some s' ∧
      Created positionPref par k s s' L T R := by
  obtain ⟨L, W, hLW, hplace, hadded⟩ := windowAddScreen_eq h hpar hk positionPref
  obtain ⟨T, R, rfl, hT, hR⟩ := exists_root_split W
  unfold createInstance
  cases hparent : par k with
  | none =>
      refine ⟨_, L, T, R, rfl, hLW, hplace, hT, hR, fun _ => ?_, fun p hp => ?_, fun hpre => ?_, ?_,
        ?_⟩
      · rw [hadded]
        rfl
      · rw [hparent] at hp
        cases hp
      · rw [hadded]
        exact hpre
      · rw [hadded]
        rfl
      · rw [hadded]
        rfl
  | some p =>
      have hp : p < k := hpar k p hparent
      have hd := h.downward hpar hLW
      have hmem : p ∈ (L ++ ⟨k, none⟩ :: (T ++ R)).map Line.key := by
        have hold := h.mem_iff.mpr hp
        rw [← hLW] at hold
        simp only [List.map_append, List.map_cons, List.mem_append, List.mem_cons] at hold ⊢
        tauto
      have hselected : ∀ r ∈ (⟨k, none⟩ :: T : List Row), s.selectedRow ≠ some r.key := by
        intro r hr heq
        have hkey : r.key = 0 := by
          rw [h.selected] at heq
          exact (Option.some.inj heq).symm
        rcases List.mem_cons.mp hr with rfl | hr
        · exact absurd hkey (by simpa using hk.ne')
        · -- the first row is a root
          have hrow : r ∈ s.rows := by
            rw [← hLW]
            exact List.mem_append_right _ (List.mem_append_left _ hr)
          have hzero : par 0 = none := by
            cases hp0 : par 0 with
            | none => rfl
            | some q => exact absurd (hpar 0 q hp0) (by omega)
          exact hT r hr (by rw [h.parents r hrow, hkey, hzero])
      obtain ⟨i, e, hi, he, hie, hset⟩ := setScreenParent_downward
        (s := { s with rows := L ++ ⟨k, none⟩ :: (T ++ R) }) hd rfl hp hmem hT hR hselected
      refine ⟨{ s with
          rows := listBoxInsert (L ++ R) (⟨k, some p⟩ :: T)
            (destination L.length (1 + T.length) e) },
        L, T, R, ?_, hLW, hplace, hT, hR, fun hn => ?_, fun p' hp' => ?_, fun hpre => ?_, rfl, rfl⟩
      · simp only [hadded, hset, Option.map_some, Option.bind_eq_bind, Option.bind_some]
        rfl
      · rw [hparent] at hn
        cases hn
      · obtain rfl : p = p' := Option.some.inj (hparent.symm.trans hp')
        exact ⟨i, e, hi, he, hie, rfl⟩
      · obtain ⟨s'', hs'', hpre''⟩ := preOrder_setScreenParent
          (s := { s with rows := L ++ ⟨k, none⟩ :: (T ++ R) }) hpre k (some p)
        rw [hset] at hs''
        obtain rfl := Option.some.inj hs''
        exact hpre''

namespace Created

variable {positionPref : NewTabPosition} {s' : TerminalSidebar} {L T R : List Row}

/-- Wherever a child goes, the rows up to the next root go with it. -/
theorem exists_split (hc : Created positionPref par k s s' L T R) {p : ℕ} (hp : par k = some p) :
    ∃ Y Z, Y ++ Z = L ++ R ∧ s'.rows = Y ++ (⟨k, some p⟩ :: T ++ Z) := by
  obtain ⟨i, e, -, -, -, hrows⟩ := hc.child p hp
  obtain ⟨Y, Z, hYZ, hinsert⟩ := exists_listBoxInsert (L ++ R) (⟨k, some p⟩ :: T)
    (destination L.length (1 + T.length) e)
  exact ⟨Y, Z, hYZ, hrows.trans hinsert⟩

/-- It adds one row. -/
theorem perm (hc : Created positionPref par k s s' L T R) :
    s'.rows.Perm (⟨k, par k⟩ :: s.rows) := by
  rw [← hc.rows]
  cases hparent : par k with
  | none =>
      rw [hc.root hparent]
      exact List.perm_middle
  | some p =>
      obtain ⟨Y, Z, hYZ, hrows⟩ := hc.exists_split hparent
      rw [hrows, List.perm_iff_count]
      have hcount := fun a : Row => congrArg (List.count a) hYZ
      intro a
      have := hcount a
      simp only [List.count_append, List.count_cons, List.cons_append] at this ⊢
      omega

/-- Then one more shell has its row. -/
theorem spawned (hc : Created positionPref par k s s' L T R) (h : Spawned par k s) :
    Spawned par (k + 1) s' := by
  refine ⟨?_, ?_, hc.selected.trans h.selected, hc.active.trans h.active⟩
  · have hkeys := hc.perm.map Line.key
    rw [List.range_succ]
    exact hkeys.trans ((h.keys.cons k).trans (List.perm_append_singleton k _).symm)
  · intro r hr
    rcases List.mem_cons.mp (hc.perm.mem_iff.mp hr) with rfl | hr
    · rfl
    · exact h.parents r hr

end Created

end Tab

end Axan.LinuxSidebar
