import Axan.LinuxSidebar.Sidebar

/-!
# The pre-order of the Linux sidebar

* `rowDepth_flat`, `rowIsDescendantOf_flat`, `subtreeEndIndex_flat` — on rows in pre-order the walks
  over the pointers find the ancestors and the end of a subtree.
* `removeScreen_eq`, `moveSubtree_front`, `moveSubtree_back`, `moveSubtree_end` — what the
  operations do to the rows. Closed shells, drops and changes of parent keep the pre-order.
* `Consistent` — the promise: pre-order, chains that end, pointers into the list, and subtrees that
  are ranges.
* `KeepsOrder` — the condition of a step. `preOrder_step_iff` says that it is exact, and
  `inOrder_iff_keepsOrder` carries it to **whole runs**.

A new shell goes behind the active row, and move left and right count rows; neither looks at the
hierarchy.
-/

namespace Axan.LinuxSidebar

open Axan.Base Axan.Base.Forest

/-! ### The walks on an outline -/

section Walks

variable {O A B C : List (ℕ × List ℕ)} {a : ℕ} {up : List ℕ}

/-- The depth is the number of ancestors. -/
theorem rowDepth_flat (hO : IsOutline [] O) (hnd : (O.map Prod.fst).Nodup) {r : ℕ × List ℕ}
    (hr : r ∈ O) : rowDepth (flat O) (line r) = some r.2.length := by
  rw [rowDepth, length_flat]
  exact congrArg _ (ancestors_flat hO hnd hr)

/-- A row is below its ancestors. -/
theorem rowIsDescendantOf_flat (hO : IsOutline [] O) (hnd : (O.map Prod.fst).Nodup)
    {r : ℕ × List ℕ} (hr : r ∈ O) (x : ℕ) :
    rowIsDescendantOf (flat O) (line r) x = some (decide (x ∈ r.2)) := by
  have hgen : ∀ (n : ℕ) (u : List ℕ), u <:+ r.2 → u.length ≤ n →
      walkMeets (flat O) x n u.head? = some (decide (x ∈ u)) := by
    intro n u
    induction u generalizing n with
    | nil => intro _ _; cases n <;> rfl
    | cons k T ih =>
        intro hT hn
        obtain ⟨n, rfl⟩ : ∃ m, n = m + 1 := ⟨n - 1, by rw [List.length_cons] at hn; omega⟩
        have hparent := hO.parentOf_of_suffix hnd hr hT
        have hrest := ih n ((List.suffix_cons k T).trans hT) (by simpa using hn)
        by_cases hk : k = x
        · simp [walkMeets, hk]
        · simp [walkMeets, hk, hparent, hrest, Ne.symm hk]
  rw [rowIsDescendantOf, length_flat]
  exact hgen _ _ List.suffix_rfl (by simpa using (hO.length_lt hr).le)

/-- A row is found at its index. -/
theorem rowGetIndex_of_split {X Z : List Row} {x : Row}
    (hnd : ((X ++ x :: Z).map Line.key).Nodup) :
    rowGetIndex (X ++ x :: Z) x.key = some X.length := by
  rw [List.map_append, List.nodup_append] at hnd
  have hX : ∀ l ∈ X, l.key ≠ x.key := fun l hl =>
    hnd.2.2 l.key (List.mem_map_of_mem hl) x.key List.mem_cons_self
  rw [rowGetIndex, List.findIdx?_append,
    List.findIdx?_eq_none_iff.mpr fun l hl => by simpa using hX l hl]
  simp [List.findIdx?_cons]

/-- The index of a row in the outline. -/
theorem rowGetIndex_flat (h : SubtreeAt O a up A B C) (hnd : (O.map Prod.fst).Nodup) :
    rowGetIndex (flat O) a = some A.length := by
  have hkeys := nodup_key_flat hnd
  rw [h.eq, flat_append, flat_cons] at hkeys ⊢
  rw [← length_flat A]
  exact rowGetIndex_of_split hkeys

/-- A subtree ends where its interval does. -/
theorem subtreeEndIndex_flat (h : SubtreeAt O a up A B C) (hO : IsOutline [] O)
    (hnd : (O.map Prod.fst).Nodup) :
    subtreeEndIndex (flat O) A.length = some (A.length + 1 + B.length) := by
  have hwalk : ∀ (B' : List (ℕ × List ℕ)) (i : ℕ), (∀ r ∈ B', r ∈ B) →
      walkDeeper (flat O) up.length i (flat (B' ++ C)) = some (i + B'.length) := by
    intro B'
    induction B' with
    | nil =>
        intro i _
        cases C with
        | nil => rfl
        | cons r C =>
            have hr : r ∈ O := by rw [h.eq]; simp
            have hle := (h.behind.head r rfl).length_le
            simp [walkDeeper, rowDepth_flat hO hnd hr, hle]
    | cons r B' ih =>
        intro i hB
        have hrB := hB r List.mem_cons_self
        have hr : r ∈ O := by rw [h.eq]; simp [hrB]
        have hlt := (h.below r hrB).length_le
        rw [List.length_cons] at hlt
        have hrest := ih (i + 1) fun r' hr' => hB r' (List.mem_cons_of_mem _ hr')
        rw [List.cons_append, flat_cons, walkDeeper, rowDepth_flat hO hnd hr]
        simp only [Option.bind_eq_bind, Option.bind_some, if_neg (Nat.not_le_of_lt hlt), hrest,
          List.length_cons]
        congr 1
        omega
  have hget : (flat O)[A.length]? = some (line (a, up)) := by simp [h.eq]
  have hdrop : (flat O).drop (A.length + 1) = flat (B ++ C) := by
    rw [h.eq, flat_append, flat_cons, ← length_flat A, ← List.drop_drop, List.drop_left]
    rfl
  rw [subtreeEndIndex, hget]
  simp only [rowDepth_flat hO hnd h.mem, Option.bind_eq_bind, Option.bind_some, hdrop]
  exact hwalk B _ fun r hr => hr

end Walks

namespace TerminalSidebar

variable {s : TerminalSidebar} {O A B C : List (ℕ × List ℕ)} {a : ℕ} {up : List ℕ}

/-- A shell with a row is found. -/
theorem lookupRow_of_mem (hs : s.rows = flat O) (hnd : (O.map Prod.fst).Nodup)
    (ha : (a, up) ∈ O) : s.lookupRow a = some (line (a, up)) := by
  rw [lookupRow, hs]
  exact find?_of_mem (nodup_key_flat hnd) (l := line (a, up)) (List.mem_map_of_mem ha)

theorem lookupRow_eq_none (h : a ∉ s.rows.map Line.key) : s.lookupRow a = none := by
  rw [lookupRow, List.find?_eq_none]
  intro l hl heq
  obtain rfl : l.key = a := by simpa using heq
  exact h (List.mem_map_of_mem hl)

@[simp] theorem rows_deselect (s : TerminalSidebar) (moving : List Row) :
    (s.deselect moving).rows = s.rows := by
  rw [deselect]
  split <;> rfl

/-- A selection keeps the rows. -/
@[simp] theorem rows_selectRow (s : TerminalSidebar) (screen : ℕ) :
    (s.selectRow screen).rows = s.rows := rfl

@[simp] theorem rows_reselect (s : TerminalSidebar) (source : ℕ) :
    (s.reselect source).rows = s.rows := by
  rw [reselect]
  split <;> rfl

/-! ### Closed shells -/

/-- What is in front of a subtree. -/
theorem take_flat (h : SubtreeAt O a up A B C) : (flat O).take A.length = flat A := by
  rw [h.eq, flat_append, ← length_flat A, List.take_left]

theorem drop_flat (h : SubtreeAt O a up A B C) :
    (flat O).drop A.length = line (a, up) :: (flat B ++ flat C) := by
  rw [h.eq, flat_append, ← length_flat A, List.drop_left, flat_cons, flat_append]

theorem drop_flat_end (h : SubtreeAt O a up A B C) :
    (flat O).drop (A.length + 1 + B.length) = flat C := by
  rw [Nat.add_assoc, ← List.drop_drop, drop_flat h, Nat.add_comm, ← length_flat B,
    List.drop_succ_cons, List.drop_left]

/-- Closing a shell promotes its children in place. -/
theorem removeScreen_eq (hs : s.rows = flat O) (h : SubtreeAt O a up A B C)
    (hO : IsOutline [] O) (hnd : (O.map Prod.fst).Nodup) :
    ∃ s', s.removeScreen a = some s' ∧
      s'.rows = flat (A ++ (B.map (rebase (a :: up).length up) ++ C)) := by
  have hbelow : ((flat O).drop (A.length + 1)).take (A.length + 1 + B.length - (A.length + 1)) =
      flat B := by
    rw [Nat.add_sub_cancel_left, ← List.drop_drop, drop_flat h, List.drop_one, List.tail_cons,
      ← length_flat B, List.take_left]
  rw [removeScreen, lookupRow_of_mem hs hnd h.mem]
  simp only [hs, rowGetIndex_flat h hnd, subtreeEndIndex_flat h hO hnd, Option.bind_eq_bind,
    Option.bind_some, Option.some.injEq, exists_eq_left', hbelow, take_flat h, drop_flat_end h]
  rw [flat_append, flat_append, h.flat_hoist hO hnd]
  rfl

/-! ### Moves of a subtree -/

/-- The rows that move, with the pointer of the first one changed. -/
theorem moving_eq (h : SubtreeAt O a up A B C) (hnd : (O.map Prod.fst).Nodup) (u : List ℕ) :
    ((((flat O).drop A.length).take (A.length + 1 + B.length - A.length)).map
      (rowSetParent a u.head?)) = flat (SubtreeAt.hung a up B u) := by
  have hkeys := h.nodup_keys hnd
  rw [List.nodup_append, List.nodup_cons] at hkeys
  have hB : ∀ l ∈ flat B, rowSetParent a u.head? l = l := by
    intro l hl
    obtain ⟨r, hr, rfl⟩ := List.mem_map.mp hl
    refine if_neg fun heq => hkeys.2.1.1 (List.mem_append_left _ ?_)
    exact heq ▸ List.mem_map_of_mem hr
  have hsize : A.length + 1 + B.length - A.length = (flat B).length + 1 := by
    rw [length_flat]
    omega
  rw [hsize, drop_flat h, List.take_succ_cons, List.take_left, List.map_cons, h.flat_hung,
    List.map_congr_left hB, List.map_id']
  exact congrArg (· :: flat B) (if_pos rfl)

/-- A subtree that moves to the end becomes the last root. -/
theorem moveSubtree_end (hs : s.rows = flat O) (h : SubtreeAt O a up A B C)
    (hO : IsOutline [] O) (hnd : (O.map Prod.fst).Nodup) :
    ∃ s', s.moveSubtree a none none = some s' ∧
      s'.rows = flat ((A ++ C) ++ SubtreeAt.hung a up B []) := by
  have hmoving := moving_eq h hnd []
  rw [List.head?_nil] at hmoving
  rw [moveSubtree]
  simp only [hs, rowGetIndex_flat h hnd, subtreeEndIndex_flat h hO hnd, Option.bind_eq_bind,
    Option.bind_some, Option.bind_none, Option.some.injEq, exists_eq_left', take_flat h,
    drop_flat_end h, hmoving, listBoxInsert, flat_append]

/-- One that moves to the front of a row. -/
theorem moveSubtree_front {A' : List (ℕ × List ℕ)} {u : List ℕ} (hs : s.rows = flat O)
    (h : SubtreeAt O a up (A ++ A') B C) (hO : IsOutline [] O) (hnd : (O.map Prod.fst).Nodup) :
    ∃ s', s.moveSubtree a u.head? (some A.length) = some s' ∧
      s'.rows = flat (A ++ (SubtreeAt.hung a up B u ++ (A' ++ C))) := by
  have hle : ¬ (A ++ A').length < A.length := by simp
  rw [moveSubtree]
  simp only [hs, rowGetIndex_flat h hnd, subtreeEndIndex_flat h hO hnd, Option.bind_eq_bind,
    Option.bind_some, Option.some.injEq, exists_eq_left', take_flat h,
    drop_flat_end h, moving_eq h hnd u, listBoxInsert, if_neg hle]
  rw [flat_append, List.append_assoc, ← length_flat A, List.take_left, List.drop_left]
  simp only [flat_append]

/-- And one that moves behind it. -/
theorem moveSubtree_back {C' : List (ℕ × List ℕ)} {u : List ℕ} (hs : s.rows = flat O)
    (h : SubtreeAt O a up A B (C ++ C')) (hO : IsOutline [] O) (hnd : (O.map Prod.fst).Nodup) :
    ∃ s', s.moveSubtree a u.head? (some (A.length + 1 + B.length + C.length)) = some s' ∧
      s'.rows = flat ((A ++ C) ++ (SubtreeAt.hung a up B u ++ C')) := by
  have hlt : A.length < A.length + 1 + B.length + C.length := by omega
  have hsize : A.length + 1 + B.length - A.length ≤ A.length + 1 + B.length + C.length := by omega
  have hdest : A.length + 1 + B.length + C.length - (A.length + 1 + B.length - A.length) =
      (flat (A ++ C)).length := by
    rw [length_flat, List.length_append]
    omega
  have hrest : flat A ++ flat (C ++ C') = flat (A ++ C) ++ flat C' := by
    rw [flat_append, flat_append, List.append_assoc]
  rw [moveSubtree]
  simp only [hs, rowGetIndex_flat h hnd, subtreeEndIndex_flat h hO hnd, Option.bind_eq_bind,
    Option.bind_some, Option.some.injEq, exists_eq_left', take_flat h,
    drop_flat_end h, moving_eq h hnd u, listBoxInsert, if_pos hlt, if_pos hsize, hdest, hrest]
  rw [List.take_left, List.drop_left, flat_append, flat_append, flat_append, flat_append]

/-- An outline with the nodes of another. -/
theorem preOrder_of_count {O' : List (ℕ × List ℕ)} (hO' : IsOutline [] O')
    (hnd : (O.map Prod.fst).Nodup)
    (hcount : ∀ x, (O'.map Prod.fst).count x = (O.map Prod.fst).count x) :
    PreOrder (flat O') :=
  preOrder_iff.mpr ⟨O', hO', (List.perm_iff_count.mpr hcount).nodup_iff.mpr hnd, rfl⟩

/-- A move to the end keeps the pre-order. -/
theorem preOrder_moveSubtree_end (hs : s.rows = flat O) (h : SubtreeAt O a up A B C)
    (hO : IsOutline [] O) (hnd : (O.map Prod.fst).Nodup) :
    ∃ s', s.moveSubtree a none none = some s' ∧ PreOrder s'.rows := by
  obtain ⟨s', hmove, hrows⟩ := moveSubtree_end hs h hO hnd
  refine ⟨s', hmove, hrows ▸ preOrder_of_count h.isOutline_move_end hnd fun x => ?_⟩
  simp only [h.eq, List.map_append, List.map_cons, SubtreeAt.map_fst_hung, List.count_append,
    List.count_cons]
  omega

/-- So does one to the front, under a row that is open there. -/
theorem preOrder_moveSubtree_front {A' : List (ℕ × List ℕ)} {u : List ℕ} (hs : s.rows = flat O)
    (h : SubtreeAt O a up (A ++ A') B C) (hO : IsOutline [] O) (hnd : (O.map Prod.fst).Nodup)
    (hu : u <:+ openPath [] A) (hrest : IsOutline u (A' ++ (a, up) :: (B ++ C))) :
    ∃ s', s.moveSubtree a u.head? (some A.length) = some s' ∧ PreOrder s'.rows := by
  obtain ⟨s', hmove, hrows⟩ := moveSubtree_front (u := u) hs h hO hnd
  refine ⟨s', hmove, hrows ▸ preOrder_of_count (h.isOutline_move_front hu hrest) hnd fun x => ?_⟩
  simp only [h.eq, List.map_append, List.map_cons, SubtreeAt.map_fst_hung, List.count_append,
    List.count_cons]
  omega

/-- So does one to the back. -/
theorem preOrder_moveSubtree_back {C' : List (ℕ × List ℕ)} {u : List ℕ} (hs : s.rows = flat O)
    (h : SubtreeAt O a up A B (C ++ C')) (hO : IsOutline [] O) (hnd : (O.map Prod.fst).Nodup)
    (hu : u <:+ openPath [] (A ++ (a, up) :: (B ++ C))) (ha : a ∉ u) (hrest : IsOutline u C') :
    ∃ s', s.moveSubtree a u.head? (some (A.length + 1 + B.length + C.length)) = some s' ∧
      PreOrder s'.rows := by
  obtain ⟨s', hmove, hrows⟩ := moveSubtree_back (u := u) hs h hO hnd
  refine ⟨s', hmove, hrows ▸ preOrder_of_count (h.isOutline_move_back hu ha hrest) hnd fun x => ?_⟩
  simp only [h.eq, List.map_append, List.map_cons, SubtreeAt.map_fst_hung, List.count_append,
    List.count_cons]
  omega

/-- A move of a subtree to a place at which the path `u` is open, and which is not in it. -/
theorem preOrder_moveSubtree {L R : List (ℕ × List ℕ)} {u : List ℕ} (hs : s.rows = flat O)
    (h : SubtreeAt O a up A B C) (hO : IsOutline [] O) (hnd : (O.map Prod.fst).Nodup)
    (hLR : O = L ++ R) (hu : u <:+ openPath [] L) (hrest : IsOutline u R) (ha : a ∉ u) :
    ∃ s', s.moveSubtree a u.head? (some L.length) = some s' ∧ PreOrder s'.rows := by
  rcases List.append_eq_append_iff.mp (hLR.symm.trans h.eq) with ⟨A', rfl, rfl⟩ | ⟨L', rfl, hX⟩
  · exact preOrder_moveSubtree_front hs h hO hnd hu hrest
  rcases List.cons_eq_append_iff.mp hX with ⟨rfl, rfl⟩ | ⟨L'', rfl, hBC⟩
  · have h' : SubtreeAt O a up (A ++ []) B C := by rwa [List.append_nil]
    rw [List.append_nil] at hu ⊢
    exact preOrder_moveSubtree_front hs h' hO hnd hu hrest
  rcases List.append_eq_append_iff.mp hBC with ⟨C', rfl, rfl⟩ | ⟨B', rfl, rfl⟩
  · obtain hmove := preOrder_moveSubtree_back hs h hO hnd hu ha hrest
    simpa [Nat.add_assoc, Nat.add_comm, Nat.add_left_comm] using hmove
  · cases B' with
    | nil =>
        rw [List.append_nil] at h
        have hmove := preOrder_moveSubtree_back (C := []) hs h hO hnd (by simpa using hu) ha hrest
        simpa [Nat.add_assoc, Nat.add_comm, Nat.add_left_comm] using hmove
    | cons r B' =>
        -- The next row would hang below `a`.
        have hr := (h.below r (by simp)).trans (hrest.head r rfl)
        exact absurd (hr.mem List.mem_cons_self) ha

/-- The places a row is dropped at: at a target that is not below it. -/
theorem preOrder_moveSubtree_at {t : ℕ} {ut : List ℕ} {At Bt Ct : List (ℕ × List ℕ)}
    (hs : s.rows = flat O) (h : SubtreeAt O a up A B C) (ht : SubtreeAt O t ut At Bt Ct)
    (hO : IsOutline [] O) (hnd : (O.map Prod.fst).Nodup) (ha : a ∉ ut) :
    (∃ s', s.moveSubtree a ut.head? (some At.length) = some s' ∧ PreOrder s'.rows) ∧
    (∃ s', s.moveSubtree a ut.head? (some (At.length + 1 + Bt.length)) = some s' ∧
      PreOrder s'.rows) ∧
    (a ≠ t → ∃ s', s.moveSubtree a (some t) (some (At.length + 1 + Bt.length)) = some s' ∧
      PreOrder s'.rows) := by
  have hlen : (At ++ (t, ut) :: Bt).length = At.length + 1 + Bt.length := by
    rw [List.length_append, List.length_cons]
    omega
  have heq : O = (At ++ (t, ut) :: Bt) ++ Ct := by rw [ht.eq]; simp
  have hopen := ht.suffix_openPath
  rw [← hlen]
  refine ⟨?_, ?_, fun hne => ?_⟩
  · have hrest : IsOutline ut ((t, ut) :: (Bt ++ Ct)) :=
      (isOutline_append.mp (ht.eq ▸ hO)).2.of_head (by simp)
    exact preOrder_moveSubtree hs h hO hnd ht.eq ht.hangs hrest ha
  · exact preOrder_moveSubtree hs h hO hnd heq ((List.suffix_cons t ut).trans hopen) ht.behind ha
  · exact preOrder_moveSubtree (u := t :: ut) hs h hO hnd heq hopen
      (ht.behind.mono (List.suffix_cons t ut)) (by simp [hne, ha])

/-- What is found is a row of the outline. -/
theorem exists_mem_of_lookupRow {row : Row} (hs : s.rows = flat O)
    (h : s.lookupRow a = some row) : ∃ up, (a, up) ∈ O ∧ row = line (a, up) := by
  have hkey : row.key = a := by simpa using List.find?_some h
  obtain ⟨r, hr, rfl⟩ := List.mem_map.mp (hs ▸ List.mem_of_find?_eq_some h)
  obtain ⟨b, up⟩ := r
  obtain rfl : b = a := hkey
  exact ⟨up, hr, rfl⟩

/-! ### The operations that keep the pre-order -/

/-- Closing a shell keeps the pre-order. -/
theorem preOrder_removeScreen (hpre : PreOrder s.rows) (screen : ℕ) :
    ∃ s', s.removeScreen screen = some s' ∧ PreOrder s'.rows := by
  obtain ⟨O, hO, hnd, hs⟩ := preOrder_iff.mp hpre
  cases hrow : s.lookupRow screen with
  | none => exact ⟨s, by rw [removeScreen, hrow], hpre⟩
  | some row =>
      obtain ⟨up, hmem, -⟩ := exists_mem_of_lookupRow hs hrow
      obtain ⟨A, B, C, h⟩ := hO.exists_subtreeAt hmem
      obtain ⟨s', hremove, hrows⟩ := removeScreen_eq hs h hO hnd
      refine ⟨s', hremove, preOrder_iff.mpr ⟨_, h.isOutline_hoist, ?_, hrows⟩⟩
      refine List.Nodup.sublist ?_ (h.nodup_keys hnd)
      rw [List.map_append, List.map_append, map_fst_rebase]
      exact (List.Sublist.refl _).append (List.sublist_cons_self _ _)

/-- So does a drop. -/
theorem preOrder_dragDataReceived (hpre : PreOrder s.rows) (source : ℕ)
    (target : Option (ℕ × DropZone)) :
    ∃ s', s.dragDataReceived source target = some s' ∧ PreOrder s'.rows := by
  obtain ⟨O, hO, hnd, hs⟩ := preOrder_iff.mp hpre
  cases hrow : s.lookupRow source with
  | none => exact ⟨s, by simp [dragDataReceived, hrow], hpre⟩
  | some row =>
      obtain ⟨up, hmem, -⟩ := exists_mem_of_lookupRow hs hrow
      obtain ⟨A, B, C, h⟩ := hO.exists_subtreeAt hmem
      cases target with
      | none =>
          obtain ⟨s', hmove, hpre'⟩ := preOrder_moveSubtree_end hs h hO hnd
          exact ⟨s'.reselect source, by simp [dragDataReceived, hrow, hmove], by simpa using hpre'⟩
      | some target =>
          obtain ⟨t, zone⟩ := target
          cases htarget : s.lookupRow t with
          | none => exact ⟨s, by simp [dragDataReceived, hrow, htarget], hpre⟩
          | some targetRow =>
              obtain ⟨ut, htmem, rfl⟩ := exists_mem_of_lookupRow hs htarget
              obtain ⟨At, Bt, Ct, ht⟩ := hO.exists_subtreeAt htmem
              have hinside := rowIsDescendantOf_flat hO hnd htmem source
              have hindex := rowGetIndex_flat ht hnd
              have hend := subtreeEndIndex_flat ht hO hnd
              rw [← hs] at hinside hindex hend
              simp only [dragDataReceived, hrow, htarget, hinside, hindex, hend,
                Option.bind_eq_bind, Option.bind_some]
              by_cases hstay : (decide (source ∈ ut) || (source = t && zone = .child)) = true
              · rw [if_pos hstay]
                exact ⟨s, rfl, hpre⟩
              · rw [if_neg hstay]
                simp only [Bool.or_eq_true, decide_eq_true_eq, Bool.and_eq_true, not_or,
                  not_and] at hstay
                obtain ⟨hbefore, hafter, hchild⟩ :=
                  preOrder_moveSubtree_at hs h ht hO hnd hstay.1
                cases zone with
                | siblingBefore =>
                    obtain ⟨s', hmove, hpre'⟩ := hbefore
                    exact ⟨s'.reselect source, by simp [line, hmove], by simpa using hpre'⟩
                | siblingAfter =>
                    obtain ⟨s', hmove, hpre'⟩ := hafter
                    exact ⟨s'.reselect source, by simp [line, hmove], by simpa using hpre'⟩
                | child =>
                    obtain ⟨s', hmove, hpre'⟩ := hchild fun heq => hstay.2 heq rfl
                    exact ⟨s'.reselect source, by simp [hmove], by simpa using hpre'⟩

/-- So does hanging a row under another. -/
theorem preOrder_setScreenParent (hpre : PreOrder s.rows) (child : ℕ) (parent : Option ℕ) :
    ∃ s', (s.setScreenParent child parent).map Prod.fst = some s' ∧ PreOrder s'.rows := by
  obtain ⟨O, hO, hnd, hs⟩ := preOrder_iff.mp hpre
  by_cases hself : parent = some child
  · exact ⟨s, by simp [setScreenParent, hself], hpre⟩
  cases hrow : s.lookupRow child with
  | none => exact ⟨s, by simp [setScreenParent, hself, hrow], hpre⟩
  | some row =>
      obtain ⟨up, hmem, -⟩ := exists_mem_of_lookupRow hs hrow
      obtain ⟨A, B, C, h⟩ := hO.exists_subtreeAt hmem
      cases parent with
      | none =>
          obtain ⟨s', hmove, hpre'⟩ := preOrder_moveSubtree_end hs h hO hnd
          exact ⟨s', by simp [setScreenParent, hrow, hmove], hpre'⟩
      | some p =>
          cases hparent : s.lookupRow p with
          | none => exact ⟨s, by simp [setScreenParent, hself, hrow, hparent], hpre⟩
          | some parentRow =>
              obtain ⟨ut, htmem, rfl⟩ := exists_mem_of_lookupRow hs hparent
              obtain ⟨At, Bt, Ct, ht⟩ := hO.exists_subtreeAt htmem
              have hinside := rowIsDescendantOf_flat hO hnd htmem child
              have hindex := rowGetIndex_flat ht hnd
              have hend := subtreeEndIndex_flat ht hO hnd
              rw [← hs] at hinside hindex hend
              simp only [setScreenParent, if_neg hself, hrow, hparent, hinside, hindex, hend,
                Option.bind_eq_bind, Option.bind_some, decide_eq_true_eq]
              by_cases hstay : child ∈ ut
              · exact ⟨s, by rw [if_pos hstay]; rfl, hpre⟩
              · have hne : child ≠ p := fun heq => hself (heq ▸ rfl)
                obtain ⟨s', hmove, hpre'⟩ :=
                  (preOrder_moveSubtree_at hs h ht hO hnd hstay).2.2 hne
                exact ⟨s', by rw [if_neg hstay, hmove]; rfl, hpre'⟩

end TerminalSidebar

/-! ### The promise -/

/-- What the comment on the hierarchy promises of the rows. -/
structure Consistent (rows : List Row) : Prop where
  preOrder : PreOrder rows
  /-- Every chain of pointers ends. -/
  acyclic : ∀ row ∈ rows, (ancestors rows rows.length row.parent).isSome
  /-- A pointer leads to a row that is in the list. -/
  inList : ∀ row ∈ rows, ∀ p, row.parent = some p → p ∈ rows.map Line.key
  /-- The rows below a row are the ones from it to the end of its subtree. -/
  contiguous : ∀ i row, rows[i]? = some row → ∃ e, subtreeEndIndex rows i = some e ∧
    ∀ j r, rows[j]? = some r → (rowIsDescendantOf rows r row.key = some true ↔ i < j ∧ j < e)

/-- The rows are consistent when they are in pre-order. -/
theorem consistent_iff {rows : List Row} : Consistent rows ↔ PreOrder rows := by
  refine ⟨Consistent.preOrder, fun h => ?_⟩
  obtain ⟨O, hO, hnd, rfl⟩ := preOrder_iff.mp h
  refine ⟨h, ?_, fun row hrow p hp => h.parent_mem hrow hp, ?_⟩
  · intro row hrow
    obtain ⟨r, hr, rfl⟩ := List.mem_map.mp hrow
    rw [length_flat, line, ancestors_flat hO hnd hr]
    rfl
  · intro i row hrow
    rw [flat, List.getElem?_map, Option.map_eq_some_iff] at hrow
    obtain ⟨⟨a, up⟩, hr, rfl⟩ := hrow
    obtain ⟨A, D, rfl, rfl⟩ := split_of_getElem? hr
    obtain ⟨B, C, hsub⟩ := hO.subtreeAt_of_split
    refine ⟨_, subtreeEndIndex_flat hsub hO hnd, fun j r' hr' => ?_⟩
    rw [flat, List.getElem?_map, Option.map_eq_some_iff] at hr'
    obtain ⟨r', hr', rfl⟩ := hr'
    have hmem := List.mem_of_getElem? hr'
    rw [rowIsDescendantOf_flat hO hnd hmem, ← hsub.mem_below_iff (List.Nodup.of_map _ hnd) hr',
      ← hsub.mem_ancestors_iff hO hnd hmem]
    exact Option.some_inj.trans decide_eq_true_iff

/-! ### When a step keeps the order -/

/-- No row at the index, or a root. -/
def RootAt (rows : List Row) (i : ℕ) : Prop := ∀ r ∈ rows[i]?, r.parent = none

/-- The row at the index has no children. -/
def LeafAt (rows : List Row) (i : ℕ) : Prop :=
  ∀ row ∈ rows[i]?, ∀ r ∈ rows[i + 1]?, r.parent ≠ some row.key

/-- Two neighbours that are siblings, the second without children. -/
def SwapAt (rows : List Row) (i : ℕ) : Prop :=
  (rows[i]?.map Line.parent = rows[i + 1]?.map Line.parent) ∧ LeafAt rows (i + 1)

instance (rows : List Row) (i : ℕ) : Decidable (RootAt rows i) :=
  inferInstanceAs (Decidable (∀ r ∈ rows[i]?, r.parent = none))

instance (rows : List Row) (i : ℕ) : Decidable (LeafAt rows i) :=
  inferInstanceAs (Decidable (∀ row ∈ rows[i]?, ∀ r ∈ rows[i + 1]?, r.parent ≠ some row.key))

instance (rows : List Row) (i : ℕ) : Decidable (SwapAt rows i) := instDecidableAnd

namespace TerminalSidebar

/-- The condition of a move left or right from an index: it changes places with a sibling and
neither has children; it goes from the front to the end and has no children; or it goes from the
end to the front and is a root. -/
def ReorderAt (rows : List Row) (pos : ℕ) : Direction → Prop
  | .left => if pos = 0 then LeafAt rows 0 else SwapAt rows (pos - 1)
  | .right => if rows.length ≤ pos + 1 then RootAt rows pos else SwapAt rows pos

/-- **The condition of a step.** A new shell is not put in front of a child; a move left or right
does not tear a subtree. -/
def KeepsOrder (s : TerminalSidebar) : Event → Prop
  | .newShell screen positionPref =>
      (s.lookupRow screen).isSome ∨ ∀ i ∈ newPosition s positionPref, RootAt s.rows i
  | .reorder screen direction =>
      ∀ pos ∈ rowGetIndex s.rows screen, ReorderAt s.rows pos direction
  | _ => True

/-- A new shell keeps the pre-order when it is not put in front of a child. -/
theorem preOrder_windowAddScreen_iff {s : TerminalSidebar} (hpre : PreOrder s.rows) (screen : ℕ)
    (positionPref : NewTabPosition) :
    PreOrder (windowAddScreen s screen positionPref).rows ↔
      KeepsOrder s (.newShell screen positionPref) := by
  rw [KeepsOrder, windowAddScreen]
  cases hrow : s.lookupRow screen with
  | some row => simpa using hpre
  | none =>
      have hrows : ∀ position, (s.addScreen screen position).rows =
          listBoxInsert s.rows [⟨screen, none⟩] position := by
        intro position
        rw [addScreen]
        split <;> rfl
      have hnew : screen ∉ s.rows.map Line.key := by
        rw [lookupRow, List.find?_eq_none] at hrow
        intro hmem
        obtain ⟨l, hl, rfl⟩ := List.mem_map.mp hmem
        exact hrow l hl (by simp)
      rw [if_neg (by simp), hrows]
      cases newPosition s positionPref with
      | none =>
          have h := preOrder_insert_iff (Z := []) (by simpa using hpre) (by simpa using hnew)
          simpa [listBoxInsert] using h
      | some i =>
          have h := preOrder_insert_iff (X := s.rows.take i) (Z := s.rows.drop i)
            (by rwa [List.take_append_drop]) (by rwa [List.take_append_drop])
          simpa [listBoxInsert, RootAt] using h

/-! ### Move left and move right -/

/-- A move left or right takes one row elsewhere. -/
theorem reorderScreen_eq {s : TerminalSidebar} {X Z : List Row} {x : Row}
    (hs : s.rows = X ++ x :: Z) (hnd : (s.rows.map Line.key).Nodup) (direction : Direction) :
    (s.reorderScreen x.key direction).rows =
      listBoxInsert (X ++ Z) [x] (some (newPos s.rows.length X.length direction)) := by
  have hrow : s.lookupRow x.key = some x := find?_of_mem hnd (by rw [hs]; simp)
  have hpos : rowGetIndex s.rows x.key = some X.length := by
    rw [hs] at hnd ⊢
    exact rowGetIndex_of_split hnd
  have herase : s.rows.eraseIdx X.length = X ++ Z := by
    rw [hs, List.eraseIdx_append_of_length_le (Nat.le_refl _), Nat.sub_self, List.eraseIdx_zero,
      List.tail_cons]
  simp only [reorderScreen, hrow, hpos, herase, rows_selectRow]

/-- Two siblings in a row, the second one without children. -/
theorem swapAt_iff {X Z : List Row} {x y : Row} :
    SwapAt (X ++ x :: y :: Z) X.length ↔
      x.parent = y.parent ∧ ∀ z ∈ Z.head?, z.parent ≠ some y.key := by
  have hget (k : ℕ) : (X ++ x :: y :: Z)[X.length + k]? = (x :: y :: Z)[k]? := by
    rw [List.getElem?_append_right (Nat.le_add_right _ _), Nat.add_sub_cancel_left]
  rw [SwapAt, LeafAt, hget 1, Nat.add_assoc, hget 2, ← Nat.add_zero X.length, hget 0,
    List.head?_eq_getElem?]
  simp

/-- A move keeps the pre-order when it tears no subtree. -/
theorem preOrder_reorderScreen_iff {s : TerminalSidebar} (hpre : PreOrder s.rows) (screen : ℕ)
    (direction : Direction) :
    PreOrder (s.reorderScreen screen direction).rows ↔
      KeepsOrder s (.reorder screen direction) := by
  rw [KeepsOrder]
  cases hpos : rowGetIndex s.rows screen with
  | none =>
      have hsame : s.reorderScreen screen direction = s := by
        rw [reorderScreen, hpos]
        split <;> simp_all
      rw [hsame]
      simpa using hpre
  | some pos =>
      obtain ⟨hlt, hkey, -⟩ := List.findIdx?_eq_some_iff_getElem.mp hpos
      obtain ⟨X, Z, hs, hX⟩ := split_of_getElem? (List.getElem?_eq_getElem hlt)
      generalize s.rows[pos] = x at hs hkey
      obtain rfl : x.key = screen := by simpa using hkey
      subst hX
      have hnd : (s.rows.map Line.key).Nodup := by
        obtain ⟨O, -, hnd, hO⟩ := preOrder_iff.mp hpre
        rw [hO]
        exact nodup_key_flat hnd
      rw [reorderScreen_eq hs hnd]
      rw [hs] at hpre
      simp only [Option.mem_def, Option.some.injEq, forall_eq', hs]
      cases direction with
      | left =>
          rw [ReorderAt]
          rcases List.eq_nil_or_concat' X with rfl | ⟨X, y, rfl⟩
          · have hrows : listBoxInsert ([] ++ Z) [x] (some (newPos ([] ++ x :: Z).length 0 .left)) =
                Z ++ [x] := by simp [listBoxInsert, newPos]
            rw [List.length_nil, hrows, preOrder_rotate_iff hpre, if_pos rfl]
            simp [LeafAt, List.head?_eq_getElem?]
          · have hrows : listBoxInsert (X ++ [y] ++ Z) [x]
                (some (newPos (X ++ [y] ++ x :: Z).length (X ++ [y]).length .left)) =
                X ++ x :: y :: Z := by simp [listBoxInsert, newPos]
            rw [List.append_assoc] at hpre
            rw [hrows, preOrder_swap_iff hpre, if_neg (by simp), ← swapAt_iff (X := X)]
            simp
      | right =>
          rw [ReorderAt]
          cases Z with
          | nil =>
              have hrows : listBoxInsert (X ++ []) [x]
                  (some (newPos (X ++ [x]).length X.length .right)) = x :: X := by
                simp [listBoxInsert, newPos]
              rw [hrows, preOrder_rotate_back_iff hpre, if_pos (by simp)]
              simp [RootAt]
          | cons z Z =>
              have hrest : X ++ z :: Z = (X ++ [z]) ++ Z := by simp
              have hpos' : newPos (X ++ x :: z :: Z).length X.length .right = (X ++ [z]).length := by
                simp [newPos]
              have hrows : listBoxInsert (X ++ z :: Z) [x]
                  (some (newPos (X ++ x :: z :: Z).length X.length .right)) = X ++ z :: x :: Z := by
                rw [listBoxInsert, hpos', hrest, List.take_left, List.drop_left]
                simp
              rw [hrows, preOrder_swap_iff hpre, if_neg (by simp), swapAt_iff]

/-! ### Runs -/

/-- A step from rows in pre-order has a result, and the result is in pre-order exactly when the
step meets its condition. -/
theorem preOrder_step_iff {s : TerminalSidebar} (hpre : PreOrder s.rows) (e : Event) :
    ∃ s', step s e = some s' ∧ (PreOrder s'.rows ↔ KeepsOrder s e) := by
  cases e with
  | newShell screen positionPref =>
      exact ⟨_, rfl, preOrder_windowAddScreen_iff hpre screen positionPref⟩
  | closeShell screen =>
      obtain ⟨s', hstep, hpre'⟩ := preOrder_removeScreen hpre screen
      exact ⟨s', hstep, iff_of_true hpre' trivial⟩
  | drop source target =>
      obtain ⟨s', hstep, hpre'⟩ := preOrder_dragDataReceived hpre source target
      exact ⟨s', hstep, iff_of_true hpre' trivial⟩
  | setScreenParent child parent =>
      obtain ⟨s', hstep, hpre'⟩ := preOrder_setScreenParent hpre child parent
      exact ⟨s', hstep, iff_of_true hpre' trivial⟩
  | reorder screen direction =>
      exact ⟨_, rfl, preOrder_reorderScreen_iff hpre screen direction⟩
  | select screen =>
      cases screen with
      | none => exact ⟨_, rfl, iff_of_true hpre trivial⟩
      | some screen =>
          refine ⟨_, rfl, iff_of_true ?_ trivial⟩
          split
          · exact hpre
          · exact hpre

/-- The rows are consistent after these events. -/
def InOrder (events : List Event) : Prop := ∃ s, run events = some s ∧ Consistent s.rows

/-- The last step of a run. -/
theorem run_append (events : List Event) (e : Event) :
    run (events ++ [e]) = (run events).bind fun s => step s e := by
  rw [run, List.foldlM_append]
  cases h : run events with
  | none => rw [run] at h; rw [h]; rfl
  | some s => rw [run] at h; rw [h]; simp

/-- **The rows are in pre-order all along a run exactly when every step meets its condition**, in the
state in front of it. -/
theorem inOrder_iff_keepsOrder (events : List Event) :
    (∀ pre, pre <+: events → InOrder pre) ↔
      ∀ pre e, pre ++ [e] <+: events → ∃ s, run pre = some s ∧ KeepsOrder s e := by
  constructor
  · intro h pre e hpre
    obtain ⟨s, hrun, hs⟩ := h pre ((List.prefix_append pre [e]).trans hpre)
    obtain ⟨s', hrun', hs'⟩ := h _ hpre
    obtain ⟨s'', hstep, hiff⟩ := preOrder_step_iff hs.preOrder e
    rw [run_append, hrun, Option.bind_some, hstep] at hrun'
    obtain rfl := Option.some.inj hrun'
    exact ⟨s, hrun, hiff.mp hs'.preOrder⟩
  · intro h pre
    induction pre using List.reverseRecOn with
    | nil => exact fun _ => ⟨{}, rfl, consistent_iff.mpr ⟨nil, List.nodup_nil, rfl⟩⟩
    | append_singleton pre e ih =>
        intro hpre
        obtain ⟨s, hrun, hkeeps⟩ := h pre e hpre
        obtain ⟨s', hrun', hs⟩ := ih ((List.prefix_append pre [e]).trans hpre)
        obtain rfl := Option.some.inj (hrun.symm.trans hrun')
        obtain ⟨s', hstep, hiff⟩ := preOrder_step_iff hs.preOrder e
        refine ⟨s', ?_, consistent_iff.mpr (hiff.mpr hkeeps)⟩
        rw [run_append, hrun, Option.bind_some, hstep]

/-- A child, its parent selected, and a new shell next to the parent. -/
def splitFamily : List Event :=
  [.newShell 0 .last, .newShell 1 .last, .setScreenParent 1 (some 0), .newShell 2 .next]

/-- The new shell comes between the parent and its child. -/
theorem splitFamily_not_inOrder :
    (run splitFamily).map TerminalSidebar.rows = some [⟨0, none⟩, ⟨2, none⟩, ⟨1, some 0⟩] ∧
      ¬ InOrder splitFamily := by
  have hrows : (run splitFamily).map TerminalSidebar.rows =
      some [⟨0, none⟩, ⟨2, none⟩, ⟨1, some 0⟩] := by decide
  refine ⟨hrows, ?_⟩
  rintro ⟨s, hrun, hs⟩
  rw [hrun, Option.map_some, Option.some.injEq] at hrows
  obtain ⟨O, hO, -, hflat⟩ := preOrder_iff.mp (hrows ▸ hs.preOrder)
  obtain ⟨u, O, rfl, -, hflat⟩ := flat_eq_cons hflat.symm
  obtain ⟨v, O, rfl, hv, hflat⟩ := flat_eq_cons hflat
  obtain ⟨w, O, rfl, hw, -⟩ := flat_eq_cons hflat
  obtain rfl : v = [] := List.head?_eq_none_iff.mp hv
  have hmem : 0 ∈ [2] := hO.2.2.1.mem (List.mem_of_mem_head? hw)
  simp at hmem

end TerminalSidebar

end Axan.LinuxSidebar
