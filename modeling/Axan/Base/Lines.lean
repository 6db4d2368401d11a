import Axan.Base.Outline

/-!
# Lines with parent pointers

* `Line`, `flat` — a forest as a list of lines in pre-order, each with a pointer to its parent;
  `PreOrder` says that a list of lines is one.
* `ancestors` — follow the pointers; `ancestors_flat` finds the ancestors of every node.
* `preOrder_insert_iff`, `preOrder_rotate_iff`, `preOrder_rotate_back_iff`, `preOrder_swap_iff` —
  **when** a list stays in pre-order if single lines are put in or change places.
-/

namespace Axan.Base

namespace Forest

variable {κ : Type}

/-! ### Lines with parent pointers -/

/-- A line: what it shows, and the line it hangs at. -/
structure Line (κ : Type) where
  key : κ
  parent : Option κ
  deriving DecidableEq, Repr

/-- The line of a node. -/
def line (r : κ × List κ) : Line κ := ⟨r.1, r.2.head?⟩

/-- The lines of an outline. -/
def flat (O : List (κ × List κ)) : List (Line κ) := O.map line

@[simp] theorem flat_nil : flat ([] : List (κ × List κ)) = [] := rfl

@[simp] theorem flat_cons (r : κ × List κ) (O : List (κ × List κ)) :
    flat (r :: O) = line r :: flat O := rfl

@[simp] theorem flat_append (A B : List (κ × List κ)) : flat (A ++ B) = flat A ++ flat B :=
  List.map_append

/-- There is one line for each row. -/
@[simp] theorem length_flat (O : List (κ × List κ)) : (flat O).length = O.length :=
  List.length_map _

/-- The keys of the lines are those of the rows. -/
theorem map_key_flat (O : List (κ × List κ)) : (flat O).map Line.key = O.map Prod.fst :=
  List.map_map

/-- Distinct nodes have distinct lines. -/
theorem nodup_key_flat {O : List (κ × List κ)} (hnd : (O.map Prod.fst).Nodup) :
    ((flat O).map Line.key).Nodup := by rwa [map_key_flat]

/-- A list of lines is the pre-order of a forest that its parent pointers spell. -/
def PreOrder (lines : List (Line κ)) : Prop :=
  ∃ F : Forest κ, (preorder F).Nodup ∧ lines = flat (outline [] F)

/-- Lines are in pre-order when they are those of an outline of distinct nodes. -/
theorem preOrder_iff {lines : List (Line κ)} :
    PreOrder lines ↔ ∃ O, IsOutline [] O ∧ (O.map Prod.fst).Nodup ∧ lines = flat O := by
  constructor
  · rintro ⟨F, hF, rfl⟩
    exact ⟨_, exists_outline.mp ⟨F, rfl⟩, preorder_eq_map [] F ▸ hF, rfl⟩
  · rintro ⟨O, hO, hnd, rfl⟩
    obtain ⟨F, rfl⟩ := exists_outline.mpr hO
    exact ⟨F, preorder_eq_map [] F ▸ hnd, rfl⟩

/-- The ancestors of a node are nodes of the outline, with their own ancestors. -/
theorem IsOutline.mem_of_suffix {path T : List κ} {k : κ} {O : List (κ × List κ)}
    (h : IsOutline path O) {r : κ × List κ} (hr : r ∈ O) (hT : k :: T <:+ r.2) :
    (k, T) ∈ O ∨ k :: T <:+ path := by
  induction O generalizing path with
  | nil => cases hr
  | cons r' O ih =>
      obtain ⟨b, v⟩ := r'
      have hv (hs : k :: T <:+ v) : (k, T) ∈ (b, v) :: O ∨ k :: T <:+ path :=
        .inr (hs.trans h.1)
      rcases List.mem_cons.mp hr with rfl | hr
      · exact hv hT
      · rcases ih h.2 hr with hmem | hs
        · exact .inl (List.mem_cons_of_mem _ hmem)
        · rcases List.suffix_cons_iff.mp hs with heq | hs
          · obtain ⟨rfl, rfl⟩ := List.cons.inj heq
            exact .inl List.mem_cons_self
          · exact hv hs

/-- The depth of a node is less than the number of nodes. -/
theorem IsOutline.length_lt {path : List κ} {O : List (κ × List κ)} (h : IsOutline path O)
    {r : κ × List κ} (hr : r ∈ O) : r.2.length < path.length + O.length := by
  induction O generalizing path with
  | nil => cases hr
  | cons r' O ih =>
      obtain ⟨b, v⟩ := r'
      have hle := h.1.length_le
      rw [List.length_cons]
      rcases List.mem_cons.mp hr with rfl | hr
      · exact Nat.lt_of_le_of_lt hle (by omega)
      · have hlt := ih h.2 hr
        rw [List.length_cons] at hlt
        omega

/-- An ancestor of a row is a row, with the ancestors behind it. -/
theorem IsOutline.mem_of_suffix' {O : List (κ × List κ)} (h : IsOutline [] O) {r : κ × List κ}
    (hr : r ∈ O) {k : κ} {T : List κ} (hT : k :: T <:+ r.2) : (k, T) ∈ O := by
  rcases h.mem_of_suffix hr hT with hmem | hs
  · exact hmem
  · cases List.suffix_nil.mp hs

/-- A node has its ancestors once. -/
theorem eq_of_mem_of_nodup {O : List (κ × List κ)} (hnd : (O.map Prod.fst).Nodup) {a : κ}
    {u v : List κ} (hu : (a, u) ∈ O) (hv : (a, v) ∈ O) : u = v :=
  congrArg Prod.snd (List.inj_on_of_nodup_map hnd hu hv rfl)

/-- A node is met once on the way up, with its own ancestors. -/
theorem IsOutline.eq_of_suffix {O : List (κ × List κ)} (h : IsOutline [] O)
    (hnd : (O.map Prod.fst).Nodup) {a : κ} {up T : List κ} {r : κ × List κ} (ha : (a, up) ∈ O)
    (hr : r ∈ O) (hT : a :: T <:+ r.2) : T = up :=
  eq_of_mem_of_nodup hnd (h.mem_of_suffix' hr hT) ha

/-- An ancestor has the ancestors behind it. -/
theorem exists_suffix_of_mem {a : κ} {u : List κ} (h : a ∈ u) : ∃ T, a :: T <:+ u := by
  obtain ⟨S, T, rfl⟩ := List.append_of_mem h
  exact ⟨T, List.suffix_append _ _⟩

/-- No node is its own ancestor. -/
theorem IsOutline.not_mem_self {O : List (κ × List κ)} (h : IsOutline [] O)
    (hnd : (O.map Prod.fst).Nodup) {a : κ} {up : List κ} (ha : (a, up) ∈ O) : a ∉ up := by
  intro hmem
  obtain ⟨T, hT⟩ := exists_suffix_of_mem hmem
  obtain rfl := h.eq_of_suffix hnd ha ha hT
  have hle := hT.length_le
  rw [List.length_cons] at hle
  omega

/-- An ancestor is a node of the outline, or open before it. -/
theorem IsOutline.mem_ancestors {path : List κ} {O : List (κ × List κ)} (h : IsOutline path O)
    {r : κ × List κ} (hr : r ∈ O) {x : κ} (hx : x ∈ r.2) : x ∈ O.map Prod.fst ∨ x ∈ path := by
  obtain ⟨T, hT⟩ := exists_suffix_of_mem hx
  rcases h.mem_of_suffix hr hT with hmem | hs
  · exact .inl (List.mem_map_of_mem hmem)
  · exact .inr (hs.mem List.mem_cons_self)

namespace SubtreeAt

variable {O A B C : List (κ × List κ)} {a : κ} {up : List κ}

/-- The nodes of the three parts and the subtree are distinct. -/
theorem nodup_keys (h : SubtreeAt O a up A B C) (hnd : (O.map Prod.fst).Nodup) :
    (A.map Prod.fst ++ a :: (B.map Prod.fst ++ C.map Prod.fst)).Nodup := by
  rw [h.eq] at hnd
  simpa using hnd

/-- The nodes with `a` among their ancestors are those of its subtree. -/
theorem mem_ancestors_iff (h : SubtreeAt O a up A B C) (hO : IsOutline [] O)
    (hnd : (O.map Prod.fst).Nodup) {r : κ × List κ} (hr : r ∈ O) : a ∈ r.2 ↔ r ∈ B := by
  constructor
  · intro ha
    have hkeys := h.nodup_keys hnd
    rw [List.nodup_append, List.nodup_cons] at hkeys
    rw [h.eq] at hr
    rcases List.mem_append.mp hr with hr | hr
    · rcases h.front.mem_ancestors hr ha with hmem | hmem
      · exact absurd rfl (hkeys.2.2 a hmem a List.mem_cons_self)
      · cases hmem
    · rcases List.mem_cons.mp hr with rfl | hr
      · exact absurd ha (hO.not_mem_self hnd h.mem)
      · rcases List.mem_append.mp hr with hr | hr
        · exact hr
        · rcases h.behind.mem_ancestors hr ha with hmem | hmem
          · exact absurd (List.mem_append_right _ hmem) hkeys.2.1.1
          · exact absurd hmem (hO.not_mem_self hnd h.mem)
  · exact fun hB => (h.below r hB).mem List.mem_cons_self

/-- The lines of a subtree that hangs elsewhere: only the first has a new parent. -/
theorem flat_hung (h : SubtreeAt O a up A B C) (u : List κ) :
    flat (hung a up B u) = ⟨a, u.head?⟩ :: flat B := by
  have hrow : ∀ r ∈ B, line (rebase (a :: up).length (a :: u) r) = line r := by
    intro r hr
    obtain ⟨b, v⟩ := r
    obtain ⟨S, rfl⟩ : a :: up <:+ v := h.below (b, v) hr
    rw [rebase_append]
    cases S <;> rfl
  rw [hung, flat_cons, flat, List.map_map, flat]
  congr 1
  exact List.map_congr_left hrow

/-- The lines of the nodes below `a` without `a`: its children have a new parent. -/
theorem flat_rebase [DecidableEq κ] (h : SubtreeAt O a up A B C) (hO : IsOutline [] O)
    (hnd : (O.map Prod.fst).Nodup) (u : List κ) :
    flat (B.map (rebase (a :: up).length u)) =
      (flat B).map fun l => if l.parent = some a then { l with parent := u.head? } else l := by
  rw [flat, List.map_map, flat, List.map_map]
  apply List.map_congr_left
  intro r hr
  have hrO : r ∈ O := by
    rw [h.eq]
    exact List.mem_append_right _ (List.mem_cons_of_mem _ (List.mem_append_left _ hr))
  obtain ⟨b, v⟩ := r
  obtain ⟨S, rfl⟩ : a :: up <:+ v := h.below (b, v) hr
  simp only [Function.comp_apply, rebase_append, line]
  cases S with
  | nil => simp
  | cons x S =>
      have hx : x ≠ a := by
        rintro rfl
        have heq := hO.eq_of_suffix hnd h.mem hrO List.suffix_rfl
        have hlen := congrArg List.length heq
        simp at hlen
        omega
      simp [hx]

/-- The lines of the children that took the place of `a`. -/
theorem flat_hoist [DecidableEq κ] (h : SubtreeAt O a up A B C) (hO : IsOutline [] O)
    (hnd : (O.map Prod.fst).Nodup) :
    flat (B.map (rebase (a :: up).length up)) =
      (flat B).map fun l => if l.parent = some a then { l with parent := up.head? } else l :=
  h.flat_rebase hO hnd up

end SubtreeAt

/-- What is open behind an outline is a node of it, or was open before. -/
theorem mem_openPath {path : List κ} {O : List (κ × List κ)} (h : IsOutline path O) {x : κ}
    (hx : x ∈ openPath path O) : x ∈ O.map Prod.fst ∨ x ∈ path := by
  induction O generalizing path with
  | nil => exact .inr hx
  | cons r O ih =>
      obtain ⟨a, up⟩ := r
      rcases ih h.2 hx with hmem | hmem
      · exact .inl (List.mem_cons_of_mem _ hmem)
      · rcases List.mem_cons.mp hmem with rfl | hmem
        · exact .inl List.mem_cons_self
        · exact .inr (h.1.mem hmem)

/-- What is behind a node hangs at it, at a later node, or at one of its ancestors. -/
theorem IsOutline.mem_of_split {path up v : List κ} {d c x : κ} {L M N : List (κ × List κ)}
    (h : IsOutline path (L ++ (d, up) :: (M ++ (c, v) :: N))) (hx : x ∈ v) :
    x ∈ d :: M.map Prod.fst ∨ x ∈ up := by
  obtain ⟨hM, hv, -⟩ := isOutline_append.mp (isOutline_append.mp h).2.2
  rcases mem_openPath hM (hv.mem hx) with hmem | hmem
  · exact .inl (List.mem_cons_of_mem _ hmem)
  · rcases List.mem_cons.mp hmem with rfl | hmem
    · exact .inl List.mem_cons_self
    · exact .inr hmem

/-- Siblings have the same ancestors. -/
theorem IsOutline.eq_of_head? {O : List (κ × List κ)} (h : IsOutline [] O)
    (hnd : (O.map Prod.fst).Nodup) {x y : κ × List κ} (hx : x ∈ O) (hy : y ∈ O)
    (hhead : x.2.head? = y.2.head?) : x.2 = y.2 := by
  obtain ⟨a, u⟩ := x
  obtain ⟨b, v⟩ := y
  cases u with
  | nil => exact (List.head?_eq_none_iff.mp hhead.symm).symm
  | cons p u =>
      cases v with
      | nil => cases hhead
      | cons q v =>
          obtain rfl : p = q := Option.some.inj hhead
          have hp := h.mem_of_suffix' hx (k := p) (T := u) List.suffix_rfl
          have hq := h.mem_of_suffix' hy (k := p) (T := v) List.suffix_rfl
          exact congrArg (p :: ·) (eq_of_mem_of_nodup hnd hp hq)

/-- A node that does not hang at the node in front of it. -/
theorem suffix_of_head?_ne {x : κ} {u v : List κ} (h : v <:+ x :: u) (hx : v.head? ≠ some x) :
    v <:+ u := by
  rcases List.suffix_cons_iff.mp h with rfl | h
  · exact absurd rfl hx
  · exact h

/-- A split of the lines is one of the rows. -/
theorem flat_eq_append {O : List (κ × List κ)} {X Y : List (Line κ)} (h : flat O = X ++ Y) :
    ∃ A B, O = A ++ B ∧ flat A = X ∧ flat B = Y := List.map_eq_append_iff.mp h

/-- The first line is that of the first row. -/
theorem flat_eq_cons {O : List (κ × List κ)} {x : Line κ} {Y : List (Line κ)}
    (h : flat O = x :: Y) : ∃ u B, O = (x.key, u) :: B ∧ u.head? = x.parent ∧ flat B = Y := by
  obtain ⟨r, B, rfl, rfl, rfl⟩ := List.map_eq_cons_iff.mp h
  exact ⟨r.2, B, rfl, rfl, rfl⟩

/-- The first line is that of the first row, if there is one. -/
theorem head?_flat (O : List (κ × List κ)) : (flat O).head? = O.head?.map line := List.head?_map

/-- A pointer leads to a line of the list. -/
theorem PreOrder.parent_mem {lines : List (Line κ)} (h : PreOrder lines) {l : Line κ}
    (hl : l ∈ lines) {p : κ} (hp : l.parent = some p) : p ∈ lines.map Line.key := by
  obtain ⟨O, hO, -, rfl⟩ := preOrder_iff.mp h
  obtain ⟨r, hr, rfl⟩ := List.mem_map.mp hl
  rw [map_key_flat]
  rcases hO.mem_ancestors hr (List.mem_of_mem_head? hp) with hmem | hmem
  · exact hmem
  · cases hmem

/-- A parent comes first. -/
theorem PreOrder.parent_front {X Z : List (Line κ)} {l : Line κ} (h : PreOrder (X ++ l :: Z)) {p : κ}
    (hp : l.parent = some p) : p ∈ X.map Line.key := by
  obtain ⟨O, hO, -, hflat⟩ := preOrder_iff.mp h
  obtain ⟨A, D, rfl, hA, hD⟩ := flat_eq_append hflat.symm
  obtain ⟨up, D, rfl, hup, -⟩ := flat_eq_cons hD
  obtain ⟨hoA, hhang, -⟩ := isOutline_append.mp hO
  rw [← hA, map_key_flat]
  rcases mem_openPath hoA (hhang.mem (List.mem_of_mem_head? (hup.trans hp))) with hmem | hmem
  · exact hmem
  · cases hmem

/-- What is behind a root hangs at it, or at a later line. -/
theorem PreOrder.mem_of_split {X M N : List (Line κ)} {t c : Line κ}
    (h : PreOrder (X ++ t :: (M ++ c :: N))) (ht : t.parent = none) {p : κ}
    (hc : c.parent = some p) : p ∈ (t :: M).map Line.key := by
  obtain ⟨O, hO, -, hflat⟩ := preOrder_iff.mp h
  obtain ⟨L, D, rfl, -, hD⟩ := flat_eq_append hflat.symm
  obtain ⟨up, D, rfl, hup, hD⟩ := flat_eq_cons hD
  obtain ⟨M', D, rfl, hM, hD⟩ := flat_eq_append hD
  obtain ⟨v, N', rfl, hv, -⟩ := flat_eq_cons hD
  obtain rfl : up = [] := List.head?_eq_none_iff.mp (hup.trans ht)
  rcases hO.mem_of_split (List.mem_of_mem_head? (hv.trans hc)) with hmem | hmem
  · rw [List.map_cons, ← hM, map_key_flat]
    exact hmem
  · cases hmem

/-! ### Single lines that change places -/

/-- A new root between two lines. -/
theorem preOrder_insert_iff {k : κ} {X Z : List (Line κ)} (h : PreOrder (X ++ Z))
    (hk : k ∉ (X ++ Z).map Line.key) :
    PreOrder (X ++ ⟨k, none⟩ :: Z) ↔ ∀ z ∈ Z.head?, z.parent = none := by
  obtain ⟨O, hO, hnd, hflat⟩ := preOrder_iff.mp h
  obtain ⟨A, C, rfl, rfl, rfl⟩ := flat_eq_append hflat.symm
  constructor
  · intro hnew z hz
    obtain ⟨O', hO', -, hflat'⟩ := preOrder_iff.mp hnew
    obtain ⟨A', D, rfl, -, hD⟩ := flat_eq_append hflat'.symm
    obtain ⟨u, C', rfl, hu, hC'⟩ := flat_eq_cons hD
    obtain rfl : u = [] := List.head?_eq_none_iff.mp hu
    have hzC : z ∈ flat A ++ flat C := List.mem_append_right _ (List.mem_of_mem_head? hz)
    rw [← hC', head?_flat, Option.mem_def, Option.map_eq_some_iff] at hz
    obtain ⟨r, hr, rfl⟩ := hz
    have hroot : r.2 <:+ [] := by
      apply suffix_of_head?_ne ((isOutline_append.mp hO').2.2.head r hr)
      exact fun heq => hk (h.parent_mem hzC heq)
    rw [line, List.suffix_nil.mp hroot]
    rfl
  · intro hroot
    refine preOrder_iff.mpr ⟨A ++ (k, []) :: C, ?_, ?_, by simp [line]⟩
    · refine isOutline_append.mpr ⟨(isOutline_append.mp hO).1, List.nil_suffix, ?_⟩
      apply (isOutline_append.mp hO).2.of_head
      intro r hr
      have hnone : r.2.head? = none := hroot (line r) (by rw [head?_flat, hr]; rfl)
      rw [List.head?_eq_none_iff.mp hnone]
      exact List.nil_suffix
    · rw [← flat_append, map_key_flat] at hk
      rw [List.map_append, List.map_cons, List.nodup_middle, ← List.map_append]
      exact List.nodup_cons.mpr ⟨hk, hnd⟩

/-- The first line goes to the end. -/
theorem preOrder_rotate_iff {x : Line κ} {X : List (Line κ)} (h : PreOrder (x :: X)) :
    PreOrder (X ++ [x]) ↔ ∀ y ∈ X.head?, y.parent ≠ some x.key := by
  obtain ⟨O, hO, hnd, hflat⟩ := preOrder_iff.mp h
  obtain ⟨u, B, rfl, hu, rfl⟩ := flat_eq_cons hflat.symm
  obtain rfl : u = [] := List.suffix_nil.mp hO.1
  constructor
  · intro hnew y hy
    obtain ⟨O', hO', -, hflat'⟩ := preOrder_iff.mp hnew
    obtain ⟨B', D, rfl, hB', -⟩ := flat_eq_append hflat'.symm
    rw [← hB', head?_flat, Option.mem_def, Option.map_eq_some_iff] at hy
    obtain ⟨r, hr, rfl⟩ := hy
    have hroot := List.suffix_nil.mp ((isOutline_append.mp hO').1.head r hr)
    rw [line, hroot]
    exact (Option.some_ne_none _).symm
  · intro hleaf
    refine preOrder_iff.mpr ⟨B ++ [(x.key, [])], ?_, ?_, ?_⟩
    · refine isOutline_append.mpr ⟨hO.2.of_head fun r hr => ?_, List.nil_suffix, trivial⟩
      apply suffix_of_head?_ne (hO.2.head r hr)
      exact hleaf (line r) (by rw [head?_flat, hr]; rfl)
    · rw [List.map_append, List.nodup_append_comm]
      exact hnd
    · rw [flat_append, flat_cons, flat_nil, line, hu]

/-- The last line goes to the front. -/
theorem preOrder_rotate_back_iff {x : Line κ} {X : List (Line κ)} (h : PreOrder (X ++ [x])) :
    PreOrder (x :: X) ↔ x.parent = none := by
  obtain ⟨O, hO, hnd, hflat⟩ := preOrder_iff.mp h
  obtain ⟨B, D, rfl, rfl, hD⟩ := flat_eq_append hflat.symm
  obtain ⟨u, D, rfl, hu, hD⟩ := flat_eq_cons hD
  obtain rfl : D = [] := List.map_eq_nil_iff.mp hD
  constructor
  · intro hnew
    obtain ⟨O', hO', -, hflat'⟩ := preOrder_iff.mp hnew
    obtain ⟨u', B', rfl, hu', -⟩ := flat_eq_cons hflat'.symm
    rw [← hu', List.suffix_nil.mp hO'.1]
    rfl
  · intro hroot
    obtain rfl : u = [] := List.head?_eq_none_iff.mp (hu.trans hroot)
    refine preOrder_iff.mpr ⟨(x.key, []) :: B, ?_, ?_, ?_⟩
    · exact ⟨List.suffix_rfl, (isOutline_append.mp hO).1.mono List.nil_suffix⟩
    · rw [List.map_append, List.nodup_append_comm] at hnd
      exact hnd
    · rw [flat_cons, line, hu]

/-! ### Ancestors -/

variable [DecidableEq κ]

/-- The pointer of the line with this key. -/
def parentOf (lines : List (Line κ)) (k : κ) : Option (Option κ) :=
  (lines.find? fun l => l.key = k).map Line.parent

/-- Follow the pointers, at most `n` of them. There is no result when they lead out of the list, or
do not end. -/
def ancestors (lines : List (Line κ)) : ℕ → Option κ → Option (List κ)
  | _, none => some []
  | 0, some _ => none
  | n + 1, some k => do
      let parent ← parentOf lines k
      let up ← ancestors lines n parent
      some (k :: up)

/-- A line is found by its key. -/
theorem find?_of_mem {lines : List (Line κ)} (hnd : (lines.map Line.key).Nodup) {l : Line κ}
    (h : l ∈ lines) : (lines.find? fun l' => l'.key = l.key) = some l := by
  induction lines with
  | nil => cases h
  | cons l' lines ih =>
      rw [List.map_cons, List.nodup_cons] at hnd
      rcases List.mem_cons.mp h with rfl | h
      · exact List.find?_cons_of_pos (by simp)
      · have hne : l'.key ≠ l.key := fun heq => hnd.1 (heq ▸ List.mem_map_of_mem h)
        rw [List.find?_cons_of_neg (by simpa using hne)]
        exact ih hnd.2 h

/-- The parent that is looked up is the one of the line. -/
theorem parentOf_of_mem {lines : List (Line κ)} (hnd : (lines.map Line.key).Nodup) {l : Line κ}
    (h : l ∈ lines) : parentOf lines l.key = some l.parent := by
  rw [parentOf, find?_of_mem hnd h, Option.map_some]

/-- The parent does not depend on the order of the lines. -/
theorem parentOf_perm {lines lines' : List (Line κ)} (hnd : (lines.map Line.key).Nodup)
    (h : lines.Perm lines') (k : κ) : parentOf lines k = parentOf lines' k := by
  have hnd' := (h.map Line.key).nodup_iff.mp hnd
  cases hk : lines.find? fun l => l.key = k with
  | some l =>
      obtain rfl : l.key = k := by simpa using List.find?_some hk
      have hl := List.mem_of_find?_eq_some hk
      rw [parentOf_of_mem hnd hl, parentOf_of_mem hnd' (h.mem_iff.mp hl)]
  | none =>
      have hk' : (lines'.find? fun l => l.key = k) = none := by
        rw [List.find?_eq_none] at hk ⊢
        exact fun l hl => hk l (h.mem_iff.mpr hl)
      rw [parentOf, hk, parentOf, hk']

theorem ancestors_perm {lines lines' : List (Line κ)} (hnd : (lines.map Line.key).Nodup)
    (h : lines.Perm lines') (n : ℕ) (p : Option κ) :
    ancestors lines n p = ancestors lines' n p := by
  induction n generalizing p with
  | zero => cases p <;> rfl
  | succ n ih =>
      cases p with
      | none => rfl
      | some k =>
          rw [ancestors, ancestors, parentOf_perm hnd h]
          simp only [ih]

/-- The parent of an ancestor is the ancestor behind it. -/
theorem IsOutline.parentOf_of_suffix {O : List (κ × List κ)} (h : IsOutline [] O)
    (hnd : (O.map Prod.fst).Nodup) {r : κ × List κ} (hr : r ∈ O) {k : κ} {T : List κ}
    (hT : k :: T <:+ r.2) : parentOf (flat O) k = some T.head? := by
  have hmem := h.mem_of_suffix' hr hT
  exact parentOf_of_mem (l := line (k, T)) (nodup_key_flat hnd) (List.mem_map_of_mem hmem)

/-- The pointers from a node of an outline lead to its ancestors. -/
theorem ancestors_flat {O : List (κ × List κ)} (h : IsOutline [] O)
    (hnd : (O.map Prod.fst).Nodup) {r : κ × List κ} (hr : r ∈ O) :
    ancestors (flat O) O.length r.2.head? = some r.2 := by
  have hgen : ∀ (n : ℕ) (u : List κ), u <:+ r.2 → u.length ≤ n →
      ancestors (flat O) n u.head? = some u := by
    intro n u
    induction u generalizing n with
    | nil => intro _ _; cases n <;> rfl
    | cons k T ih =>
        intro hT hn
        obtain ⟨n, rfl⟩ : ∃ m, n = m + 1 := ⟨n - 1, by rw [List.length_cons] at hn; omega⟩
        have hparent := h.parentOf_of_suffix hnd hr hT
        have hrest := ih n ((List.suffix_cons k T).trans hT) (by simpa using hn)
        simp [ancestors, hparent, hrest]
  exact hgen _ _ List.suffix_rfl (by simpa using (h.length_lt hr).le)

/-- The order of the lines does not change the ancestors of a node. -/
theorem eq_of_flat_perm {O O' : List (κ × List κ)} (h : IsOutline [] O) (h' : IsOutline [] O')
    (hnd : (O.map Prod.fst).Nodup) (hperm : (flat O).Perm (flat O')) {a : κ} {u v : List κ}
    (hu : (a, u) ∈ O) (hv : (a, v) ∈ O') : u = v := by
  have hnd' : (O'.map Prod.fst).Nodup := by
    rw [← map_key_flat] at hnd ⊢
    exact (hperm.map Line.key).nodup_iff.mp hnd
  have hlen : O.length = O'.length := by simpa using hperm.length_eq
  have hline : line (a, u) ∈ flat O' := hperm.mem_iff.mp (List.mem_map_of_mem hu)
  have hhead : u.head? = v.head? := by
    have h₁ := parentOf_of_mem (nodup_key_flat hnd') hline
    have h₂ := parentOf_of_mem (nodup_key_flat hnd') (List.mem_map_of_mem (f := line) hv)
    exact Option.some.inj (h₁.symm.trans h₂)
  have hanc := ancestors_flat h hnd hu
  rw [ancestors_perm (nodup_key_flat hnd) hperm, hlen, hhead, ancestors_flat h' hnd' hv] at hanc
  exact (Option.some.inj hanc).symm

/-- Two neighbours change places. -/
theorem preOrder_swap_iff {x y : Line κ} {X Z : List (Line κ)} (h : PreOrder (X ++ x :: y :: Z)) :
    PreOrder (X ++ y :: x :: Z) ↔
      x.parent = y.parent ∧ ∀ z ∈ Z.head?, z.parent ≠ some y.key := by
  obtain ⟨O, hO, hnd, hflat⟩ := preOrder_iff.mp h
  obtain ⟨A, D, rfl, rfl, hD⟩ := flat_eq_append hflat.symm
  obtain ⟨u, D, rfl, hu, hD⟩ := flat_eq_cons hD
  obtain ⟨v, C, rfl, hv, rfl⟩ := flat_eq_cons hD
  have hx : (x.key, u) ∈ A ++ (x.key, u) :: (y.key, v) :: C := by simp
  have hy : (y.key, v) ∈ A ++ (x.key, u) :: (y.key, v) :: C := by simp
  obtain ⟨hA, hux, hvy, hC⟩ := isOutline_append.mp hO
  have hkeys : (A.map Prod.fst ++ x.key :: y.key :: C.map Prod.fst).Nodup := by simpa using hnd
  have hdisj := (List.nodup_append.mp hkeys).2.2
  have hne : x.key ≠ y.key := by
    have := (List.nodup_cons.mp (List.nodup_append.mp hkeys).2.1).1
    simp only [List.mem_cons, not_or] at this
    exact this.1
  have hyu : y.key ∉ u := by
    intro hmem
    rcases mem_openPath hA (hux.mem hmem) with hmem | hmem
    · exact hdisj _ hmem _ (by simp) rfl
    · cases hmem
  constructor
  · intro hnew
    obtain ⟨O', hO', hnd', hflat'⟩ := preOrder_iff.mp hnew
    have hperm : (flat (A ++ (x.key, u) :: (y.key, v) :: C)).Perm (flat O') := by
      rw [← hflat, ← hflat']
      exact (List.Perm.swap y x _).append_left _
    obtain ⟨A', D, rfl, -, hD⟩ := flat_eq_append hflat'.symm
    obtain ⟨v', D, rfl, -, hD⟩ := flat_eq_cons hD
    obtain ⟨u', C', rfl, -, hC'⟩ := flat_eq_cons hD
    obtain rfl : u = u' := eq_of_flat_perm hO hO' hnd hperm hx (by simp)
    obtain rfl : v = v' := eq_of_flat_perm hO hO' hnd hperm hy (by simp)
    obtain ⟨hA', hvA, huy, hCx⟩ := isOutline_append.mp hO'
    -- Each comes first once, so neither hangs at the other: both hang at one path.
    have hxv : x.key ∉ v := by
      intro hmem
      rcases mem_openPath hA' (hvA.mem hmem) with hmem | hmem
      · have hkeys' : (A'.map Prod.fst ++ y.key :: x.key :: C'.map Prod.fst).Nodup := by
          simpa using hnd'
        exact (List.nodup_append.mp hkeys').2.2 _ hmem _ (by simp) rfl
      · cases hmem
    have hvu : v <:+ u := suffix_of_head?_ne hvy fun heq => hxv (List.mem_of_mem_head? heq)
    have huv : u <:+ v := suffix_of_head?_ne huy fun heq => hyu (List.mem_of_mem_head? heq)
    obtain rfl : u = v := huv.eq_of_length_le hvu.length_le
    refine ⟨hu.symm.trans hv, fun z hz heq => ?_⟩
    rw [← hC', head?_flat, Option.mem_def, Option.map_eq_some_iff] at hz
    obtain ⟨r, hr, rfl⟩ := hz
    have hmem := (hCx.head r hr).mem (List.mem_of_mem_head? heq)
    rcases List.mem_cons.mp hmem with heq | hmem
    · exact hne heq.symm
    · exact hyu hmem
  · rintro ⟨hparent, hleaf⟩
    have hvu : v <:+ u := by
      apply suffix_of_head?_ne hvy
      intro heq
      rw [hv, ← hparent, ← hu] at heq
      exact hO.not_mem_self hnd hx (List.mem_of_mem_head? heq)
    obtain rfl : u = v := by
      cases u with
      | nil => exact (List.suffix_nil.mp hvu).symm
      | cons p u =>
          obtain ⟨v, rfl⟩ : ∃ v', v = p :: v' := List.head?_eq_some_iff.mp
            (hv.trans (hparent.symm.trans hu.symm))
          rw [hO.eq_of_suffix hnd (hO.mem_of_suffix' hy List.suffix_rfl) hx List.suffix_rfl]
    refine preOrder_iff.mpr ⟨A ++ (y.key, u) :: (x.key, u) :: C, ?_, ?_, ?_⟩
    · refine isOutline_append.mpr ⟨hA, hux, List.suffix_cons _ _, hC.of_head fun r hr => ?_⟩
      apply (suffix_of_head?_ne (hC.head r hr) _).trans (List.suffix_cons _ _)
      exact hleaf (line r) (by rw [head?_flat, hr]; rfl)
    · have hperm : (A.map Prod.fst ++ y.key :: x.key :: C.map Prod.fst).Perm
          (A.map Prod.fst ++ x.key :: y.key :: C.map Prod.fst) :=
        (List.Perm.swap _ _ _).append_left _
      simpa using hperm.nodup_iff.mpr hkeys
    · have hlinex : line (x.key, u) = x := by rw [line, hu]
      have hliney : line (y.key, u) = y := by rw [line, hv]
      rw [flat_append, flat_cons, flat_cons, hlinex, hliney]

end Forest

end Axan.Base
