import Axan.Base.Forest

/-!
# Outlines: a forest as a list of lines

A forest is often kept as a flat list of lines, each with a pointer to its parent, in pre-order.

* `IsOutline path O` — `O` lists nodes with their ancestors, nearest first, and every node hangs at
  a node of the path that is open in front of it.
* `exists_outline` — these are the lists `Forest.outline` writes.
* `IsOutline.subtree` — the nodes below a node are the longest run of deeper nodes behind it.
* `rebase` — hang a run of nodes at another path; `IsOutline.rebase`, `IsOutline.cut` and
  `IsOutline.paste` say when the list is still an outline.
* `Line`, `flat` — the lines. `ancestors` follows the pointers, and finds the ancestors of every
  node of an outline (`ancestors_flat`).
-/

namespace Axan.Base

namespace Forest

variable {κ : Type}

/-! ### Outlines -/

/-- Every node hangs at a node of the open path: the node in front of it and its ancestors. -/
def IsOutline : List κ → List (κ × List κ) → Prop
  | _, [] => True
  | path, (a, up) :: O => up <:+ path ∧ IsOutline (a :: up) O

/-- The path that is open behind the nodes. -/
def openPath : List κ → List (κ × List κ) → List κ
  | path, [] => path
  | _, (a, up) :: O => openPath (a :: up) O

/-- The empty list is an outline. -/
@[simp] theorem isOutline_nil (path : List κ) : IsOutline path [] := trivial

/-- The ancestors of the first node are open, and the rest follows it. -/
theorem isOutline_cons {path up : List κ} {a : κ} {O : List (κ × List κ)} :
    IsOutline path ((a, up) :: O) ↔ up <:+ path ∧ IsOutline (a :: up) O := Iff.rfl

@[simp] theorem openPath_nil (path : List κ) : openPath path [] = path := rfl

@[simp] theorem openPath_cons (path up : List κ) (a : κ) (O : List (κ × List κ)) :
    openPath path ((a, up) :: O) = openPath (a :: up) O := rfl

/-- What is open behind two parts, one after the other. -/
theorem openPath_append (path : List κ) (A B : List (κ × List κ)) :
    openPath path (A ++ B) = openPath (openPath path A) B := by
  induction A generalizing path with
  | nil => rfl
  | cons r A ih => exact ih _

/-- The second part goes on where the first one ends. -/
theorem isOutline_append {path : List κ} {A B : List (κ × List κ)} :
    IsOutline path (A ++ B) ↔ IsOutline path A ∧ IsOutline (openPath path A) B := by
  induction A generalizing path with
  | nil => exact (and_iff_right trivial).symm
  | cons r A ih =>
      obtain ⟨a, up⟩ := r
      rw [List.cons_append, isOutline_cons, ih, isOutline_cons, and_assoc, openPath_cons]

/-- Only the first node sees the path in front of the list. -/
theorem IsOutline.of_head {path path' : List κ} {O : List (κ × List κ)} (h : IsOutline path O)
    (hhead : ∀ r ∈ O.head?, r.2 <:+ path') : IsOutline path' O := by
  cases O with
  | nil => exact trivial
  | cons r O => exact ⟨hhead r rfl, h.2⟩

/-- The ancestors of the first node are open. -/
theorem IsOutline.head {path : List κ} {O : List (κ × List κ)} (h : IsOutline path O) :
    ∀ r ∈ O.head?, r.2 <:+ path := by
  intro r hr
  cases O with
  | nil => cases hr
  | cons r' O =>
      obtain rfl : r' = r := Option.some.inj hr
      exact h.1

/-- More open nodes do not hurt. -/
theorem IsOutline.mono {path path' : List κ} {O : List (κ × List κ)} (h : IsOutline path O)
    (hpath : path <:+ path') : IsOutline path' O :=
  h.of_head fun r hr => (h.head r hr).trans hpath

/-- The nodes of a list that all hang below `u` leave `u` open. -/
theorem suffix_openPath {u path : List κ} {O : List (κ × List κ)} (hpath : u <:+ path)
    (hO : ∀ r ∈ O, u <:+ r.2) : u <:+ openPath path O := by
  induction O generalizing path with
  | nil => exact hpath
  | cons r O ih =>
      obtain ⟨a, up⟩ := r
      apply ih
      · exact (hO (a, up) List.mem_cons_self).trans (List.suffix_cons a up)
      · exact fun r hr => hO r (List.mem_cons_of_mem _ hr)

/-! ### Subtrees -/

/-- The nodes below `a` are the run of deeper nodes behind it; what follows them hangs at a node of
`up`. -/
theorem IsOutline.exists_subtree {a : κ} {up path : List κ} {O : List (κ × List κ)}
    (h : IsOutline path O) (hpath : a :: up <:+ path) :
    ∃ B C, O = B ++ C ∧ (∀ r ∈ B, a :: up <:+ r.2) ∧ IsOutline path B ∧ IsOutline up C := by
  induction O generalizing path with
  | nil => exact ⟨[], [], rfl, by simp, trivial, trivial⟩
  | cons r O ih =>
      obtain ⟨b, v⟩ := r
      by_cases hlen : v.length ≤ up.length
      · have hv : v <:+ up :=
          List.suffix_of_suffix_length_le h.1 ((List.suffix_cons a up).trans hpath) hlen
        exact ⟨[], (b, v) :: O, rfl, by simp, trivial, hv, h.2⟩
      · have hv : a :: up <:+ v :=
          List.suffix_of_suffix_length_le hpath h.1 (by simpa using Nat.lt_of_not_le hlen)
        obtain ⟨B, C, rfl, hB, hoB, hoC⟩ := ih h.2 (hv.trans (List.suffix_cons b v))
        refine ⟨(b, v) :: B, C, rfl, ?_, ⟨h.1, hoB⟩, hoC⟩
        intro r hr
        rcases List.mem_cons.mp hr with rfl | hr
        · exact hv
        · exact hB r hr

/-- The subtree of `a` in an outline: the nodes in front of it, below it and behind it. -/
structure SubtreeAt (O : List (κ × List κ)) (a : κ) (up : List κ) (A B C : List (κ × List κ)) :
    Prop where
  eq : O = A ++ (a, up) :: (B ++ C)
  front : IsOutline [] A
  hangs : up <:+ openPath [] A
  below : ∀ r ∈ B, a :: up <:+ r.2
  inner : IsOutline (a :: up) B
  behind : IsOutline up C

/-- Every node has its subtree behind it. -/
theorem IsOutline.subtreeAt_of_split {A D : List (κ × List κ)} {a : κ} {up : List κ}
    (h : IsOutline [] (A ++ (a, up) :: D)) :
    ∃ B C, SubtreeAt (A ++ (a, up) :: D) a up A B C := by
  obtain ⟨hA, hup, hD⟩ := isOutline_append.mp h
  obtain ⟨B, C, rfl, hB, hoB, hoC⟩ := hD.exists_subtree List.suffix_rfl
  exact ⟨B, C, rfl, hA, hup, hB, hoB, hoC⟩

/-- Every node of an outline has its subtree in it. -/
theorem IsOutline.exists_subtreeAt {O : List (κ × List κ)} (h : IsOutline [] O) {a : κ}
    {up : List κ} (ha : (a, up) ∈ O) : ∃ A B C, SubtreeAt O a up A B C := by
  obtain ⟨A, D, rfl⟩ := List.append_of_mem ha
  exact ⟨A, h.subtreeAt_of_split⟩

namespace SubtreeAt

variable {O A B C : List (κ × List κ)} {a : κ} {up : List κ}

/-- The node is in the outline. -/
theorem mem (h : SubtreeAt O a up A B C) : (a, up) ∈ O := by
  rw [h.eq]
  exact List.mem_append_right _ List.mem_cons_self

/-- Every node of the subtree leaves `up` open. -/
theorem suffix_openPath (h : SubtreeAt O a up A B C) :
    a :: up <:+ openPath [] (A ++ (a, up) :: B) := by
  rw [openPath_append, openPath_cons]
  exact Forest.suffix_openPath List.suffix_rfl h.below

/-- The places of the nodes below `a`. -/
theorem mem_below_iff (h : SubtreeAt O a up A B C) (hnd : O.Nodup) {j : ℕ} {r : κ × List κ}
    (hr : O[j]? = some r) : r ∈ B ↔ A.length < j ∧ j < A.length + 1 + B.length := by
  have hget (k : ℕ) (hk : k < B.length) : O[A.length + 1 + k]? = B[k]? := by
    rw [h.eq, Nat.add_assoc, List.getElem?_append_right (Nat.le_add_right _ _),
      Nat.add_sub_cancel_left, Nat.add_comm, List.getElem?_cons_succ, List.getElem?_append_left hk]
  constructor
  · intro hB
    obtain ⟨k, hk, hrk⟩ := List.mem_iff_getElem.mp hB
    have hj : j < O.length := (List.getElem?_eq_some_iff.mp hr).1
    obtain rfl : j = A.length + 1 + k := by
      apply (List.getElem?_inj hj hnd).mp
      rw [hr, hget k hk, List.getElem?_eq_getElem hk, hrk]
    omega
  · rintro ⟨hlt, hend⟩
    obtain ⟨k, rfl⟩ := Nat.exists_eq_add_of_le (show A.length + 1 ≤ j from hlt)
    rw [hget k (by omega)] at hr
    exact List.mem_of_getElem? hr

/-- Without the subtree. -/
theorem isOutline_rest (h : SubtreeAt O a up A B C) : IsOutline [] (A ++ C) :=
  isOutline_append.mpr ⟨h.front, h.behind.mono h.hangs⟩

end SubtreeAt

/-! ### Forests -/

/-- Everything in an outline hangs below the path it was written at. -/
theorem suffix_of_mem_outline {up : List κ} {F : Forest κ} {r : κ × List κ}
    (h : r ∈ outline up F) : up <:+ r.2 := by
  induction F generalizing up with
  | nil => cases h
  | node a c s ihc ihs =>
      rcases List.mem_cons.mp h with rfl | h
      · exact List.suffix_rfl
      · rcases List.mem_append.mp h with h | h
        · exact (List.suffix_cons a up).trans (ihc h)
        · exact ihs h

/-- The outline of a forest is one. -/
theorem isOutline_outline {up path : List κ} (h : up <:+ path) (F : Forest κ) :
    IsOutline path (outline up F) := by
  induction F generalizing up path with
  | nil => exact trivial
  | node a c s ihc ihs =>
      refine ⟨h, isOutline_append.mpr ⟨ihc List.suffix_rfl, ihs ?_⟩⟩
      exact suffix_openPath (List.suffix_cons a up) fun r hr =>
        (List.suffix_cons a up).trans (suffix_of_mem_outline hr)

/-- Rows that are all below one node are the outline of a forest there. -/
theorem exists_outline_below {up : List κ} {O : List (κ × List κ)} (h : IsOutline up O)
    (hup : ∀ r ∈ O, up <:+ r.2) : ∃ F : Forest κ, O = outline up F := by
  -- The children of the first node are the nodes below it, its siblings the rest: both are shorter.
  induction hn : O.length using Nat.strong_induction_on generalizing up O with
  | _ n ih =>
      cases O with
      | nil => exact ⟨nil, rfl⟩
      | cons r O =>
          obtain ⟨a, v⟩ := r
          obtain rfl : v = up := h.1.eq_of_length_le (hup (a, v) List.mem_cons_self).length_le
          obtain ⟨B, C, rfl, hB, hoB, hoC⟩ := IsOutline.exists_subtree h.2 List.suffix_rfl
          rw [List.length_cons, List.length_append] at hn
          obtain ⟨c, rfl⟩ := ih B.length (by omega) hoB hB rfl
          obtain ⟨s, rfl⟩ := ih C.length (by omega) hoC
            (fun r hr => hup r (List.mem_cons_of_mem _ (List.mem_append_right _ hr))) rfl
          exact ⟨node a c s, rfl⟩

/-- The outlines are the lists that `outline` writes. -/
theorem exists_outline {O : List (κ × List κ)} :
    (∃ F : Forest κ, O = outline [] F) ↔ IsOutline [] O := by
  constructor
  · rintro ⟨F, rfl⟩
    exact isOutline_outline List.suffix_rfl F
  · exact fun h => exists_outline_below h fun r _ => List.nil_suffix

/-! ### Moving a run of nodes -/

/-- Hang a node at `u`; its ancestors from depth `n` on stay. -/
def rebase (n : ℕ) (u : List κ) (r : κ × List κ) : κ × List κ :=
  (r.1, r.2.take (r.2.length - n) ++ u)

/-- The ancestors above the subtree are replaced. -/
theorem rebase_append (a : κ) (S u u' : List κ) :
    rebase u.length u' (a, S ++ u) = (a, S ++ u') := by
  simp [rebase]

/-- The nodes stay the same elsewhere. -/
theorem map_fst_rebase (n : ℕ) (u : List κ) (B : List (κ × List κ)) :
    (B.map (rebase n u)).map Prod.fst = B.map Prod.fst := List.map_map

/-- A run of nodes below `u` may hang below `u'`. -/
theorem IsOutline.rebase {T u : List κ} (u' : List κ) {B : List (κ × List κ)}
    (h : IsOutline (T ++ u) B) (hB : ∀ r ∈ B, u <:+ r.2) :
    IsOutline (T ++ u') (B.map (Forest.rebase u.length u')) := by
  induction B generalizing T with
  | nil => exact trivial
  | cons r B ih =>
      obtain ⟨b, v⟩ := r
      obtain ⟨S, rfl⟩ : u <:+ v := hB (b, v) List.mem_cons_self
      rw [List.map_cons, rebase_append]
      constructor
      · obtain ⟨X, hX⟩ := h.1
        have hT : X ++ S = T := List.append_cancel_right (by rw [List.append_assoc, hX])
        exact ⟨X, by rw [← hT, List.append_assoc]⟩
      · exact ih (T := b :: S) h.2 fun r hr => hB r (List.mem_cons_of_mem _ hr)

theorem suffix_rebase (n : ℕ) (u' : List κ) (r : κ × List κ) : u' <:+ (Forest.rebase n u' r).2 :=
  List.suffix_append _ _

/-- A run below `u` between two parts of an outline. -/
theorem IsOutline.paste {path u : List κ} {A B C : List (κ × List κ)} (hA : IsOutline path A)
    (hu : u <:+ openPath path A) (hB : IsOutline u B) (hsub : ∀ r ∈ B, u <:+ r.2)
    (hC : IsOutline u C) : IsOutline path (A ++ (B ++ C)) := by
  refine isOutline_append.mpr ⟨hA, isOutline_append.mpr ⟨hB.mono hu, hC.mono ?_⟩⟩
  exact suffix_openPath hu hsub

namespace SubtreeAt

variable {O A B C : List (κ × List κ)} {a : κ} {up : List κ}

/-- The subtree of `a`, hung at `u`. -/
def hung (a : κ) (up : List κ) (B : List (κ × List κ)) (u : List κ) : List (κ × List κ) :=
  (a, u) :: B.map (rebase (a :: up).length (a :: u))

/-- The nodes of a subtree that was hung elsewhere. -/
theorem map_fst_hung (a : κ) (up : List κ) (B : List (κ × List κ)) (u : List κ) :
    (hung a up B u).map Prod.fst = a :: B.map Prod.fst := by
  rw [hung, List.map_cons, map_fst_rebase]

/-- All of them are below the new place. -/
theorem suffix_of_mem_hung {u : List κ} {r : κ × List κ} (h : r ∈ hung a up B u) : u <:+ r.2 := by
  rcases List.mem_cons.mp h with rfl | h
  · exact List.suffix_rfl
  · obtain ⟨r', -, rfl⟩ := List.mem_map.mp h
    exact (List.suffix_cons a u).trans (suffix_rebase _ _ _)

/-- A subtree that was hung elsewhere is an outline there. -/
theorem isOutline_hung (h : SubtreeAt O a up A B C) (u : List κ) : IsOutline u (hung a up B u) :=
  ⟨List.suffix_rfl, IsOutline.rebase (T := []) (a :: u) h.inner h.below⟩

/-- The children of `a` take its place. -/
theorem isOutline_hoist (h : SubtreeAt O a up A B C) :
    IsOutline [] (A ++ (B.map (rebase (a :: up).length up) ++ C)) := by
  apply h.front.paste h.hangs
  · exact IsOutline.rebase (T := []) up h.inner h.below
  · intro r hr
    obtain ⟨r', -, rfl⟩ := List.mem_map.mp hr
    exact suffix_rebase _ _ _
  · exact h.behind

/-- The subtree goes to the end, as a tree of its own. -/
theorem isOutline_move_end (h : SubtreeAt O a up A B C) :
    IsOutline [] ((A ++ C) ++ hung a up B []) := by
  have hpaste := h.isOutline_rest.paste List.nil_suffix (h.isOutline_hung [])
    (fun r _ => List.nil_suffix) (isOutline_nil [])
  simpa using hpaste

/-- The subtree goes to a place in front of it where the path `u` is open. -/
theorem isOutline_move_front {u : List κ} {A' : List (κ × List κ)}
    (h : SubtreeAt O a up (A ++ A') B C) (hu : u <:+ openPath [] A)
    (hrest : IsOutline u (A' ++ (a, up) :: (B ++ C))) :
    IsOutline [] (A ++ (hung a up B u ++ (A' ++ C))) := by
  obtain ⟨hA', hup, -⟩ := isOutline_append.mp hrest
  apply (isOutline_append.mp h.front).1.paste hu (h.isOutline_hung u) fun r => suffix_of_mem_hung
  exact isOutline_append.mpr ⟨hA', h.behind.mono hup⟩

/-- The subtree goes to a place behind it where the path `u` is open, which is not in it. -/
theorem isOutline_move_back {u : List κ} {C' : List (κ × List κ)}
    (h : SubtreeAt O a up A B (C ++ C'))
    (hu : u <:+ openPath [] (A ++ (a, up) :: (B ++ C))) (ha : a ∉ u) (hrest : IsOutline u C') :
    IsOutline [] ((A ++ C) ++ (hung a up B u ++ C')) := by
  have hfront : IsOutline [] (A ++ C) :=
    isOutline_append.mpr ⟨h.front, (isOutline_append.mp h.behind).1.mono h.hangs⟩
  refine hfront.paste ?_ (h.isOutline_hung u) (fun r => suffix_of_mem_hung) hrest
  cases C with
  | cons r C =>
      obtain ⟨b, v⟩ := r
      simpa only [openPath_append, openPath_cons] using hu
  | nil =>
      -- The subtree ends here: a path that does not go through `a` leaves it at `up` or above.
      have hopen : a :: up <:+ openPath [] (A ++ (a, up) :: (B ++ [])) := by
        simpa using h.suffix_openPath
      have hup : u <:+ up := by
        by_cases hlen : u.length ≤ up.length
        · exact List.suffix_of_suffix_length_le hu ((List.suffix_cons a up).trans hopen) hlen
        · have hsub := List.suffix_of_suffix_length_le hopen hu
            (by simpa using Nat.lt_of_not_le hlen)
          exact absurd (hsub.mem List.mem_cons_self) ha
      simpa using hup.trans h.hangs

end SubtreeAt

end Forest

end Axan.Base
