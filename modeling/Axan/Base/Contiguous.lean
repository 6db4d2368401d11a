import Axan.Base.ParentsFirst

/-!
# Lines whose subtrees are contiguous

* `Below` — one line is another, or below it: the pointers lead there.
* `Contiguous` — what stands between a line and a line below it is below it too.
* `preOrder_iff_contiguous` — **a list is in pre-order exactly when every line comes behind its
  parent and every subtree is contiguous.**
* `SubtreeAt.eq_of_next_sibling`, `SubtreeAt.isOutline_swap` — siblings follow each other, and may
  change places.
* `SubtreeAt.below_of_mem`, `SubtreeAt.not_below` — what is below a node, and what is not.
-/

namespace Axan.Base.Forest

variable {κ : Type}

/-- The line of `i` hangs at `j`. -/
def HangsAt (lines : List (Line κ)) (i j : κ) : Prop := ∃ l ∈ lines, l.key = i ∧ l.parent = some j

/-- The line of `i` is that of `j`, or below it. -/
def Below (lines : List (Line κ)) : κ → κ → Prop := Relation.ReflTransGen (HangsAt lines)

/-- What stands between a line and a line below it is below it. -/
def Contiguous (lines : List (Line κ)) : Prop :=
  ∀ A g B n C, lines.map Line.key = A ++ g :: (B ++ n :: C) → Below lines n g →
    ∀ q ∈ B, Below lines q g

/-- A descendant stays one when lines are added. -/
theorem Below.mono {lines lines' : List (Line κ)} (hsub : lines ⊆ lines') {i j : κ}
    (h : Below lines i j) : Below lines' i j := by
  induction h with
  | refl => exact Relation.ReflTransGen.refl
  | tail _ hstep ih =>
      obtain ⟨l, hl, hkey⟩ := hstep
      exact ih.tail ⟨l, hsub hl, hkey⟩

/-- What is below a line does not depend on the parent of the line itself. -/
theorem below_congr {lines lines' : List (Line κ)} {a : κ}
    (h : ∀ i j, i ≠ a → (HangsAt lines i j ↔ HangsAt lines' i j)) (b : κ) :
    Below lines b a ↔ Below lines' b a := by
  have hmono : ∀ {L L' : List (Line κ)}, (∀ i j, i ≠ a → HangsAt L i j → HangsAt L' i j) →
      Below L b a → Below L' b a := by
    intro L L' hL hb
    induction hb using Relation.ReflTransGen.head_induction_on with
    | refl => exact Relation.ReflTransGen.refl
    | @head i j hstep _ ih =>
        by_cases hi : i = a
        · rw [hi]
          exact Relation.ReflTransGen.refl
        · exact Relation.ReflTransGen.head (hL i j hi hstep) ih
  exact ⟨hmono fun i j hi => (h i j hi).mp, hmono fun i j hi => (h i j hi).mpr⟩

namespace ParentsFirst

variable {lines : List (Line κ)}

/-- In a prefix the parents come first too. -/
theorem of_append {X Z : List (Line κ)} (h : ParentsFirst (X ++ Z)) : ParentsFirst X := by
  have hnd := h.nodup
  rw [List.map_append] at hnd
  refine of_front (List.nodup_append.mp hnd).1 fun X₁ l X₂ hX p hp => ?_
  exact h.parent_front (Z := X₂ ++ Z) (by rw [hX]; simp) hp

/-- The lines above a line of the front are in the front. -/
theorem below_of_append {X Z : List (Line κ)} (h : ParentsFirst (X ++ Z)) {q g : κ}
    (hq : q ∈ X.map Line.key) (hqg : Below (X ++ Z) q g) : Below X q g := by
  induction hqg using Relation.ReflTransGen.head_induction_on with
  | refl => exact Relation.ReflTransGen.refl
  | head hstep _ ih =>
      obtain ⟨l, hl, rfl, hp⟩ := hstep
      have hlX : l ∈ X := by
        rcases List.mem_append.mp hl with hX | hZ
        · exact hX
        · have hnd := h.nodup
          rw [List.map_append, List.nodup_append] at hnd
          exact absurd rfl (hnd.2.2 _ hq _ (List.mem_map_of_mem hZ))
      have hfront := h.of_append.parent_mem hlX hp
      exact Relation.ReflTransGen.head ⟨l, hlX, rfl, hp⟩ (ih hfront)

end ParentsFirst

/-! ### Outlines -/

/-- In an outline the lines above a node are its ancestors. -/
theorem below_flat_iff {O : List (κ × List κ)} (hO : IsOutline [] O) (hnd : (O.map Prod.fst).Nodup)
    {b a : κ} {up : List κ} (hr : (b, up) ∈ O) : Below (flat O) b a ↔ a = b ∨ a ∈ up := by
  constructor
  · intro h
    induction h using Relation.ReflTransGen.head_induction_on generalizing up with
    | refl => exact Or.inl rfl
    | head hstep _ ih =>
        obtain ⟨l, hl, hkey, hp⟩ := hstep
        obtain ⟨⟨b', v⟩, hv, rfl⟩ := List.mem_map.mp hl
        obtain rfl : b' = _ := hkey
        obtain rfl := eq_of_mem_of_nodup hnd hv hr
        obtain ⟨T, rfl⟩ := List.head?_eq_some_iff.mp hp
        rcases ih (hO.mem_of_suffix' hv List.suffix_rfl) with rfl | hmem
        · exact Or.inr List.mem_cons_self
        · exact Or.inr (List.mem_cons_of_mem _ hmem)
  · rintro (rfl | hmem)
    · exact Relation.ReflTransGen.refl
    · induction up generalizing b with
      | nil => cases hmem
      | cons k T ih =>
          have hstep : HangsAt (flat O) b k := ⟨line (b, k :: T), List.mem_map_of_mem hr, rfl, rfl⟩
          rcases List.mem_cons.mp hmem with rfl | hmem
          · exact Relation.ReflTransGen.single hstep
          · exact Relation.ReflTransGen.head hstep
              (ih (hO.mem_of_suffix' hr List.suffix_rfl) hmem)

/-- In a pre-order every subtree is an interval. -/
theorem PreOrder.contiguous {lines : List (Line κ)} (h : PreOrder lines) : Contiguous lines := by
  obtain ⟨O, hO, hnd, rfl⟩ := preOrder_iff.mp h
  intro A g B n C hsplit hng q hq
  rw [map_key_flat] at hsplit
  obtain ⟨A', D, rfl, -, hD⟩ := List.map_eq_append_iff.mp hsplit
  obtain ⟨⟨g', up⟩, D, rfl, rfl, hD₀⟩ := List.map_eq_cons_iff.mp hD
  obtain ⟨B', D', rfl, rfl, hD'⟩ := List.map_eq_append_iff.mp hD₀
  obtain ⟨⟨n', v⟩, C', rfl, rfl, -⟩ := List.map_eq_cons_iff.mp hD'
  obtain ⟨T, Z, hsub⟩ := hO.subtreeAt_of_split
  have hkeys := hsub.nodup_keys hnd
  have hnmem : (n', v) ∈ A' ++ (g', up) :: (B' ++ (n', v) :: C') := by simp
  have hne : g' ≠ n' := by
    rintro rfl
    rw [List.map_append, List.map_cons, List.nodup_append, List.nodup_cons] at hnd
    exact hnd.2.1.1 (by simp)
  -- the subtree ends behind `n`
  have hnT : (n', v) ∈ T := by
    rw [← hsub.mem_ancestors_iff hO hnd hnmem]
    exact ((below_flat_iff hO hnd hnmem).mp hng).resolve_left hne
  have hBT : ∀ r ∈ B', r ∈ T := by
    have heq : B' ++ (n', v) :: C' = T ++ Z :=
      (List.cons.inj (List.append_cancel_left hsub.eq)).2
    rcases List.append_eq_append_iff.mp heq with ⟨T', rfl, -⟩ | ⟨B'', rfl, hZ⟩
    · exact fun r hr => List.mem_append_left _ hr
    · cases B'' with
      | nil => exact fun r hr => by simpa using hr
      | cons r B'' =>
          exfalso
          have hnZ : (n', v) ∈ Z := by
            rw [hZ]
            simp
          rw [List.nodup_append, List.nodup_cons, List.nodup_append] at hkeys
          exact hkeys.2.1.2.2.2 _ (List.mem_map_of_mem hnT) _ (List.mem_map_of_mem hnZ) rfl
  obtain ⟨r, hr, rfl⟩ := List.mem_map.mp hq
  have hrmem : r ∈ A' ++ (g', up) :: (B' ++ (n', v) :: C') := by simp [hr]
  exact (below_flat_iff hO hnd hrmem).mpr
    (Or.inr ((hsub.mem_ancestors_iff hO hnd hrmem).mpr (hBT r hr)))

/-- In a prefix the subtrees are intervals too. -/
theorem Contiguous.of_append {X Z : List (Line κ)} (hfirst : ParentsFirst (X ++ Z))
    (h : Contiguous (X ++ Z)) : Contiguous X := by
  intro A g B n C hsplit hng q hq
  have hsplit' : (X ++ Z).map Line.key = A ++ g :: (B ++ n :: (C ++ Z.map Line.key)) := by
    rw [List.map_append, hsplit]
    simp
  have hqX : q ∈ X.map Line.key := by
    rw [hsplit]
    simp [hq]
  exact hfirst.below_of_append hqX
    (h A g B n _ hsplit' (hng.mono (List.subset_append_left X Z)) q hq)

/-- After a node, the node and its ancestors are open. -/
theorem openPath_concat (O : List (κ × List κ)) (b : κ) (v : List κ) :
    openPath [] (O ++ [(b, v)]) = b :: v := by
  rw [openPath_append]
  rfl

/-- A last line hangs at nothing, or on the way up from the line in front of it. -/
theorem exists_hang {X : List (Line κ)} {n : Line κ} (hfirst : ParentsFirst (X ++ [n]))
    (h : Contiguous (X ++ [n])) {O : List (κ × List κ)} (hO : IsOutline [] O)
    (hnd : (O.map Prod.fst).Nodup) (hX : X = flat O) :
    ∃ u, u.head? = n.parent ∧ u <:+ openPath [] O := by
  cases hp : n.parent with
  | none => exact ⟨[], rfl, List.nil_suffix⟩
  | some p =>
      have hfront : p ∈ X.map Line.key := hfirst.parent_front rfl hp
      rcases List.eq_nil_or_concat' O with rfl | ⟨O', ⟨b, v⟩, rfl⟩
      · rw [hX] at hfront
        cases hfront
      · have hmem : (b, v) ∈ O' ++ [(b, v)] := by simp
        have hkeys : X.map Line.key = O'.map Prod.fst ++ [b] := by
          rw [hX, map_key_flat, List.map_append]
          rfl
        -- the line in front is below `p`
        have hbelow : Below X b p := by
          rw [hkeys, List.mem_append, List.mem_singleton] at hfront
          rcases hfront with hin | rfl
          · obtain ⟨A, B, hAB⟩ := List.append_of_mem hin
            have hsplit : (X ++ [n]).map Line.key = A ++ p :: (B ++ [b] ++ n.key :: []) := by
              rw [List.map_append, hkeys, hAB]
              simp
            have hstep : HangsAt (X ++ [n]) n.key p := ⟨n, by simp, rfl, hp⟩
            apply hfirst.below_of_append (by rw [hkeys]; simp)
            exact h A p _ n.key [] hsplit (Relation.ReflTransGen.single hstep) b (by simp)
          · exact Relation.ReflTransGen.refl
        rw [hX, below_flat_iff hO hnd hmem] at hbelow
        have hpath : p ∈ b :: v := List.mem_cons.mpr hbelow
        obtain ⟨T, hT⟩ := exists_suffix_of_mem hpath
        exact ⟨p :: T, rfl, by rwa [openPath_concat]⟩

/-- **A list is in pre-order exactly when every line comes behind its parent and every subtree is
contiguous.** -/
theorem preOrder_iff_contiguous {lines : List (Line κ)} :
    PreOrder lines ↔ ParentsFirst lines ∧ Contiguous lines := by
  constructor
  · exact fun h => ⟨h.parentsFirst, h.contiguous⟩
  · rintro ⟨hfirst, h⟩
    induction lines using List.reverseRecOn with
    | nil => exact preOrder_iff.mpr ⟨[], trivial, List.nodup_nil, rfl⟩
    | append_singleton X n ih =>
        obtain ⟨O, hO, hnd, hX⟩ := preOrder_iff.mp (ih hfirst.of_append (h.of_append hfirst))
        obtain ⟨u, hhead, hu⟩ := exists_hang hfirst h hO hnd hX
        refine preOrder_iff.mpr ⟨O ++ [(n.key, u)], ?_, ?_, ?_⟩
        · exact isOutline_append.mpr ⟨hO, hu, trivial⟩
        · have hkeys := hfirst.nodup
          rw [List.map_append, hX, map_key_flat] at hkeys
          rw [List.map_append]
          exact hkeys
        · rw [flat_append, ← hX, flat_cons, flat_nil, line, hhead]

/-! ### Siblings -/

namespace SubtreeAt

variable {O A B C : List (κ × List κ)} {a c : κ} {up : List κ}

/-- The next sibling comes right behind a subtree. -/
theorem next_sibling (h : SubtreeAt O a up A B C) (hnd : (O.map Prod.fst).Nodup)
    {M N : List (κ × List κ)} (hC : C = M ++ (c, up) :: N)
    (hM : ∀ r ∈ M, r.2.head? ≠ up.head?) : M = [] := by
  cases M with
  | nil => rfl
  | cons r M =>
      obtain ⟨b, v⟩ := r
      exfalso
      subst hC
      obtain ⟨hv, hrest⟩ := h.behind
      have hne : v.head? ≠ up.head? := hM (b, v) List.mem_cons_self
      cases up with
      | nil => exact hne (by rw [List.suffix_nil.mp hv])
      | cons k T =>
          -- the parent would be open behind a row that hangs higher up
          have hkA : k ∈ A.map Prod.fst := by
            rcases mem_openPath h.front (h.hangs.mem List.mem_cons_self) with hmem | hmem
            · exact hmem
            · cases hmem
          have hkeys := h.nodup_keys hnd
          rw [List.nodup_append] at hkeys
          have hkC : k ∉ (b :: (M ++ (c, k :: T) :: N).map Prod.fst) := fun hmem =>
            hkeys.2.2 k hkA k (List.mem_cons_of_mem _ (List.mem_append_right _ hmem)) rfl
          have hmem : (c, k :: T) ∈ M ++ (c, k :: T) :: N := by simp
          rcases hrest.mem_of_suffix hmem List.suffix_rfl with hin | hpath
          · exact hkC (List.mem_cons_of_mem _ (List.mem_map_of_mem hin))
          · rcases List.suffix_cons_iff.mp hpath with heq | hsuffix
            · exact hkC ((List.cons.inj heq).1 ▸ List.mem_cons_self)
            · exact hne (by rw [(List.IsSuffix.eq_of_length_le hsuffix hv.length_le)])

/-- The family of a node ends where the next sibling starts. -/
theorem eq_of_next_sibling (h : SubtreeAt O a up A B C) (hnd : (O.map Prod.fst).Nodup)
    {M N : List (κ × List κ)} (hBC : B ++ C = M ++ (c, up) :: N)
    (hM : ∀ r ∈ M, r.2.head? ≠ up.head?) : M = B ∧ C = (c, up) :: N := by
  rcases List.append_eq_append_iff.mp hBC with ⟨M', rfl, hC⟩ | ⟨B', rfl, hB'⟩
  · obtain rfl := h.next_sibling hnd hC fun r hr => hM r (List.mem_append_right _ hr)
    exact ⟨List.append_nil B, hC⟩
  · cases B' with
    | nil => exact ⟨(List.append_nil M).symm, hB'.symm⟩
    | cons r B' =>
        obtain ⟨rfl, -⟩ := List.cons.inj hB'
        have hle : (a :: up).length ≤ up.length := (h.below (c, up) (by simp)).length_le
        rw [List.length_cons] at hle
        omega

section below

variable (h : SubtreeAt O a up A B C) (hO : IsOutline [] O) (hnd : (O.map Prod.fst).Nodup)
include h hO hnd

/-- The rows of the block of a node are below it. -/
theorem below_of_mem {r : κ × List κ} (hr : r ∈ B) : Below (flat O) r.1 a := by
  have hmem : r ∈ O := by
    rw [h.eq]
    simp [hr]
  exact (below_flat_iff hO hnd hmem).mpr (Or.inr ((h.mem_ancestors_iff hO hnd hmem).mpr hr))

/-- Nothing outside a subtree is below its root. -/
theorem not_below {r : κ × List κ} (hr : r ∈ A ++ C) : ¬ Below (flat O) r.1 a := by
  have hkeys := h.nodup_keys hnd
  rw [List.nodup_append, List.nodup_cons, List.nodup_append] at hkeys
  obtain ⟨-, ⟨hnBC, -, -, hBC⟩, hA⟩ := hkeys
  have hmem : r ∈ O := by
    rw [h.eq]
    rcases List.mem_append.mp hr with hr | hr
    · simp [hr]
    · simp [hr]
  rw [below_flat_iff hO hnd hmem, h.mem_ancestors_iff hO hnd hmem]
  rintro (heq | hB)
  · rcases List.mem_append.mp hr with hr | hr
    · exact hA _ (List.mem_map_of_mem hr) _ List.mem_cons_self heq.symm
    · exact hnBC (List.mem_append_right _ (heq ▸ List.mem_map_of_mem hr))
  · rcases List.mem_append.mp hr with hr | hr
    · exact hA _ (List.mem_map_of_mem hr) _
        (List.mem_cons_of_mem _ (List.mem_append_left _ (List.mem_map_of_mem hB))) rfl
    · exact hBC _ (List.mem_map_of_mem hB) _ (List.mem_map_of_mem hr) rfl

end below

/-- Two siblings that follow each other change places. -/
theorem isOutline_swap {B' C' : List (κ × List κ)}
    (h : SubtreeAt O a up A B ((c, up) :: (B' ++ C'))) (hB' : ∀ r ∈ B', c :: up <:+ r.2)
    (hinner : IsOutline (c :: up) B') (hbehind : IsOutline up C') :
    IsOutline [] (A ++ ((c, up) :: B' ++ ((a, up) :: B ++ C'))) := by
  have hblock {b : κ} {D : List (κ × List κ)} (hD : ∀ r ∈ D, b :: up <:+ r.2) :
      ∀ r ∈ (b, up) :: D, up <:+ r.2 := by
    rw [List.forall_mem_cons]
    exact ⟨List.suffix_rfl, fun r hr => (List.suffix_cons b up).trans (hD r hr)⟩
  apply h.front.paste h.hangs
  · exact ⟨List.suffix_rfl, hinner⟩
  · exact hblock hB'
  · have hrest : IsOutline up ([] ++ ((a, up) :: B ++ C')) :=
      IsOutline.paste trivial List.suffix_rfl ⟨List.suffix_rfl, h.inner⟩ (hblock h.below) hbehind
    exact hrest

end SubtreeAt

end Axan.Base.Forest
