import Axan.LinuxSidebar.Spawn

/-!
# The order of the rows at the start

The rows of a started window should be in pre-order with siblings in the order of the array.

* `TreeOrder` — what is promised. New tabs at the end keep it (`treeOrder_createInstance_last`), new
  tabs behind the first row while nothing hangs there (`treeOrder_createInstance_next`).
* `Broken` — ways to miss it that no later tab repairs (`broken_createInstance`).
* `broken_of_not_attached` — every other tab leads to one of them.
-/

namespace Axan.LinuxSidebar

open Axan.Base Axan.Base.Forest TerminalSidebar

/-! ### The order that is promised -/

/-- Siblings stand in the order of their numbers. -/
def SiblingsSorted (rows : List Row) : Prop :=
  ∀ q, ((rows.filter fun r => r.parent = q).map Line.key).Pairwise (· < ·)

/-- The rows are the pre-order of their forest, with siblings in order. -/
structure TreeOrder (rows : List Row) : Prop where
  preOrder : PreOrder rows
  siblings : SiblingsSorted rows

/-- A new row behind all its siblings. -/
theorem SiblingsSorted.insert {Y Z : List Row} {x : Row} (h : SiblingsSorted (Y ++ Z))
    (hnew : ∀ r ∈ Y ++ Z, r.key < x.key) (hZ : ∀ r ∈ Z, r.parent ≠ x.parent) :
    SiblingsSorted (Y ++ x :: Z) := by
  intro q
  have hq := h q
  rw [List.filter_append, List.filter_cons]
  split_ifs with hx
  · obtain rfl : x.parent = q := by simpa using hx
    have hempty : Z.filter (fun r => r.parent = x.parent) = [] := by
      rw [List.filter_eq_nil_iff]
      intro r hr
      simpa using hZ r hr
    rw [List.filter_append, hempty, List.append_nil] at hq
    rw [hempty, List.map_append, List.pairwise_append]
    refine ⟨hq, List.pairwise_singleton _ _, ?_⟩
    intro a ha b hb
    obtain rfl : b = x.key := by simpa using hb
    obtain ⟨r, hr, rfl⟩ := List.mem_map.mp ha
    exact hnew r (List.mem_append_left _ (List.mem_filter.mp hr).1)
  · rw [← List.filter_append]
    exact hq

/-- A leaf that is hung at `p` comes behind the children of `p`. -/
theorem hang_leaf {L R : List Row} {k p i e : ℕ} (hpre : PreOrder (L ++ ⟨k, none⟩ :: R))
    (hi : rowGetIndex (L ++ ⟨k, none⟩ :: R) p = some i)
    (he : subtreeEndIndex (L ++ ⟨k, none⟩ :: R) i = some e) :
    ∃ Y Z, Y ++ Z = L ++ R ∧ (∀ r ∈ Z, r.parent ≠ some p) ∧
      listBoxInsert (L ++ R) [⟨k, some p⟩] (destination L.length 1 e) = Y ++ ⟨k, some p⟩ :: Z := by
  obtain ⟨O, hO, hnd, hflat⟩ := preOrder_iff.mp hpre
  have hmem : p ∈ O.map Prod.fst := by
    rw [← map_key_flat, ← hflat]
    obtain ⟨hlt, hkey, -⟩ := List.findIdx?_eq_some_iff_getElem.mp hi
    exact List.mem_map.mpr ⟨_, List.getElem_mem hlt, of_decide_eq_true hkey⟩
  obtain ⟨⟨p', up⟩, hr, rfl⟩ := List.mem_map.mp hmem
  obtain ⟨A, B, C, hsub⟩ := hO.exists_subtreeAt hr
  rw [hflat, rowGetIndex_flat hsub hnd] at hi
  obtain rfl := Option.some.inj hi
  rw [hflat, subtreeEndIndex_flat hsub hO hnd] at he
  obtain rfl := Option.some.inj he
  -- what is behind the subtree of `p` does not hang at it
  have hbehind : ∀ r ∈ flat C, r.parent ≠ some p' := by
    intro r hrC hparent
    obtain ⟨x, hx, rfl⟩ := List.mem_map.mp hrC
    have hxO : x ∈ O := by
      rw [hsub.eq]
      exact List.mem_append_right _ (List.mem_cons_of_mem _ (List.mem_append_right _ hx))
    have hxB := (hsub.mem_ancestors_iff hO hnd hxO).mp (List.mem_of_mem_head? hparent)
    have hkeys := hsub.nodup_keys hnd
    rw [List.nodup_append, List.nodup_cons, List.nodup_append] at hkeys
    exact hkeys.2.1.2.2.2 _ (List.mem_map_of_mem hxB) _ (List.mem_map_of_mem hx) rfl
  have hsplit : L ++ ⟨k, none⟩ :: R = flat (A ++ (p', up) :: B) ++ flat C := by
    rw [hflat, hsub.eq, ← flat_append]
    simp
  have hlen : (flat (A ++ (p', up) :: B)).length = A.length + 1 + B.length := by
    simp
    omega
  rw [← hlen]
  generalize flat (A ++ (p', up) :: B) = P at hsplit hlen ⊢
  rcases List.append_eq_append_iff.mp hsplit with ⟨P', rfl, hR⟩ | ⟨L', rfl, hC⟩
  · rcases List.cons_eq_append_iff.mp hR with ⟨rfl, hC⟩ | ⟨P'', rfl, rfl⟩
    · -- the leaf is right behind the subtree
      refine ⟨L, R, rfl, fun r hr => hbehind r (by rw [hC]; exact List.mem_cons_of_mem _ hr), ?_⟩
      have hdest : destination L.length 1 (L ++ []).length = some L.length := by
        simp [destination]
      rw [hdest, listBoxInsert, List.take_left, List.drop_left]
      rfl
    · -- the leaf is in front of it
      refine ⟨L ++ P'', flat C, by simp, hbehind, ?_⟩
      have hdest : destination L.length 1 (L ++ ⟨k, none⟩ :: P'').length =
          some (L ++ P'').length := by
        have hlt : L.length < (L ++ (⟨k, none⟩ : Row) :: P'').length := by simp
        rw [destination, if_pos hlt, if_pos (by simp; omega)]
        congr 1
        simp
      rw [hdest, listBoxInsert, ← List.append_assoc L P'', List.take_left, List.drop_left]
      rfl
  · -- the leaf is somewhere behind it
    refine ⟨P, L' ++ R, by simp, fun r hr => hbehind r ?_, ?_⟩
    · rw [hC]
      rcases List.mem_append.mp hr with hr | hr
      · exact List.mem_append_left _ hr
      · exact List.mem_append_right _ (List.mem_cons_of_mem _ hr)
    · have hdest : destination (P ++ L').length 1 P.length = some P.length := by
        rw [destination, if_neg (by simp)]
      rw [hdest, listBoxInsert, List.append_assoc, List.take_left, List.drop_left]
      rfl

section Order

variable {par : ℕ → Option ℕ} {k : ℕ} {s s' : TerminalSidebar} {L T R : List Row}
  {positionPref : NewTabPosition}

/-- A root behind all roots, in a place where no subtree is torn. -/
theorem Created.treeOrder_root (hc : Created positionPref par k s s' L T R) (h : Spawned par k s)
    (ht : TreeOrder s.rows) (hroot : par k = none) (hT : T = [])
    (hlast : ∀ r ∈ R, r.parent ≠ none) : TreeOrder s'.rows := by
  subst hT
  have hrows : L ++ R = s.rows := hc.rows
  have hpre : PreOrder (L ++ ⟨k, none⟩ :: R) :=
    (preOrder_insert_iff (hrows ▸ ht.preOrder)
      (by rw [hrows, h.mem_iff]; exact lt_irrefl k)).mpr hc.next
  refine ⟨hc.keepsOrder hpre, ?_⟩
  rw [hc.root hroot]
  exact SiblingsSorted.insert (x := ⟨k, none⟩) (hrows ▸ ht.siblings)
    (fun r hr => h.lt_of_mem (hrows ▸ hr)) hlast

/-- A child, when the new row takes no others with it. -/
theorem Created.treeOrder_child (hc : Created positionPref par k s s' L T R) (h : Spawned par k s)
    (ht : TreeOrder s.rows) {p : ℕ} (hp : par k = some p) (hT : T = []) : TreeOrder s'.rows := by
  subst hT
  have hrows : L ++ R = s.rows := hc.rows
  have hpre : PreOrder (L ++ ⟨k, none⟩ :: R) :=
    (preOrder_insert_iff (hrows ▸ ht.preOrder)
      (by rw [hrows, h.mem_iff]; exact lt_irrefl k)).mpr hc.next
  obtain ⟨i, e, hi, he, -, hrows'⟩ := hc.child p hp
  obtain ⟨Y, Z, hYZ, hZ, hinsert⟩ := hang_leaf hpre hi he
  refine ⟨hc.keepsOrder hpre, ?_⟩
  have hresult : s'.rows = Y ++ ⟨k, some p⟩ :: Z := hrows'.trans hinsert
  rw [hresult]
  exact SiblingsSorted.insert (x := ⟨k, some p⟩) (hYZ.trans hrows ▸ ht.siblings)
    (fun r hr => h.lt_of_mem (hYZ.trans hrows ▸ hr)) hZ

/-- New tabs at the end keep the order. -/
theorem treeOrder_createInstance_last (hc : Created .last par k s s' L T R) (h : Spawned par k s)
    (ht : TreeOrder s.rows) : TreeOrder s'.rows := by
  obtain ⟨rfl, rfl⟩ := List.append_eq_nil_iff.mp hc.place
  cases hparent : par k with
  | none => exact hc.treeOrder_root h ht hparent rfl (by simp)
  | some p => exact hc.treeOrder_child h ht hparent rfl

/-- The first tab has the first row. -/
theorem TreeOrder.exists_cons (ht : TreeOrder s.rows) (hfirst : firstRow ∈ s.rows) :
    ∃ W, s.rows = firstRow :: W := by
  obtain ⟨O, hO, -, hflat⟩ := preOrder_iff.mp ht.preOrder
  cases O with
  | nil =>
      rw [hflat] at hfirst
      cases hfirst
  | cons r O =>
      obtain ⟨a, u⟩ := r
      obtain rfl : u = [] := List.suffix_nil.mp hO.1
      rw [flat_cons] at hflat
      rw [hflat] at hfirst
      rcases List.mem_cons.mp hfirst with heq | hmem
      · exact ⟨flat O, by rw [hflat, heq]⟩
      · -- a root in front of the first tab's
        have hsorted := ht.siblings none
        rw [hflat, List.filter_cons_of_pos (by simp [line]), List.map_cons,
          List.pairwise_cons] at hsorted
        have hlt := hsorted.1 0 (List.mem_map.mpr ⟨firstRow, List.mem_filter.mpr ⟨hmem, by decide⟩, rfl⟩)
        exact absurd hlt (Nat.not_lt_zero _)

/-- Behind the active row, which is the first one. -/
theorem NewPlace.eq_singleton (hplace : NewPlace .next L (T ++ R)) {W : List Row}
    (hrows : L ++ (T ++ R) = firstRow :: W) (hnd : ((firstRow :: W).map Line.key).Nodup) :
    L = [firstRow] := by
  obtain ⟨X, rfl⟩ := hplace
  cases X with
  | nil => rfl
  | cons x X =>
      rw [List.cons_append, List.cons_append] at hrows
      obtain ⟨rfl, hW⟩ := List.cons.inj hrows
      rw [List.map_cons, List.nodup_cons] at hnd
      exact absurd (List.mem_map.mpr ⟨firstRow, by rw [← hW]; simp, rfl⟩) hnd.1

/-- Without a child of the first tab no rows go with a new one. -/
theorem nil_of_leaf (ht : PreOrder (firstRow :: (T ++ R))) (hT : ∀ r ∈ T, r.parent ≠ none)
    (hleaf : ∀ r ∈ T, r.parent ≠ some 0) : T = [] := by
  obtain ⟨O, hO, -, hflat⟩ := preOrder_iff.mp ht
  cases T with
  | nil => rfl
  | cons t T =>
      obtain ⟨u, O', rfl, hu, hflat'⟩ := flat_eq_cons hflat.symm
      obtain ⟨v, O'', rfl, hv, -⟩ := flat_eq_cons hflat'
      obtain rfl : u = [] := List.suffix_nil.mp hO.1
      have hsuffix : v <:+ [0] := hO.2.1
      rcases List.suffix_cons_iff.mp hsuffix with rfl | hnil
      · exact absurd hv.symm (hleaf t List.mem_cons_self)
      · rw [List.suffix_nil.mp hnil] at hv
        exact absurd hv.symm (hT t List.mem_cons_self)

/-- The entry has a parent, and no earlier one hangs at the first. -/
def Attached (par : ℕ → Option ℕ) (k : ℕ) : Prop := par k ≠ none ∧ ∀ c < k, par c ≠ some 0

/-- New tabs behind the first keep the order while nothing hangs there. -/
theorem treeOrder_createInstance_next (hc : Created .next par k s s' L T R) (h : Spawned par k s)
    (hpar : ∀ i q, par i = some q → q < i) (hk : 0 < k) (ht : TreeOrder s.rows)
    (hattached : 2 ≤ k → Attached par k) : TreeOrder s'.rows := by
  obtain ⟨W, hW⟩ := ht.exists_cons (h.firstRow_mem hpar hk)
  have hL := hc.place.eq_singleton (hc.rows.trans hW) (hW ▸ h.nodup)
  subst hL
  have hrows : firstRow :: (T ++ R) = s.rows := hc.rows
  rcases Nat.lt_or_ge k 2 with hlt | hge
  · -- there is only the first row
    have hlength := h.length_eq
    rw [← hrows, List.length_cons, List.length_append] at hlength
    obtain rfl : T = [] := List.eq_nil_of_length_eq_zero (by omega)
    obtain rfl : R = [] := List.eq_nil_of_length_eq_zero (by omega)
    cases hparent : par k with
    | none => exact hc.treeOrder_root h ht hparent rfl (by simp)
    | some p => exact hc.treeOrder_child h ht hparent rfl
  · obtain ⟨hne, hleaf⟩ := hattached hge
    obtain ⟨p, hp⟩ := Option.ne_none_iff_exists'.mp hne
    refine hc.treeOrder_child h ht hp (nil_of_leaf (hrows ▸ ht.preOrder) hc.below fun r hr => ?_)
    have hmem : r ∈ s.rows := by
      rw [← hrows]
      exact List.mem_cons_of_mem _ (List.mem_append_left _ hr)
    rw [h.parents r hmem]
    exact hleaf _ (h.lt_of_mem hmem)

end Order

/-! ### Orders that no later tab repairs -/

/-- Rows without a root among them. -/
def RootFree (rows : List Row) : Prop := ∀ r ∈ rows, r.parent ≠ none

/-- The order is wrong for good: two roots are in the wrong order, or a root is between the first
row and a child of it, or a row is in front of its parent or of an older sibling with no root
between them. -/
inductive Broken (rows : List Row) : Prop where
  | roots {x y : Row} : x.parent = none → y.parent = none → x.key < y.key → [y, x].Sublist rows →
      Broken rows
  | torn {r c : Row} : r.parent = none → c.parent = some 0 → [firstRow, r, c].Sublist rows →
      Broken rows
  | swapped {W : List Row} {x c : Row} : W <:+: rows → RootFree W → W.head? = some x →
      W.getLast? = some c → (x.parent = some c.key ∨ x.parent = c.parent ∧ c.key < x.key) →
      Broken rows

/-- The first and the last of a list are in this order. -/
theorem pair_sublist {W : List Row} {x c : Row} (hx : W.head? = some x) (hc : W.getLast? = some c)
    (hne : x ≠ c) : [x, c].Sublist W := by
  cases W with
  | nil => cases hx
  | cons x' W =>
      obtain rfl : x' = x := Option.some.inj hx
      have hmem : c ∈ x' :: W := List.mem_of_getLast? hc
      rcases List.mem_cons.mp hmem with rfl | hmem
      · exact absurd rfl hne
      · exact (List.singleton_sublist.mpr hmem).cons_cons x'

/-- Siblings in the wrong order. -/
theorem SiblingsSorted.lt_of_sublist {rows : List Row} (h : SiblingsSorted rows) {x y : Row}
    (hsub : [x, y].Sublist rows) (hparent : x.parent = y.parent) : x.key < y.key := by
  have hfilter := hsub.filter fun r => r.parent = y.parent
  rw [List.filter_cons_of_pos (by simpa using hparent), List.filter_cons_of_pos (by simp),
    List.filter_nil] at hfilter
  have hpair := (h y.parent).sublist (hfilter.map Line.key)
  simpa using hpair

/-- In a pre-order a row comes behind its parent, and no root is between the two. -/
theorem PreOrder.split_of_parent {rows : List Row} (h : PreOrder rows) {p c : Row} (hp : p ∈ rows)
    (hc : c ∈ rows) (hparent : c.parent = some p.key) :
    ∃ X B Z, rows = X ++ p :: (B ++ Z) ∧ c ∈ B ∧ RootFree B := by
  obtain ⟨O, hO, hnd, rfl⟩ := preOrder_iff.mp h
  obtain ⟨⟨a, up⟩, ha, rfl⟩ := List.mem_map.mp hp
  obtain ⟨x, hx, rfl⟩ := List.mem_map.mp hc
  obtain ⟨A, B, C, hsub⟩ := hO.exists_subtreeAt ha
  refine ⟨flat A, flat B, flat C, ?_, ?_, ?_⟩
  · rw [hsub.eq]
    simp
  · exact List.mem_map_of_mem ((hsub.mem_ancestors_iff hO hnd hx).mp (List.mem_of_mem_head? hparent))
  · intro r hr hroot
    obtain ⟨y, hy, rfl⟩ := List.mem_map.mp hr
    have hsuffix := hsub.below y hy
    have hnil : y.2 = [] := List.head?_eq_none_iff.mp hroot
    rw [hnil] at hsuffix
    cases List.suffix_nil.mp hsuffix

/-- A sublist whose first row is not in the front part is behind it. -/
theorem sublist_of_not_mem {a : Row} {l A B : List Row} (h : (a :: l).Sublist (A ++ B))
    (ha : a ∉ A) : (a :: l).Sublist B := by
  obtain ⟨l₁, l₂, heq, hA, hB⟩ := List.sublist_append_iff.mp h
  cases l₁ with
  | nil => exact heq ▸ hB
  | cons b l₁ =>
      obtain ⟨rfl, -⟩ := List.cons.inj heq
      exact absurd (hA.subset List.mem_cons_self) ha

theorem sublist_of_cons_ne {a b : Row} {l m : List Row} (h : (a :: l).Sublist (b :: m))
    (hne : a ≠ b) : (a :: l).Sublist m := by
  cases h with
  | cons _ h => exact h
  | cons_cons _ h => exact absurd rfl hne

/-- Distinct rows are in one order only. -/
theorem not_sublist_of_nodup {X Z : List Row} {p c : Row} (hnd : (X ++ p :: Z).Nodup)
    (hc : c ∈ Z) : ¬ [c, p].Sublist (X ++ p :: Z) := by
  obtain ⟨-, hpZ, hX⟩ := List.nodup_append.mp hnd
  obtain ⟨hp, -⟩ := List.nodup_cons.mp hpZ
  intro hsub
  have hnot : ∀ a ∈ [c, p], a ∉ X := by
    intro a ha haX
    rcases List.mem_cons.mp ha with rfl | ha
    · exact hX a haX a (List.mem_cons_of_mem _ hc) rfl
    · obtain rfl := List.mem_singleton.mp ha
      exact hX a haX a List.mem_cons_self rfl
  have hne : c ≠ p := fun heq => hp (heq ▸ hc)
  have hZ := sublist_of_cons_ne (hsub.of_sublist_append_right hnot) hne
  exact hp (hZ.subset (by simp))

/-- A broken order is not the one that is promised. -/
theorem Broken.not_treeOrder {rows : List Row} (h : Broken rows) (hnd : (rows.map Line.key).Nodup)
    (hdown : ∀ r ∈ rows, r.parent ≠ some r.key) : ¬ TreeOrder rows := by
  have hrows : rows.Nodup := hnd.of_map
  intro ht
  cases h with
  | @roots x y hx hy hlt hsub =>
      have := ht.siblings.lt_of_sublist hsub (hy.trans hx.symm)
      omega
  | @torn r c hr hc hsub =>
      have hfirst : firstRow ∈ rows := hsub.subset List.mem_cons_self
      have hcmem : c ∈ rows := hsub.subset (by simp)
      obtain ⟨X, B, Z, rfl, hB, hfree⟩ := PreOrder.split_of_parent ht.preOrder hfirst hcmem hc
      -- the root is behind the subtree, and so is the child
      obtain ⟨-, hcons, hX⟩ := List.nodup_append.mp hrows
      obtain ⟨hnot, hBZ⟩ := List.nodup_cons.mp hcons
      have htail : [r, c].Sublist (B ++ Z) := List.cons_sublist_cons.mp
        (sublist_of_not_mem hsub fun hmem => hX _ hmem _ List.mem_cons_self rfl)
      have hZ : [r, c].Sublist Z := sublist_of_not_mem htail fun hmem => hfree r hmem hr
      exact (List.nodup_append.mp hBZ).2.2 c hB c (hZ.subset (by simp)) rfl
  | @swapped W x c hW hfree hx hc hwrong =>
      have hxW : x ∈ W := List.mem_of_head? hx
      have hcW : c ∈ W := List.mem_of_getLast? hc
      have hxrows := hW.sublist.subset hxW
      have hne : x ≠ c := by
        rintro rfl
        rcases hwrong with hparent | ⟨-, hlt⟩
        · exact hdown x hxrows hparent
        · exact lt_irrefl _ hlt
      have hsub : [x, c].Sublist rows := (pair_sublist hx hc hne).trans hW.sublist
      rcases hwrong with hparent | ⟨hsame, hlt⟩
      · obtain ⟨X, B, Z, rfl, hB, -⟩ :=
          PreOrder.split_of_parent ht.preOrder (hW.sublist.subset hcW) hxrows hparent
        exact not_sublist_of_nodup hrows (List.mem_append_left _ hB) hsub
      · have := ht.siblings.lt_of_sublist hsub hsame
        omega

/-! ### A broken order stays broken -/

/-- A run without roots does not go over a root. -/
theorem RootFree.infix_cases {W A B : List Row} (h : RootFree W)
    (hB : ∀ r ∈ B.head?, r.parent = none) (hW : W <:+: A ++ B) : W <:+: A ∨ W <:+: B := by
  rcases List.infix_append_iff_ne_nil.mp hW with hA | hB' | ⟨l, m, -, hm, rfl, -, hpre⟩
  · exact Or.inl hA
  · exact Or.inr hB'
  · obtain ⟨r, m, rfl⟩ := List.exists_cons_of_ne_nil hm
    have hhead : r ∈ B.head? := by
      obtain ⟨t, rfl⟩ := hpre
      rfl
    exact absurd (hB r hhead) (h r (by simp))

/-- With rows put between, a run goes over them. -/
theorem exists_infix_insert {W M Y Z : List Row} {x c : Row} (hW : W <:+: Y ++ Z)
    (hfree : RootFree W) (hM : RootFree M) (hx : W.head? = some x) (hc : W.getLast? = some c) :
    ∃ W', W' <:+: Y ++ (M ++ Z) ∧ RootFree W' ∧ W'.head? = some x ∧ W'.getLast? = some c := by
  rcases List.infix_append_iff_ne_nil.mp hW with hY | hZ | ⟨l, m, hl, hm, rfl, hsuf, hpre⟩
  · exact ⟨W, List.infix_append_of_infix_left hY, hfree, hx, hc⟩
  · exact ⟨W, List.infix_append_of_infix_right (List.infix_append_of_infix_right hZ), hfree, hx, hc⟩
  · obtain ⟨A, rfl⟩ := hsuf
    obtain ⟨B, rfl⟩ := hpre
    refine ⟨l ++ (M ++ m), ⟨A, B, by simp⟩, ?_, ?_, ?_⟩
    · intro r hr
      simp only [List.mem_append] at hr
      rcases hr with hr | hr | hr
      · exact hfree r (List.mem_append_left _ hr)
      · exact hM r hr
      · exact hfree r (List.mem_append_right _ hr)
    · rw [List.head?_append_of_ne_nil _ hl] at hx ⊢
      exact hx
    · rw [List.getLast?_append_of_ne_nil _ hm] at hc
      rw [List.getLast?_append_of_ne_nil _ (by simp [hm]), List.getLast?_append_of_ne_nil _ hm]
      exact hc

section Stays

variable {par : ℕ → Option ℕ} {k : ℕ} {s s' : TerminalSidebar} {L T R : List Row}

/-- The other rows keep their order. -/
theorem Created.sublist {positionPref : NewTabPosition}
    (hc : Created positionPref par k s s' L T R) : (L ++ R).Sublist s'.rows := by
  cases hparent : par k with
  | none =>
      rw [hc.root hparent]
      exact (List.Sublist.refl L).append
        ((List.sublist_append_right T R).trans (List.sublist_cons_self _ _))
  | some p =>
      obtain ⟨Y, Z, hYZ, hrows⟩ := hc.exists_split hparent
      rw [← hYZ, hrows]
      exact (List.Sublist.refl Y).append (List.sublist_append_right _ Z)

/-- **No later tab repairs a broken order.** -/
theorem broken_createInstance (hc : Created .next par k s s' L T R) (h : Spawned par k s)
    (hb : Broken s.rows) : Broken s'.rows := by
  have hplace : ∃ X, L = X ++ [firstRow] := hc.place
  obtain ⟨X, hL⟩ := hplace
  have hrows : s.rows = X ++ firstRow :: (T ++ R) := by
    rw [← hc.rows, hL]
    simp
  have hnd : (X ++ firstRow :: (T ++ R)).Nodup := hrows ▸ h.nodup.of_map
  have hLR : L ++ R = X ++ firstRow :: R := by simp [hL]
  cases hb with
  | @roots x y hx hy hlt hsub =>
      refine Broken.roots hx hy hlt (List.Sublist.trans ?_ hc.sublist)
      -- the rows that go with the new one are no roots
      have hfilter := hsub.filter fun r => r.parent = none
      have hTnone : T.filter (fun r => r.parent = none) = [] := by
        rw [List.filter_eq_nil_iff]
        intro r hr
        simpa using hc.below r hr
      rw [List.filter_cons_of_pos (by simpa using hy), List.filter_cons_of_pos (by simpa using hx),
        List.filter_nil, ← hc.rows, List.filter_append, List.filter_append, hTnone, List.nil_append,
        ← List.filter_append] at hfilter
      exact hfilter.trans List.filter_sublist
  | @torn r c hr hchild hsub =>
      refine Broken.torn hr hchild (List.Sublist.trans ?_ hc.sublist)
      rw [hrows] at hsub
      rw [hLR]
      have hX : firstRow ∉ X := fun hmem =>
        (List.nodup_append.mp hnd).2.2 _ hmem firstRow List.mem_cons_self rfl
      have htail : [r, c].Sublist (T ++ R) :=
        List.cons_sublist_cons.mp (sublist_of_not_mem hsub hX)
      have hR : [r, c].Sublist R := sublist_of_not_mem htail fun hmem => hc.below r hmem hr
      exact (hR.cons_cons firstRow).trans (List.sublist_append_right X _)
  | @swapped W x c hW hfree hx hlast hwrong =>
      rw [hrows] at hW
      have hparts : W <:+: L ∨ W <:+: T ∨ W <:+: R := by
        rcases hfree.infix_cases (fun r hr => by cases hr; rfl) hW with hX | hrest
        · exact Or.inl (hL ▸ List.infix_append_of_infix_left hX)
        · rcases List.infix_cons_iff.mp hrest with hpre | hTR
          · cases W with
            | nil => cases hx
            | cons w W =>
                obtain ⟨rfl, -⟩ := List.cons_prefix_cons.mp hpre
                exact absurd rfl (hfree _ List.mem_cons_self)
          · exact Or.inr (hfree.infix_cases hc.next hTR)
      cases hparent : par k with
      | none =>
          rw [hc.root hparent]
          refine Broken.swapped ?_ hfree hx hlast hwrong
          rcases hparts with hL' | hT | hR
          · exact List.infix_append_of_infix_left hL'
          · exact List.infix_append_of_infix_right
              (List.infix_cons (List.infix_append_of_infix_left hT))
          · exact List.infix_append_of_infix_right
              (List.infix_cons (List.infix_append_of_infix_right hR))
      | some p =>
          obtain ⟨Y, Z, hYZ, hrows'⟩ := hc.exists_split hparent
          rw [hrows']
          have hM : RootFree (⟨k, some p⟩ :: T) := by
            intro r hr
            rcases List.mem_cons.mp hr with rfl | hr
            · exact Option.some_ne_none p
            · exact hc.below r hr
          have houter (hLR' : W <:+: L ++ R) : Broken (Y ++ (⟨k, some p⟩ :: T ++ Z)) := by
            rw [← hYZ] at hLR'
            obtain ⟨W', hW', hfree', hx', hlast'⟩ := exists_infix_insert hLR' hfree hM hx hlast
            exact Broken.swapped hW' hfree' hx' hlast' hwrong
          rcases hparts with hL' | hT | hR
          · exact houter (List.infix_append_of_infix_left hL')
          · refine Broken.swapped ?_ hfree hx hlast hwrong
            exact List.infix_append_of_infix_right
              (List.infix_append_of_infix_left (List.infix_cons hT))
          · exact houter (List.infix_append_of_infix_right hR)

/-- The first row is not torn from its children by a root in an order that is right. -/
theorem child_mem_of_treeOrder (ht : TreeOrder (firstRow :: (T ++ R)))
    (hnd : ((firstRow :: (T ++ R)).map Line.key).Nodup)
    (hdown : ∀ r ∈ firstRow :: (T ++ R), r.parent ≠ some r.key)
    (hR : ∀ r ∈ R.head?, r.parent = none) {c : Row} (hc : c ∈ T ++ R) (hchild : c.parent = some 0) :
    c ∈ T := by
  rcases List.mem_append.mp hc with hT | hcR
  · exact hT
  · cases R with
    | nil => cases hcR
    | cons r R =>
        have hr : r.parent = none := hR r rfl
        have hmem : c ∈ R := by
          rcases List.mem_cons.mp hcR with rfl | hmem
          · rw [hr] at hchild
            cases hchild
          · exact hmem
        have hsub : [firstRow, r, c].Sublist (firstRow :: (T ++ r :: R)) :=
          (((List.singleton_sublist.mpr hmem).cons_cons r).trans
            (List.sublist_append_right T _)).cons_cons firstRow
        exact absurd ht ((Broken.torn hr hchild hsub).not_treeOrder hnd hdown)

/-- The last one of a list. -/
theorem getLast?_split (x c : Row) (W : List Row) : (x :: (W ++ [c])).getLast? = some c := by
  rw [← List.cons_append, List.getLast?_concat]

/-- A child in front of rows without roots. -/
theorem rootFree_cons {x c : Row} {T₁ T₂ : List Row} (hx : x.parent ≠ none) (hT : RootFree T)
    (hsplit : T = T₁ ++ c :: T₂) : RootFree (x :: (T₁ ++ [c])) := by
  intro r hr
  rcases List.mem_cons.mp hr with rfl | hr
  · exact hx
  · apply hT
    rw [hsplit]
    rcases List.mem_append.mp hr with hr | hr
    · exact List.mem_append_left _ hr
    · obtain rfl := List.mem_singleton.mp hr
      exact List.mem_append_right _ List.mem_cons_self

section BehindFirst

variable (hc : Created .next par k s s' [firstRow] T R) (h : Spawned par k s)
include hc

/-- A new root comes between the first row and its child. -/
theorem broken_root_between {c : ℕ} (hroot : par k = none) (hcT : (⟨c, some 0⟩ : Row) ∈ T) :
    Broken s'.rows := by
  refine Broken.torn (r := ⟨k, none⟩) (c := ⟨c, some 0⟩) rfl rfl ?_
  rw [hc.root hroot]
  have hsub : [(⟨c, some 0⟩ : Row)].Sublist (T ++ R) :=
    List.singleton_sublist.mpr (List.mem_append_left _ hcT)
  exact (hsub.cons_cons _).cons_cons firstRow

/-- A new child comes in front of its parent. -/
theorem broken_front_of_parent {p : ℕ} (hparent : par k = some p) (hpT : (⟨p, par p⟩ : Row) ∈ T) :
    Broken s'.rows := by
  obtain ⟨P₁, P₂, hPsplit⟩ := List.append_of_mem hpT
  obtain ⟨Y, Z, -, hfinal⟩ := hc.exists_split hparent
  rw [hfinal, hPsplit]
  refine Broken.swapped (W := ⟨k, some p⟩ :: (P₁ ++ [⟨p, par p⟩])) (x := ⟨k, some p⟩)
    (c := ⟨p, par p⟩) ⟨Y, P₂ ++ Z, by simp⟩ ?_ rfl (getLast?_split _ _ _) (Or.inl rfl)
  exact rootFree_cons (Option.some_ne_none p) hc.below hPsplit

include h

/-- A new child of the first row comes in front of an older one. -/
theorem broken_front_of_sibling (hpar : ∀ i q, par i = some q → q < i) {c : ℕ} (hck : c < k)
    (hparent : par k = some 0) (hcT : (⟨c, some 0⟩ : Row) ∈ T) : Broken s'.rows := by
  obtain ⟨T₁, T₂, hTsplit⟩ := List.append_of_mem hcT
  obtain ⟨i, e, hi, he, hie, hrows'⟩ := hc.child 0 hparent
  have hd := h.downward hpar hc.rows
  have hi0 : i = 0 := by
    have hzero : rowGetIndex ([firstRow] ++ ⟨k, none⟩ :: (T ++ R)) 0 = some 0 := rfl
    exact Option.some.inj (hi.symm.trans hzero)
  subst hi0
  have he1 : e = 1 := by
    have hend := hd.subtreeEndIndex_root (L := []) (T := []) (k := 0) rfl (by simp)
      (fun r hr => by cases hr; rfl)
    exact Option.some.inj (he.symm.trans hend)
  subst he1
  have hfinal : s'.rows = firstRow :: ((⟨k, some 0⟩ :: T) ++ R) := by
    rw [hrows']
    rfl
  rw [hfinal, hTsplit]
  refine Broken.swapped (W := ⟨k, some 0⟩ :: (T₁ ++ [⟨c, some 0⟩])) (x := ⟨k, some 0⟩)
    (c := ⟨c, some 0⟩) ⟨[firstRow], T₂ ++ R, by simp⟩ ?_ rfl (getLast?_split _ _ _)
    (Or.inr ⟨rfl, hck⟩)
  exact rootFree_cons (Option.some_ne_none 0) hc.below hTsplit

/-- A new child of another root takes the children of the first row behind that root. -/
theorem broken_behind_root (hpar : ∀ i q, par i = some q → q < i) {c p : ℕ}
    (hparent : par k = some p) (hcT : (⟨c, some 0⟩ : Row) ∈ T) (hpR : (⟨p, par p⟩ : Row) ∈ R) :
    Broken s'.rows := by
  obtain ⟨i, e, hi, he, hie, hrows'⟩ := hc.child p hparent
  obtain ⟨r, R', rfl⟩ := List.exists_cons_of_ne_nil (List.ne_nil_of_mem hpR)
  have hge : T.length + 2 ≤ i := by
    obtain ⟨P₁, P₂, hPsplit⟩ := List.append_of_mem hpR
    have hnodup := (h.downward hpar hc.rows).nodup
    have hlist : [firstRow] ++ ⟨k, none⟩ :: (T ++ r :: R') =
        (firstRow :: ⟨k, none⟩ :: (T ++ P₁)) ++ ⟨p, par p⟩ :: P₂ := by
      rw [hPsplit]
      simp
    rw [hlist] at hnodup hi
    have hindex := rowGetIndex_of_split (x := ⟨p, par p⟩) hnodup
    have hlength := Option.some.inj (hi.symm.trans hindex)
    simp only [List.length_cons, List.length_append] at hlength
    omega
  have hdest : destination [firstRow].length (1 + T.length) e =
      some (e - (1 + T.length) - 2 + 2) := by
    have hlt : [firstRow].length < e := by
      rw [List.length_singleton]
      omega
    rw [destination, if_pos hlt, if_pos (by omega)]
    congr 1
    omega
  refine Broken.torn (r := r) (c := ⟨c, some 0⟩) (hc.next r rfl) rfl ?_
  rw [hrows', hdest]
  have hsub : [(⟨c, some 0⟩ : Row)].Sublist (⟨k, some p⟩ :: T ++
      ([firstRow] ++ r :: R').drop (e - (1 + T.length) - 2 + 2)) :=
    List.singleton_sublist.mpr (List.mem_append_left _ (List.mem_cons_of_mem _ hcT))
  exact ((hsub.trans (List.sublist_append_right _ _)).cons_cons r).cons_cons firstRow

end BehindFirst

/-- A tab behind the second that is a root, or comes after a child of the first, breaks the order. -/
theorem broken_of_not_attached (hc : Created .next par k s s' L T R) (h : Spawned par k s)
    (hpar : ∀ i q, par i = some q → q < i) (hk : 2 ≤ k) (ht : TreeOrder s.rows)
    (hnot : ¬ Attached par k) : Broken s'.rows := by
  obtain ⟨W, hW⟩ := ht.exists_cons (h.firstRow_mem hpar (by omega))
  have hL := hc.place.eq_singleton (hc.rows.trans hW) (hW ▸ h.nodup)
  subst hL
  have hrows : firstRow :: (T ++ R) = s.rows := hc.rows
  have hdown : ∀ r ∈ s.rows, r.parent ≠ some r.key := by
    intro r hr hself
    rw [h.parents r hr] at hself
    exact lt_irrefl _ (hpar _ _ hself)
  -- the rows of the other tabs are behind the first
  have hbehind {i : ℕ} (hi : 0 < i) (hik : i < k) : (⟨i, par i⟩ : Row) ∈ T ++ R := by
    have hmem := h.mem hik
    rw [← hrows] at hmem
    rcases List.mem_cons.mp hmem with heq | hmem
    · have : i = 0 := congrArg Line.key heq
      omega
    · exact hmem
  by_cases hchild : ∃ c < k, par c = some 0
  · obtain ⟨c, hck, hcpar⟩ := hchild
    have hcT : (⟨c, some 0⟩ : Row) ∈ T := by
      refine child_mem_of_treeOrder (hrows ▸ ht) (hrows ▸ h.nodup) (hrows ▸ hdown) hc.next ?_ rfl
      have hmem := hbehind (hpar c 0 hcpar) hck
      rwa [hcpar] at hmem
    cases hparent : par k with
    | none => exact broken_root_between hc hparent hcT
    | some p =>
        rcases Nat.eq_zero_or_pos p with rfl | hp0
        · exact broken_front_of_sibling hc h hpar hck hparent hcT
        · rcases List.mem_append.mp (hbehind hp0 (hpar k p hparent)) with hpT | hpR
          · exact broken_front_of_parent hc hparent hpT
          · exact broken_behind_root hc h hpar hparent hcT hpR
  · -- a root in front of the second tab
    have hchild : ∀ c < k, par c ≠ some 0 := fun c hck hcpar => hchild ⟨c, hck, hcpar⟩
    have hroot : par k = none := by
      by_contra hne
      exact hnot ⟨hne, hchild⟩
    have hone : par 1 = none := by
      cases hp : par 1 with
      | none => rfl
      | some q =>
          obtain rfl : q = 0 := by have := hpar 1 q hp; omega
          exact absurd hp (hchild 1 (by omega))
    refine Broken.roots (x := ⟨1, none⟩) (y := ⟨k, none⟩) rfl rfl (by simpa using by omega) ?_
    rw [hc.root hroot]
    have hmem := hbehind Nat.one_pos (by omega : 1 < k)
    rw [hone] at hmem
    exact (((List.singleton_sublist.mpr hmem).cons_cons _)).trans (List.sublist_append_right _ _)

end Stays

end Axan.LinuxSidebar
