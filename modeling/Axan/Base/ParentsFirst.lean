import Axan.Base.Lines
import Axan.Base.Reorder

/-!
# Lines behind their parents

A weaker order than pre-order: every line comes behind the line its pointer leads to.

* `ParentsFirst` — the order; its chains of pointers end (`ParentsFirst.ancestors_isSome`).
* `ParentsFirst.insert`, `parentsFirst_hoist_iff`, `parentsFirst_relocate_iff` — **when** it is kept
  by a new root, by the removal of a line whose children go up, and by a run of lines that goes to
  another place.
-/

namespace Axan.Base.Forest

variable {κ : Type}

/-- Every pointer leads to a line further up. -/
structure ParentsFirst (lines : List (Line κ)) : Prop where
  nodup : (lines.map Line.key).Nodup
  before : ∀ l ∈ lines, ∀ p ∈ l.parent, Before (lines.map Line.key) p l.key

namespace ParentsFirst

variable {lines : List (Line κ)}

/-- The parent of a line is in front of it. -/
theorem parent_front (h : ParentsFirst lines) {X Z : List (Line κ)} {l : Line κ}
    (hl : lines = X ++ l :: Z) {p : κ} (hp : p ∈ l.parent) : p ∈ X.map Line.key := by
  have hmem : l ∈ lines := by
    rw [hl]
    exact List.mem_append_right _ List.mem_cons_self
  apply (h.before l hmem p hp).mem_of_split h.nodup
  rw [hl, List.map_append, List.map_cons]

/-- Distinct lines with their parents in front have parents first. -/
theorem of_front (hnd : (lines.map Line.key).Nodup)
    (h : ∀ X l Z, lines = X ++ l :: Z → ∀ p ∈ l.parent, p ∈ X.map Line.key) :
    ParentsFirst lines := by
  refine ⟨hnd, fun l hl p hp => ?_⟩
  obtain ⟨X, Z, rfl⟩ := List.append_of_mem hl
  rw [List.map_append, List.map_cons]
  exact before_append (h X l Z rfl p hp) List.mem_cons_self

/-- The parent of a line has a line. -/
theorem parent_mem (h : ParentsFirst lines) {l : Line κ} (hl : l ∈ lines) {p : κ}
    (hp : p ∈ l.parent) : p ∈ lines.map Line.key := (h.before l hl p hp).mem_left

end ParentsFirst

/-- In a pre-order the parents come first. -/
theorem PreOrder.parentsFirst {lines : List (Line κ)} (h : PreOrder lines) : ParentsFirst lines := by
  obtain ⟨O, hO, hnd, hflat⟩ := preOrder_iff.mp h
  refine ParentsFirst.of_front ?_ fun X l Z hl p hp => ?_
  · rw [hflat, map_key_flat]
    exact hnd
  · exact PreOrder.parent_front (hl ▸ h) hp

/-! ### Chains of pointers -/

/-- The walk up from a line ends, in as many steps as there are lines in front. -/
theorem ParentsFirst.ancestors_isSome [DecidableEq κ] {lines : List (Line κ)} (h : ParentsFirst lines)
    {n : ℕ} {X Z : List (Line κ)} {l : Line κ} (hl : lines = X ++ l :: Z) (hn : X.length ≤ n) :
    (ancestors lines n l.parent).isSome := by
  induction n generalizing X l Z with
  | zero =>
      obtain rfl : X = [] := List.length_eq_zero_iff.mp (Nat.le_zero.mp hn)
      cases hp : l.parent with
      | none => rfl
      | some p => exact absurd (h.parent_front hl hp) List.not_mem_nil
  | succ n ih =>
      cases hp : l.parent with
      | none => rfl
      | some p =>
          obtain ⟨q, hq, hkey⟩ := List.mem_map.mp (h.parent_front hl hp)
          obtain ⟨X₁, X₂, rfl⟩ := List.append_of_mem hq
          have hmem : q ∈ lines := by
            rw [hl]
            exact List.mem_append_left _ hq
          have hparent : parentOf lines p = some q.parent := hkey ▸ parentOf_of_mem h.nodup hmem
          have hshort : X₁.length ≤ n := by
            rw [List.length_append, List.length_cons] at hn
            omega
          have hrest := ih (X := X₁) (Z := X₂ ++ l :: Z) (l := q) (by rw [hl]; simp) hshort
          obtain ⟨up, hup⟩ := Option.isSome_iff_exists.mp hrest
          rw [ancestors, hparent]
          simp [hup]

/-! ### Edits -/

section Edits

variable {X M Z Y W T : List (Line κ)}

/-- A new root. -/
theorem ParentsFirst.insert (h : ParentsFirst (Y ++ W)) {k : κ} (hk : k ∉ (Y ++ W).map Line.key) :
    ParentsFirst (Y ++ ⟨k, none⟩ :: W) := by
  have hkeys : ((Y ++ ⟨k, none⟩ :: W).map Line.key).Perm (k :: (Y ++ W).map Line.key) := by
    rw [List.map_append, List.map_cons, List.map_append]
    exact List.perm_middle
  constructor
  · exact hkeys.nodup_iff.mpr (List.nodup_cons.mpr ⟨hk, h.nodup⟩)
  · intro l hl p hp
    have hsub : ((Y ++ W).map Line.key).Sublist ((Y ++ ⟨k, none⟩ :: W).map Line.key) :=
      ((List.Sublist.refl Y).append (List.sublist_cons_self _ W)).map _
    rcases List.mem_append.mp hl with hY | hW
    · exact (h.before l (List.mem_append_left _ hY) p hp).of_sublist hsub
    · rcases List.mem_cons.mp hW with rfl | hW
      · cases hp
      · exact (h.before l (List.mem_append_right _ hW) p hp).of_sublist hsub

variable [DecidableEq κ]

/-- Two lines outside a run keep their order without it. -/
theorem Before.without (hnd : ((X ++ (M ++ Z)).map Line.key).Nodup) {a b : κ}
    (h : Before ((X ++ (M ++ Z)).map Line.key) a b) (ha : a ∉ M.map Line.key)
    (hb : b ∉ M.map Line.key) : Before ((X ++ Z).map Line.key) a b := by
  have hfilter : ((X ++ (M ++ Z)).map Line.key).filter (fun k => k ∉ M.map Line.key) =
      (X ++ Z).map Line.key := by
    simp only [List.map_append] at hnd ⊢
    obtain ⟨-, hMZ, hX⟩ := List.nodup_append.mp hnd
    obtain ⟨-, -, hM⟩ := List.nodup_append.mp hMZ
    have hX' : (X.map Line.key).filter (fun k => k ∉ M.map Line.key) = X.map Line.key := by
      rw [List.filter_eq_self]
      intro k hk
      rw [decide_eq_true_iff]
      exact fun hkM => hX k hk k (List.mem_append_left _ hkM) rfl
    have hZ' : (Z.map Line.key).filter (fun k => k ∉ M.map Line.key) = Z.map Line.key := by
      rw [List.filter_eq_self]
      intro k hk
      rw [decide_eq_true_iff]
      exact fun hkM => hM k hkM k hk rfl
    have hM' : (M.map Line.key).filter (fun k => k ∉ M.map Line.key) = [] := by
      rw [List.filter_eq_nil_iff]
      intro k hk
      simpa using hk
    rw [List.filter_append, List.filter_append, hX', hZ', hM', List.nil_append]
  rw [← hfilter]
  exact h.filter (by simpa using ha) (by simpa using hb)

/-- A line goes; the lines of a run behind it that hang at it go up. -/
theorem parentsFirst_hoist_iff {B C : List (Line κ)} {l : Line κ}
    (h : ParentsFirst (X ++ l :: (B ++ C))) :
    ParentsFirst (X ++ ((B.map fun r => if r.parent = some l.key then { r with parent := l.parent }
      else r) ++ C)) ↔ ∀ r ∈ C, r.parent ≠ some l.key := by
  set hoisted := B.map fun r => if r.parent = some l.key then { r with parent := l.parent } else r
    with hhoisted
  have hkeys : hoisted.map Line.key = B.map Line.key := by
    rw [hhoisted, List.map_map]
    apply List.map_congr_left
    intro r _
    rw [Function.comp_apply]
    split <;> rfl
  have hnd : ((X ++ ([l] ++ (B ++ C))).map Line.key).Nodup := h.nodup
  have hrest : ((X ++ (B ++ C)).map Line.key).Nodup ∧ l.key ∉ (X ++ (B ++ C)).map Line.key := by
    have hperm : ((X ++ l :: (B ++ C)).map Line.key).Perm
        (l.key :: (X ++ (B ++ C)).map Line.key) := by
      simp only [List.map_append, List.map_cons]
      exact List.perm_middle
    exact (List.nodup_cons.mp (hperm.nodup_iff.mp h.nodup)).symm
  have hsame : (X ++ (hoisted ++ C)).map Line.key = (X ++ (B ++ C)).map Line.key := by
    simp only [List.map_append, hkeys]
  -- a line with another parent keeps it in front
  have hkept {r : Line κ} (hr : r ∈ X ++ (B ++ C)) {p : κ} (hp : p ∈ r.parent) (hne : p ≠ l.key) :
      Before ((X ++ (B ++ C)).map Line.key) p r.key := by
    have hr' : r ∈ X ++ l :: (B ++ C) := by
      simp only [List.mem_append, List.mem_cons] at hr ⊢
      tauto
    refine Before.without hnd (h.before r hr' p hp) (by simpa using hne) ?_
    rw [List.map_singleton, List.mem_singleton]
    exact fun heq => hrest.2 (heq ▸ List.mem_map_of_mem hr)
  constructor
  · intro hnew r hr hparent
    have hmem := hnew.parent_mem (List.mem_append_right _ (List.mem_append_right _ hr)) hparent
    rw [hsame] at hmem
    exact hrest.2 hmem
  · intro hC
    refine ⟨hsame ▸ hrest.1, fun r hr p hp => ?_⟩
    rw [hsame]
    rcases List.mem_append.mp hr with hX | hr
    · refine hkept (List.mem_append_left _ hX) hp fun heq => ?_
      -- a line in front of its parent
      obtain ⟨X₁, X₂, rfl⟩ := List.append_of_mem hX
      have hfront := h.parent_front (X := X₁) (l := r) (List.append_assoc _ _ _) hp
      refine hrest.2 (heq ▸ ?_)
      simp only [List.map_append, List.mem_append] at hfront ⊢
      exact Or.inl (Or.inl hfront)
    · rcases List.mem_append.mp hr with hB | hrC
      · obtain ⟨r', hr', rfl⟩ := List.mem_map.mp hB
        have hmem : r' ∈ X ++ (B ++ C) := List.mem_append_right _ (List.mem_append_left _ hr')
        by_cases heq : r'.parent = some l.key
        · rw [if_pos heq] at hp ⊢
          have hfront := h.parent_front rfl hp
          rw [List.map_append]
          exact before_append hfront (List.mem_map.mpr ⟨r', List.mem_append_left _ hr', rfl⟩)
        · rw [if_neg heq] at hp ⊢
          exact hkept hmem hp fun hpl => heq (hpl ▸ hp)
      · have hmem : r ∈ X ++ (B ++ C) := List.mem_append_right _ (List.mem_append_right _ hrC)
        exact hkept hmem hp fun hpl => hC r hrC (hpl ▸ hp)

omit [DecidableEq κ] in
/-- In a run the parents that are in the run come first. -/
theorem ParentsFirst.before_in_run {X T Z : List (Line κ)} {l r : Line κ}
    (h : ParentsFirst (X ++ (l :: T ++ Z))) (hr : r ∈ T) {p : κ} (hp : p ∈ r.parent)
    (hmem : p ∈ l.key :: T.map Line.key) : Before (l.key :: T.map Line.key) p r.key := by
  obtain ⟨T₁, T₂, rfl⟩ := List.append_of_mem hr
  have hfront := h.parent_front (X := X ++ l :: T₁) (l := r) (Z := T₂ ++ Z) (by simp) hp
  have hpX : p ∉ X.map Line.key := by
    intro hpX
    have hnodup := h.nodup
    rw [List.map_append, List.nodup_append] at hnodup
    refine hnodup.2.2 p hpX p ?_ rfl
    rw [List.map_append, List.map_cons]
    exact List.mem_append_left _ hmem
  rw [List.map_append, List.mem_append] at hfront
  rw [List.map_append, ← List.cons_append]
  exact before_append (hfront.resolve_left hpX) List.mem_cons_self

/-- **A run of lines that goes to another place, the first of them with a new parent**: the lines
of the run hang at each other or in front of the place, and nothing in front of the place hangs at
them. -/
theorem parentsFirst_relocate_iff {k : κ} {old q : Option κ}
    (h : ParentsFirst (X ++ (⟨k, old⟩ :: T ++ Z))) (hYW : Y ++ W = X ++ Z) :
    ParentsFirst (Y ++ (⟨k, q⟩ :: T ++ W)) ↔
      (∀ p ∈ q, p ∈ Y.map Line.key) ∧
      (∀ r ∈ T, ∀ p ∈ r.parent, p ∈ k :: T.map Line.key ∨ p ∈ Y.map Line.key) ∧
      ∀ r ∈ Y, ∀ p ∈ r.parent, p ∉ k :: T.map Line.key := by
  have hperm : ((Y ++ (⟨k, q⟩ :: T ++ W)).map Line.key).Perm
      ((X ++ (⟨k, old⟩ :: T ++ Z)).map Line.key) := by
    have hcount := fun a => congrArg (fun l => (l.map Line.key).count a) hYW
    rw [List.perm_iff_count]
    intro a
    have := hcount a
    simp only [List.map_append, List.map_cons, List.count_append, List.count_cons,
      List.cons_append] at this ⊢
    omega
  have hnd : ((Y ++ (⟨k, q⟩ :: T ++ W)).map Line.key).Nodup := hperm.nodup_iff.mpr h.nodup
  have hkeys : (Y.map Line.key ++ (k :: T.map Line.key ++ W.map Line.key)).Nodup := by
    simpa using hnd
  obtain ⟨-, hMW, hY⟩ := List.nodup_append.mp hkeys
  obtain ⟨-, -, hM⟩ := List.nodup_append.mp hMW
  -- outside the run the order is the old one
  have hkept {r : Line κ} (hr : r ∈ Y ++ W) {p : κ} (hp : p ∈ r.parent)
      (hpM : p ∉ k :: T.map Line.key) : Before ((Y ++ W).map Line.key) p r.key := by
    have hr' : r ∈ X ++ (⟨k, old⟩ :: T ++ Z) := by
      rw [hYW] at hr
      simp only [List.mem_append] at hr ⊢
      tauto
    have hrM : r.key ∉ k :: T.map Line.key := by
      intro hmem
      rcases List.mem_append.mp hr with hrY | hrW
      · exact hY _ (List.mem_map_of_mem hrY) _ (List.mem_append_left _ hmem) rfl
      · exact hM _ hmem _ (List.mem_map_of_mem hrW) rfl
    rw [hYW]
    exact Before.without h.nodup (h.before r hr' p hp) (by simpa using hpM) (by simpa using hrM)
  constructor
  · intro hnew
    refine ⟨fun p hp => hnew.parent_front rfl hp, fun r hr p hp => ?_, fun r hr p hp hpM => ?_⟩
    · obtain ⟨T₁, T₂, rfl⟩ := List.append_of_mem hr
      have hfront := hnew.parent_front (X := Y ++ ⟨k, q⟩ :: T₁) (Z := T₂ ++ W) (by simp) hp
      simp only [List.map_append, List.map_cons, List.mem_append, List.mem_cons] at hfront ⊢
      tauto
    · obtain ⟨Y₁, Y₂, rfl⟩ := List.append_of_mem hr
      have hfront := hnew.parent_front (X := Y₁) (l := r) (List.append_assoc _ _ _) hp
      refine hY p ?_ p (List.mem_append_left _ hpM) rfl
      rw [List.map_append]
      exact List.mem_append_left _ hfront
  · rintro ⟨hq, hT, hY'⟩
    refine ⟨hnd, fun r hr p hp => ?_⟩
    have hsub : ((Y ++ W).map Line.key).Sublist ((Y ++ (⟨k, q⟩ :: T ++ W)).map Line.key) :=
      ((List.Sublist.refl Y).append (List.sublist_append_right _ W)).map _
    rcases List.mem_append.mp hr with hrY | hr
    · exact (hkept (List.mem_append_left _ hrY) hp (hY' r hrY p hp)).of_sublist hsub
    · rcases List.mem_append.mp hr with hrM | hrW
      · have hin : r.key ∈ (⟨k, q⟩ :: T ++ W).map Line.key := List.mem_map_of_mem hr
        rcases List.mem_cons.mp hrM with rfl | hrT
        · rw [List.map_append]
          exact before_append (hq p hp) hin
        · rcases hT r hrT p hp with hpM | hpY
          · -- both in the run
            have hbefore := h.before_in_run hrT hp hpM
            refine hbefore.of_sublist ?_
            simp only [List.map_append, List.map_cons]
            exact (List.sublist_append_left _ _).trans (List.sublist_append_right _ _)
          · rw [List.map_append]
            exact before_append hpY hin
      · by_cases hpM : p ∈ k :: T.map Line.key
        · simp only [List.map_append, List.map_cons]
          have hbefore : Before (k :: T.map Line.key ++ W.map Line.key) p r.key :=
            before_append hpM (List.mem_map_of_mem hrW)
          exact hbefore.of_sublist (List.sublist_append_right _ _)
        · exact (hkept (List.mem_append_right _ hrW) hp hpM).of_sublist hsub

end Edits

end Axan.Base.Forest
