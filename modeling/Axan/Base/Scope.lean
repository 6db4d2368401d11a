import Axan.Base.Forest

/-!
# Edits at one scope of a forest

Nodes are told apart by a key, and a scope is named by the key of the node that owns it, or by
`none` for the top level.

* `modifyIn` — edit the container of a scope; `insertIn` inserts a leaf.
* `locate` — the container and the index a node is at, roots first; `promote` takes the node out
  there and puts its children in its place. `promote_eq_contract` says that this is a contraction.
* `childrenIn` — the children of a scope in order. `childrenIn_insertIn` and `childrenIn_settle`
  say what the edits do to every scope.
* `traverse` — pre-order from the children of the scopes alone (`preorder_eq_traverse`).
-/

set_option linter.unusedSectionVars false

namespace Axan.Base.Forest

variable {α κ : Type} [DecidableEq κ] (key : α → κ)

/-! ### Scopes -/

/-- The keys in pre-order. -/
def keys (F : Forest α) : List κ := (preorder F).map key

/-- What hangs under a node. -/
def childrenOf (k : κ) : Forest α → Option (Forest α)
  | nil => none
  | node a c s => if key a = k then some c else (childrenOf k c).or (childrenOf k s)

/-- The container of a scope. -/
def container (q : Option κ) (F : Forest α) : Option (Forest α) :=
  match q with
  | none => some F
  | some k => childrenOf key k F

/-- Edit what hangs under a node. -/
def modifyAt (k : κ) (f : Forest α → Forest α) : Forest α → Forest α
  | nil => nil
  | node a c s => if key a = k then node a (f c) s else node a (modifyAt k f c) (modifyAt k f s)

/-- Edit the container of a scope. -/
def modifyIn (q : Option κ) (f : Forest α → Forest α) (F : Forest α) : Forest α :=
  match q with
  | none => f F
  | some k => modifyAt key k f F

/-- Insert a leaf into a container. -/
def insertLeaf (i : ℕ) (n : α) (F : Forest α) : Forest α := ofTrees ((trees F).insertIdx i (n, nil))

/-- Insert a leaf into the container of a scope. -/
def insertIn (q : Option κ) (i : ℕ) (n : α) (F : Forest α) : Forest α :=
  modifyIn key q (insertLeaf i n) F

/-- The children of scope `q` in order, where `up` is the scope of the top level. -/
def childrenIn (q up : Option κ) : Forest α → List α
  | nil => []
  | node a c s =>
      (if up = q then [a] else []) ++ (childrenIn q (some (key a)) c ++ childrenIn q up s)

variable {key}

theorem keys_node {a : α} {c s : Forest α} :
    keys key (node a c s) = key a :: (keys key c ++ keys key s) := by
  simp [keys, preorder]

/-- The key of a node is one of the forest. -/
theorem mem_keys_of_mem {F : Forest α} {a : α} (h : a ∈ preorder F) : key a ∈ keys key F :=
  List.mem_map_of_mem h

/-- No node of the forest owns the scope. -/
def Foreign (key : α → κ) (q : Option κ) (F : Forest α) : Prop := ∀ k ∈ keys key F, some k ≠ q

/-- The roots' scope is below no node. -/
theorem foreign_none (F : Forest α) : Foreign key none F := fun _ _ h => by cases h

/-- A scope is foreign when its node is not in the forest. -/
theorem foreign_some {k : κ} {F : Forest α} : Foreign key (some k) F ↔ k ∉ keys key F := by
  constructor
  · intro h hk
    exact h k hk rfl
  · intro h j hj hjk
    exact h (Option.some.inj hjk ▸ hj)

theorem foreign_node {q : Option κ} {a : α} {c s : Forest α} :
    Foreign key q (node a c s) ↔ some (key a) ≠ q ∧ Foreign key q c ∧ Foreign key q s := by
  simp only [Foreign, keys_node, List.forall_mem_cons, List.forall_mem_append]

/-- What distinct keys mean at a node. -/
theorem nodup_node {a : α} {c s : Forest α} (h : (keys key (node a c s)).Nodup) :
    (Foreign key (some (key a)) c ∧ Foreign key (some (key a)) s) ∧
      (keys key c).Nodup ∧ (keys key s).Nodup ∧ (keys key c).Disjoint (keys key s) := by
  rw [keys_node, List.nodup_cons, List.nodup_append'] at h
  simp only [List.mem_append, not_or] at h
  exact ⟨⟨foreign_some.mpr h.1.1, foreign_some.mpr h.1.2⟩, h.2⟩

/-- A foreign scope has no children here. -/
theorem childrenIn_of_foreign {q up : Option κ} {F : Forest α} (hup : up ≠ q)
    (h : Foreign key q F) : childrenIn key q up F = [] := by
  induction F generalizing up with
  | nil => rfl
  | node a c s ihc ihs =>
      obtain ⟨ha, hc, hs⟩ := foreign_node.mp h
      rw [childrenIn, if_neg hup, ihc ha hc, ihs hup hs]
      rfl

/-- The children of the scope of the top level are the roots. -/
theorem childrenIn_self {up : Option κ} {F : Forest α} (h : Foreign key up F) :
    childrenIn key up up F = roots F := by
  induction F with
  | nil => rfl
  | node a c s _ ihs =>
      obtain ⟨ha, hc, hs⟩ := foreign_node.mp h
      rw [childrenIn, if_pos rfl, childrenIn_of_foreign ha hc, ihs hs]
      rfl

/-- A child is a node. -/
theorem mem_preorder_of_mem_childrenIn {q up : Option κ} {F : Forest α} {a : α}
    (h : a ∈ childrenIn key q up F) : a ∈ preorder F := by
  induction F generalizing up with
  | nil => cases h
  | node b c s ihc ihs =>
      simp only [childrenIn, List.mem_append] at h
      rw [preorder, List.mem_cons, List.mem_append]
      rcases h with h | h | h
      · split at h
        · exact Or.inl (List.mem_singleton.mp h)
        · cases h
      · exact Or.inr (Or.inl (ihc h))
      · exact Or.inr (Or.inr (ihs h))

/-! ### Inserting a leaf -/

theorem insertLeaf_zero (n : α) (F : Forest α) : insertLeaf 0 n F = node n nil F := by
  rw [insertLeaf, List.insertIdx_zero, ofTrees, ofTrees_trees]

theorem insertLeaf_succ_node (i : ℕ) (n a : α) (c s : Forest α) :
    insertLeaf (i + 1) n (node a c s) = node a c (insertLeaf i n s) := by
  rw [insertLeaf, trees, List.insertIdx_succ_cons, ofTrees, insertLeaf]

/-- The leaf is inserted among the roots. -/
theorem roots_insertLeaf (i : ℕ) (n : α) (F : Forest α) :
    roots (insertLeaf i n F) = (roots F).insertIdx i n := by
  rw [roots_eq_map, roots_eq_map, insertLeaf, trees_ofTrees, List.map_insertIdx]

/-- The other scopes have the children they had. -/
theorem childrenIn_insertLeaf {q up : Option κ} (hup : up ≠ q) (i : ℕ) (n : α) (F : Forest α) :
    childrenIn key q up (insertLeaf i n F) = childrenIn key q up F := by
  induction F generalizing i with
  | nil =>
      cases i with
      | zero => simp [insertLeaf_zero, childrenIn, hup]
      | succ i => rfl
  | node a c s _ ihs =>
      cases i with
      | zero => simp [insertLeaf_zero, childrenIn, hup]
      | succ i => rw [insertLeaf_succ_node, childrenIn, childrenIn, ihs]

/-- Inserting a leaf adds its node. -/
theorem preorder_insertLeaf {i : ℕ} (n : α) {F : Forest α} (h : i ≤ (roots F).length) :
    (preorder (insertLeaf i n F)).Perm (n :: preorder F) := by
  induction F generalizing i with
  | nil =>
      obtain rfl : i = 0 := by simpa [roots] using h
      exact List.Perm.refl _
  | node a c s _ ihs =>
      cases i with
      | zero =>
          rw [insertLeaf_zero]
          exact List.Perm.refl _
      | succ i =>
          rw [insertLeaf_succ_node]
          have hs := ihs (i := i) (by simpa [roots] using h)
          have h₁ := (hs.append_left (preorder c)).cons a
          have h₂ : (a :: (preorder c ++ n :: preorder s)).Perm
              (n :: a :: (preorder c ++ preorder s)) :=
            (List.perm_middle.cons a).trans (List.Perm.swap n a _)
          exact h₁.trans h₂

/-- A scope stays foreign, when it is not the leaf's. -/
theorem foreign_insertLeaf {i : ℕ} {n : α} {q : Option κ} {F : Forest α}
    (h : i ≤ (roots F).length) (hn : some (key n) ≠ q) (hF : Foreign key q F) :
    Foreign key q (insertLeaf i n F) := by
  intro k hk
  have hk' := ((preorder_insertLeaf n h).map key).mem_iff.mp hk
  rcases List.mem_cons.mp hk' with rfl | hk'
  · exact hn
  · exact hF k hk'

/-- Changing a node that is not there changes nothing. -/
theorem modifyAt_of_not_mem {k : κ} {f : Forest α → Forest α} {F : Forest α}
    (h : k ∉ keys key F) : modifyAt key k f F = F := by
  induction F with
  | nil => rfl
  | node a c s ihc ihs =>
      rw [keys_node, List.mem_cons, List.mem_append, not_or, not_or] at h
      rw [modifyAt, if_neg (Ne.symm h.1), ihc h.2.1, ihs h.2.2]

/-- A change below a node that keeps the children of a scope. -/
theorem childrenIn_modifyAt_ne {k : κ} {f : Forest α → Forest α} {q up : Option κ}
    (hf : ∀ c, childrenIn key q (some k) (f c) = childrenIn key q (some k) c) (F : Forest α) :
    childrenIn key q up (modifyAt key k f F) = childrenIn key q up F := by
  induction F generalizing up with
  | nil => rfl
  | node a c s ihc ihs =>
      rw [modifyAt]
      by_cases ha : key a = k
      · rw [if_pos ha, childrenIn, childrenIn, ha, hf]
      · rw [if_neg ha, childrenIn, childrenIn, ihc, ihs]

/-- The container of a scope that is in the forest. -/
theorem exists_childrenOf {k : κ} {F : Forest α} (h : k ∈ keys key F) :
    ∃ c, childrenOf key k F = some c := by
  induction F with
  | nil => cases h
  | node a c s ihc ihs =>
      rw [childrenOf]
      by_cases ha : key a = k
      · exact ⟨c, if_pos ha⟩
      · rw [if_neg ha]
        rw [keys_node, List.mem_cons, List.mem_append] at h
        rcases h with h | h | h
        · exact absurd h.symm ha
        · obtain ⟨d, hd⟩ := ihc h
          exact ⟨d, by rw [hd]; rfl⟩
        · obtain ⟨d, hd⟩ := ihs h
          cases hc : childrenOf key k c with
          | none => exact ⟨d, by rw [hd]; rfl⟩
          | some e => exact ⟨e, rfl⟩

/-- What has children is there. -/
theorem mem_keys_of_childrenOf {k : κ} {F c : Forest α} (h : childrenOf key k F = some c) :
    k ∈ keys key F := by
  induction F with
  | nil => cases h
  | node a d s ihd ihs =>
      rw [childrenOf] at h
      rw [keys_node, List.mem_cons, List.mem_append]
      by_cases ha : key a = k
      · exact Or.inl ha.symm
      · rw [if_neg ha, Option.or_eq_some_iff] at h
        rcases h with h | ⟨-, h⟩
        · exact Or.inr (Or.inl (ihd h))
        · exact Or.inr (Or.inr (ihs h))

/-- An edit under a node shows in the children of its scope. -/
theorem childrenIn_modifyAt_self {k : κ} {f : Forest α → Forest α} {up : Option κ}
    {F c : Forest α} (hF : (keys key F).Nodup) (hup : up ≠ some k)
    (h : childrenOf key k F = some c) :
    childrenIn key (some k) up (modifyAt key k f F) = childrenIn key (some k) (some k) (f c) := by
  induction F generalizing up with
  | nil => cases h
  | node a d s ihd ihs =>
      obtain ⟨⟨had, has⟩, hd, hs, hdisj⟩ := nodup_node hF
      rw [childrenOf] at h
      rw [modifyAt]
      by_cases ha : key a = k
      · subst ha
        rw [if_pos rfl, Option.some.injEq] at h
        subst h
        rw [if_pos rfl, childrenIn, if_neg hup, childrenIn_of_foreign hup has]
        simp
      · have hka : some (key a) ≠ some k := fun h => ha (Option.some.inj h)
        rw [if_neg ha, Option.or_eq_some_iff] at h
        rw [if_neg ha, childrenIn, if_neg hup]
        rcases h with h | ⟨h₀, h⟩
        · have hks : k ∉ keys key s := fun hk => hdisj (mem_keys_of_childrenOf h) hk
          rw [ihd hd hka h, modifyAt_of_not_mem hks,
            childrenIn_of_foreign hup (foreign_some.mpr hks)]
          simp
        · have hkd : k ∉ keys key d := fun hk => hdisj hk (mem_keys_of_childrenOf h)
          rw [ihs hs hup h, modifyAt_of_not_mem hkd,
            childrenIn_of_foreign hka (foreign_some.mpr hkd)]
          rfl

/-- A scope that is there: the top level, or the children of a node. -/
def Present (key : α → κ) (q : Option κ) (F : Forest α) : Prop := ∀ k, q = some k → k ∈ keys key F

/-- The roots' scope is always there. -/
theorem present_none (F : Forest α) : Present key none F := fun _ h => by cases h

theorem modifyAt_id (k : κ) (F : Forest α) : modifyAt key k id F = F := by
  induction F with
  | nil => rfl
  | node a c s ihc ihs => rw [modifyAt, ihc, ihs, id, ite_self]

/-- A node is not below itself. -/
theorem foreign_childrenOf {k : κ} {F c : Forest α} (hF : (keys key F).Nodup)
    (h : childrenOf key k F = some c) : Foreign key (some k) c := by
  induction F with
  | nil => cases h
  | node a d s ihd ihs =>
      obtain ⟨⟨had, -⟩, hd, hs, -⟩ := nodup_node hF
      rw [childrenOf] at h
      by_cases ha : key a = k
      · subst ha
        rw [if_pos rfl, Option.some.injEq] at h
        exact h ▸ had
      · rw [if_neg ha, Option.or_eq_some_iff] at h
        rcases h with h | ⟨-, h⟩
        · exact ihd hd h
        · exact ihs hs h

/-- The children of a node are the roots below it. -/
theorem childrenOf_roots {k : κ} {up : Option κ} {F c : Forest α} (hF : (keys key F).Nodup)
    (hup : up ≠ some k) (h : childrenOf key k F = some c) :
    childrenIn key (some k) up F = roots c := by
  have hself := childrenIn_modifyAt_self (f := id) hF hup h
  rwa [modifyAt_id, id, childrenIn_self (foreign_childrenOf hF h)] at hself

/-- The container of a scope holds the children of the scope. -/
theorem container_roots {q : Option κ} {F c : Forest α} (hF : (keys key F).Nodup)
    (h : container key q F = some c) : childrenIn key q none F = roots c := by
  cases q with
  | none =>
      cases h
      exact childrenIn_self (foreign_none F)
  | some k => exact childrenOf_roots hF (by simp) h

/-- **What inserting a leaf does to every scope.** -/
theorem childrenIn_insertIn {p q : Option κ} {i : ℕ} {n : α} {F : Forest α}
    (hF : (keys key F).Nodup) (hn : key n ∉ keys key F) (hp : Present key p F)
    (hi : i ≤ (childrenIn key p none F).length) :
    childrenIn key q none (insertIn key p i n F) =
      if q = p then (childrenIn key p none F).insertIdx i n else childrenIn key q none F := by
  have hins : ∀ (r : Option κ) (c : Forest α), r ≠ some (key n) → Foreign key r c →
      i ≤ (roots c).length → childrenIn key r r (insertLeaf i n c) = (roots c).insertIdx i n := by
    intro r c hr hc hlen
    rw [childrenIn_self (foreign_insertLeaf hlen (Ne.symm hr) hc), roots_insertLeaf]
  by_cases hq : q = p
  · subst hq
    rw [if_pos rfl]
    cases q with
    | none =>
        rw [childrenIn_self (foreign_none F)] at hi ⊢
        exact hins none F (by simp) (foreign_none F) hi
    | some k =>
        have hk := hp k rfl
        have hkn : some k ≠ some (key n) := by
          rintro ⟨⟩
          exact hn hk
        obtain ⟨c, hc⟩ := exists_childrenOf hk
        rw [childrenOf_roots hF (by simp) hc] at hi ⊢
        rw [insertIn, modifyIn, childrenIn_modifyAt_self hF (by simp) hc]
        exact hins _ c hkn (foreign_childrenOf hF hc) hi
  · rw [if_neg hq]
    cases p with
    | none => exact childrenIn_insertLeaf (Ne.symm hq) i n F
    | some k => exact childrenIn_modifyAt_ne (fun c => childrenIn_insertLeaf (Ne.symm hq) i n c) F

/-- One more node below a node is one more node. -/
theorem preorder_modifyAt {k : κ} {f : Forest α → Forest α} {n : α} {F c : Forest α}
    (hF : (keys key F).Nodup) (h : childrenOf key k F = some c)
    (hf : (preorder (f c)).Perm (n :: preorder c)) :
    (preorder (modifyAt key k f F)).Perm (n :: preorder F) := by
  induction F with
  | nil => cases h
  | node a d s ihd ihs =>
      obtain ⟨-, hd, hs, hdisj⟩ := nodup_node hF
      rw [childrenOf] at h
      rw [modifyAt, preorder]
      by_cases ha : key a = k
      · rw [if_pos ha, Option.some.injEq] at h
        subst h
        rw [if_pos ha, preorder]
        exact ((hf.append_right _).cons a).trans (List.Perm.swap n a _)
      · rw [if_neg ha, Option.or_eq_some_iff] at h
        rw [if_neg ha, preorder]
        rcases h with h | ⟨-, h⟩
        · have hks : k ∉ keys key s := fun hk => hdisj (mem_keys_of_childrenOf h) hk
          rw [modifyAt_of_not_mem hks]
          exact (((ihd hd h).append_right _).cons a).trans (List.Perm.swap n a _)
        · have hkd : k ∉ keys key d := fun hk => hdisj hk (mem_keys_of_childrenOf h)
          rw [modifyAt_of_not_mem hkd]
          exact ((((ihs hs h).append_left _).trans List.perm_middle).cons a).trans
            (List.Perm.swap n a _)

/-- Inserting a leaf adds one node. -/
theorem preorder_insertIn {p : Option κ} {i : ℕ} {n : α} {F : Forest α} (hF : (keys key F).Nodup)
    (hp : Present key p F) (hi : i ≤ (childrenIn key p none F).length) :
    (preorder (insertIn key p i n F)).Perm (n :: preorder F) := by
  cases p with
  | none =>
      rw [childrenIn_self (foreign_none F)] at hi
      exact preorder_insertLeaf n hi
  | some k =>
      obtain ⟨c, hc⟩ := exists_childrenOf (hp k rfl)
      rw [childrenOf_roots hF (by simp) hc] at hi
      exact preorder_modifyAt hF hc (preorder_insertLeaf n hi)

/-! ### What an inserted leaf leaves alone -/

section

variable {p : α → Bool} {n : α} (hn : p n = false)

include hn

/-- A leaf that a filter drops does not show in the outline. -/
theorem outline_insertLeaf_filter (i : ℕ) (up : List α) (F : Forest α) :
    (outline up (insertLeaf i n F)).filter (fun r => p r.1) =
      (outline up F).filter fun r => p r.1 := by
  induction F generalizing i with
  | nil =>
      cases i with
      | zero => simp [insertLeaf_zero, outline, hn]
      | succ i => rfl
  | node a c s _ ihs =>
      cases i with
      | zero => simp [insertLeaf_zero, outline, hn]
      | succ i =>
          rw [insertLeaf_succ_node]
          simp only [outline, List.filter_cons, List.filter_append, ihs]

/-- The other nodes stay where they are, under the same ancestors. -/
theorem outline_insertIn_filter (q : Option κ) (i : ℕ) (up : List α) (F : Forest α) :
    (outline up (insertIn key q i n F)).filter (fun r => p r.1) =
      (outline up F).filter fun r => p r.1 := by
  cases q with
  | none => exact outline_insertLeaf_filter hn i up F
  | some k =>
      show (outline up (modifyAt key k (insertLeaf i n) F)).filter _ = _
      induction F generalizing up with
      | nil => rfl
      | node a c s ihc ihs =>
          rw [modifyAt]
          split
          · simp only [outline, List.filter_cons, List.filter_append,
              outline_insertLeaf_filter hn i (a :: up) c]
          · simp only [outline, List.filter_cons, List.filter_append, ihc, ihs]

end

/-! ### Promoting children -/

/-- The search of `locate` in the children of the roots. -/
def locateBelow (key : α → κ) (k : κ) : Forest α → Option (Option κ × ℕ)
  | nil => none
  | node a c s =>
      match (roots c).findIdx? fun b => key b = k with
      | some i => some (some (key a), i)
      | none => (locateBelow key k c).or (locateBelow key k s)

/-- The container a node is in and its index there: the top level first, then every tree. -/
def locate (key : α → κ) (k : κ) (F : Forest α) : Option (Option κ × ℕ) :=
  match (roots F).findIdx? fun b => key b = k with
  | some i => some (none, i)
  | none => locateBelow key k F

/-- Take out the tree at an index and put its children in its place. -/
def promoteAt (i : ℕ) (F : Forest α) : Forest α :=
  match (trees F)[i]? with
  | none => F
  | some t => (((removeAt (trees F) i).bind (insertRun i (trees t.2))).map ofTrees).getD F

/-- Remove a node; its children take its place. -/
def promote (key : α → κ) (k : κ) (F : Forest α) : Forest α :=
  match locate key k F with
  | none => F
  | some (q, i) => modifyIn key q (promoteAt i) F

theorem promoteAt_zero (a : α) (c s : Forest α) : promoteAt 0 (node a c s) = c ++ s := by
  have h : insertRun 0 (trees c) (trees s) = some (trees c ++ trees s) :=
    insertRun_eq (Nat.zero_le _)
  simp only [promoteAt, trees, List.getElem?_cons_zero, removeAt, List.length_cons,
    Nat.zero_lt_succ, if_true, Option.bind_some, List.eraseIdx_cons_zero, h, Option.map_some,
    Option.getD_some, ofTrees_append, ofTrees_trees]

theorem promoteAt_succ (i : ℕ) (a : α) (c s : Forest α) :
    promoteAt (i + 1) (node a c s) = node a c (promoteAt i s) := by
  simp only [promoteAt, trees, List.getElem?_cons_succ]
  cases ht : (trees s)[i]? with
  | none => rfl
  | some t =>
      have hi : i < (trees s).length := (List.getElem?_eq_some_iff.mp ht).1
      have hlen : i ≤ ((trees s).eraseIdx i).length := by
        rw [List.length_eraseIdx_of_lt hi]
        omega
      have h₁ : insertRun i (trees t.2) ((trees s).eraseIdx i) = some _ := insertRun_eq hlen
      have h₂ : insertRun (i + 1) (trees t.2) ((a, c) :: (trees s).eraseIdx i) = some _ :=
        insertRun_eq (by simpa using hlen)
      simp only [removeAt, List.length_cons, Nat.succ_lt_succ hi, hi, if_true, Option.bind_some,
        List.eraseIdx_cons_succ, h₁, h₂, Option.map_some, Option.getD_some, List.take_succ_cons,
        List.drop_succ_cons, List.cons_append, ofTrees]

/-- Contracting a node that is not there changes nothing. -/
theorem contract_ne_of_not_mem {k : κ} {F : Forest α} (h : k ∉ keys key F) :
    contract (fun a => key a ≠ k) F = F := by
  apply contract_eq_self
  intro a ha
  simp only [ne_eq, decide_not, Bool.not_eq_true', decide_eq_false_iff_not]
  exact fun hak => h (hak ▸ mem_keys_of_mem ha)

/-- A root that has an index is there. -/
theorem mem_keys_of_findIdx? {k : κ} {i : ℕ} {F : Forest α}
    (h : ((roots F).findIdx? fun b => key b = k) = some i) : k ∈ keys key F := by
  obtain ⟨hi, hk, -⟩ := List.findIdx?_eq_some_iff_getElem.mp h
  have hmem : key ((roots F)[i]) ∈ keys key F :=
    mem_keys_of_mem (mem_preorder_of_mem_roots (List.getElem_mem hi))
  rwa [of_decide_eq_true hk] at hmem

/-- Promoting the children of a root contracts it. -/
theorem promoteAt_eq_contract {k : κ} {i : ℕ} {F : Forest α} (hF : (keys key F).Nodup)
    (h : ((roots F).findIdx? fun b => key b = k) = some i) :
    promoteAt i F = contract (fun a => key a ≠ k) F := by
  induction F generalizing i with
  | nil => cases h
  | node a c s _ ihs =>
      obtain ⟨⟨hac, has⟩, -, hs, hdisj⟩ := nodup_node hF
      rw [roots, List.findIdx?_cons] at h
      by_cases ha : key a = k
      · subst ha
        simp only [decide_true, if_true, Option.some.injEq] at h
        subst h
        rw [promoteAt_zero, contract, if_neg (by simp), contract_ne_of_not_mem (foreign_some.mp hac),
          contract_ne_of_not_mem (foreign_some.mp has)]
      · simp only [ha, decide_false, Bool.false_eq_true, if_false, Option.map_eq_some_iff] at h
        obtain ⟨j, hj, rfl⟩ := h
        have hkc : k ∉ keys key c := fun h => hdisj h (mem_keys_of_findIdx? hj)
        rw [promoteAt_succ, ihs hs hj, contract, if_pos (by simpa using ha),
          contract_ne_of_not_mem hkc]

/-- What is located below the roots has its parent there, and promoting there contracts it. -/
theorem locateBelow_eq_some {k : κ} {r : Option κ × ℕ} {F : Forest α} (hF : (keys key F).Nodup)
    (h : locateBelow key k F = some r) :
    ∃ p, r.1 = some p ∧ p ∈ keys key F ∧ k ∈ keys key F ∧
      modifyAt key p (promoteAt r.2) F = contract (fun a => key a ≠ k) F := by
  induction F with
  | nil => cases h
  | node a c s ihc ihs =>
      obtain ⟨⟨hac, has⟩, hc, hs, hdisj⟩ := nodup_node hF
      have hkey : ∀ j, j ∈ keys key c ∨ j ∈ keys key s → key a ≠ j := by
        rintro j (hj | hj) rfl
        · exact foreign_some.mp hac hj
        · exact foreign_some.mp has hj
      simp only [keys_node, List.mem_cons, List.mem_append]
      rw [locateBelow] at h
      cases hi : (roots c).findIdx? fun b => key b = k with
      | some i =>
          rw [hi, Option.some.injEq] at h
          subst h
          have hk := mem_keys_of_findIdx? hi
          refine ⟨key a, rfl, Or.inl rfl, Or.inr (Or.inl hk), ?_⟩
          rw [modifyAt, if_pos rfl, promoteAt_eq_contract hc hi, contract,
            if_pos (by simpa using hkey k (Or.inl hk)),
            contract_ne_of_not_mem (F := s) fun h => hdisj hk h]
      | none =>
          rw [hi] at h
          rcases Option.or_eq_some_iff.mp h with h | ⟨-, h⟩
          · obtain ⟨p, hr, hp, hk, heq⟩ := ihc hc h
            refine ⟨p, hr, Or.inr (Or.inl hp), Or.inr (Or.inl hk), ?_⟩
            rw [modifyAt, if_neg (hkey p (Or.inl hp)), heq,
              modifyAt_of_not_mem (F := s) fun h => hdisj hp h, contract,
              if_pos (by simpa using hkey k (Or.inl hk)),
              contract_ne_of_not_mem (F := s) fun h => hdisj hk h]
          · obtain ⟨p, hr, hp, hk, heq⟩ := ihs hs h
            refine ⟨p, hr, Or.inr (Or.inr hp), Or.inr (Or.inr hk), ?_⟩
            rw [modifyAt, if_neg (hkey p (Or.inr hp)), heq,
              modifyAt_of_not_mem (F := c) fun h => hdisj h hp, contract,
              if_pos (by simpa using hkey k (Or.inr hk)),
              contract_ne_of_not_mem (F := c) fun h => hdisj h hk]

/-- What is found neither among the roots nor below is not there. -/
theorem not_mem_keys_of_locateBelow {k : κ} {F : Forest α} (h : locateBelow key k F = none)
    (hr : ((roots F).findIdx? fun b => key b = k) = none) : k ∉ keys key F := by
  induction F with
  | nil => exact List.not_mem_nil
  | node a c s ihc ihs =>
      rw [keys_node, List.mem_cons, List.mem_append, not_or, not_or]
      rw [roots, List.findIdx?_cons] at hr
      rw [locateBelow] at h
      by_cases ha : key a = k
      · simp [ha] at hr
      · cases hi : (roots c).findIdx? fun b => key b = k with
        | some i =>
            rw [hi] at h
            cases h
        | none =>
            rw [hi, Option.or_eq_none_iff] at h
            simp only [ha, decide_false, Bool.false_eq_true, if_false, Option.map_eq_none_iff] at hr
            exact ⟨fun h => ha h.symm, ihc h.1 hi, ihs h.2 hr⟩

/-- **Promoting the children of a node is contracting the forest at it.** -/
theorem promote_eq_contract (k : κ) {F : Forest α} (hF : (keys key F).Nodup) :
    promote key k F = contract (fun a => key a ≠ k) F := by
  rw [promote, locate]
  cases hi : (roots F).findIdx? fun b => key b = k with
  | some i => exact promoteAt_eq_contract hF hi
  | none =>
      cases h : locateBelow key k F with
      | none => exact (contract_ne_of_not_mem (not_mem_keys_of_locateBelow h hi)).symm
      | some r =>
          obtain ⟨p, hr, -, -, heq⟩ := locateBelow_eq_some hF h
          simp only [hr]
          exact heq

/-- A contraction has no new nodes, and keeps their order. -/
theorem keys_contract_sublist (p : α → Bool) (F : Forest α) :
    (keys key (contract p F)).Sublist (keys key F) := by
  rw [keys, preorder_contract]
  exact List.filter_sublist.map key

/-- Removing nodes one after another comes to one contraction, in whatever order. -/
theorem foldl_promote (ks : List κ) {F : Forest α} (hF : (keys key F).Nodup) :
    ks.foldl (fun G k => promote key k G) F = contract (fun a => decide (key a ∉ ks)) F := by
  induction ks generalizing F with
  | nil => exact (contract_eq_self fun a _ => by simp).symm
  | cons k ks ih =>
      rw [List.foldl_cons, promote_eq_contract k hF,
        ih (hF.sublist (keys_contract_sublist _ F)), contract_contract]
      apply contract_congr
      intro a _
      simp [List.mem_cons, not_or]

/-! ### Settling, scope by scope -/

/-- Lists of which at most one is not empty can be joined in any order. -/
theorem flatMap_eq_of_perm {β γ : Type} {f : β → List γ} {l l' : List β} (h : l.Perm l')
    (hl : l.Pairwise fun x y => f x = [] ∨ f y = []) : l.flatMap f = l'.flatMap f := by
  induction h with
  | nil => rfl
  | cons x _ ih => rw [List.flatMap_cons, List.flatMap_cons, ih (List.pairwise_cons.mp hl).2]
  | swap x y l =>
      rw [List.flatMap_cons, List.flatMap_cons, List.flatMap_cons, List.flatMap_cons]
      rcases (List.pairwise_cons.mp hl).1 x List.mem_cons_self with h | h
      · simp [h]
      · simp [h]
  | trans h₁ _ ih₁ ih₂ => exact (ih₁ hl).trans (ih₂ (h₁.pairwise hl Or.symm))

/-- The children in a scope that is not this one are further below. -/
theorem childrenIn_eq_flatMap {q up : Option κ} (hup : up ≠ q) (F : Forest α) :
    childrenIn key q up F = (trees F).flatMap fun t => childrenIn key q (some (key t.1)) t.2 := by
  induction F with
  | nil => rfl
  | node a c s _ ihs => rw [childrenIn, if_neg hup, ihs, trees, List.flatMap_cons, List.nil_append]

/-- At most one tree of a forest has children in a scope. -/
theorem pairwise_trees (q : Option κ) {F : Forest α} (hF : (keys key F).Nodup) :
    (trees F).Pairwise fun t u =>
      childrenIn key q (some (key t.1)) t.2 = [] ∨ childrenIn key q (some (key u.1)) u.2 = [] := by
  induction F with
  | nil => exact List.Pairwise.nil
  | node a c s _ ihs =>
      obtain ⟨⟨-, has⟩, -, hs, hdisj⟩ := nodup_node hF
      refine List.pairwise_cons.mpr ⟨?_, ihs hs⟩
      intro t ht
      have hsub : ∀ k, k = key t.1 ∨ k ∈ keys key t.2 → k ∈ keys key s := by
        intro k hk
        have hmem : ∀ G : Forest α, t ∈ trees G → k ∈ keys key G := by
          intro G
          induction G with
          | nil => exact fun h => by cases h
          | node b d r _ ihr =>
              intro h
              rw [keys_node, List.mem_cons, List.mem_append]
              rcases List.mem_cons.mp h with rfl | h
              · exact hk.imp_right Or.inl
              · exact Or.inr (Or.inr (ihr h))
        exact hmem s ht
      by_cases hq : ∃ k, q = some k ∧ (k = key a ∨ k ∈ keys key c)
      · right
        obtain ⟨k, rfl, hk⟩ := hq
        have hks : k ∉ keys key s := by
          rcases hk with rfl | hk
          · exact foreign_some.mp has
          · exact fun h => hdisj hk h
        apply childrenIn_of_foreign
        · rintro ⟨⟩
          exact hks (hsub _ (Or.inl rfl))
        · exact foreign_some.mpr fun h => hks (hsub _ (Or.inr h))
      · left
        apply childrenIn_of_foreign
        · exact fun h => hq ⟨_, h.symm, Or.inl rfl⟩
        · exact fun k hk h => hq ⟨k, h.symm, Or.inr hk⟩

/-- Settling a forest loses no node. -/
theorem keys_settle (b : α → Bool) (F : Forest α) : (keys key (settle b F)).Perm (keys key F) :=
  (preorder_settle_perm b F).map key

/-- The marked roots go behind the others. -/
theorem roots_settleRoots (b : α → Bool) (F : Forest α) :
    roots (settleRoots b F) = behind b (roots F) := by
  rw [roots_eq_map, roots_eq_map, settleRoots, trees_ofTrees, behind, behind, List.map_append,
    List.filter_map, List.filter_map]
  rfl

/-- Settling below keeps the roots. -/
theorem roots_settleBelow (b : α → Bool) (F : Forest α) : roots (settleBelow b F) = roots F := by
  induction F with
  | nil => rfl
  | node a c s _ ihs => rw [settleBelow, roots, roots, ihs]

/-- Moving roots loses no node. -/
theorem preorder_settleRoots_perm (b : α → Bool) (F : Forest α) :
    (preorder (settleRoots b F)).Perm (preorder F) := by
  rw [preorder_eq_map [], preorder_eq_map [] F]
  exact (outline_settleRoots_perm b [] F).map _

theorem preorder_settleBelow_perm (b : α → Bool) (F : Forest α) :
    (preorder (settleBelow b F)).Perm (preorder F) :=
  (preorder_settleRoots_perm b _).symm.trans (preorder_settle_perm b F)

/-- What is foreign depends on the nodes only. -/
theorem Foreign.of_perm {q : Option κ} {F G : Forest α} (h : Foreign key q F)
    (hp : (preorder G).Perm (preorder F)) : Foreign key q G :=
  fun k hk => h k ((hp.map key).mem_iff.mp hk)

/-- The children in a scope are settled when they are so below the roots. -/
theorem childrenIn_settle_of_below {b : α → Bool} {q up : Option κ} {F : Forest α}
    (hF : (keys key F).Nodup) (hup : Foreign key up F)
    (hbelow : up ≠ q → childrenIn key q up (settleBelow b F) = behind b (childrenIn key q up F)) :
    childrenIn key q up (settle b F) = behind b (childrenIn key q up F) := by
  by_cases hq : up = q
  · subst hq
    rw [childrenIn_self (hup.of_perm (preorder_settle_perm b F)), childrenIn_self hup, settle,
      roots_settleRoots, roots_settleBelow]
  · have hB : (keys key (settleBelow b F)).Nodup :=
      ((preorder_settleBelow_perm b F).map key).nodup_iff.mpr hF
    rw [← hbelow hq, settle, childrenIn_eq_flatMap hq, childrenIn_eq_flatMap hq, settleRoots,
      trees_ofTrees]
    exact (flatMap_eq_of_perm (behind_perm _ _).symm (pairwise_trees q hB)).symm

/-- Below the roots every scope is settled. -/
theorem childrenIn_settleBelow {b : α → Bool} {q up : Option κ} {F : Forest α}
    (hF : (keys key F).Nodup) (hup : up ≠ q) :
    childrenIn key q up (settleBelow b F) = behind b (childrenIn key q up F) := by
  induction F generalizing up with
  | nil => rfl
  | node a c s ihc ihs =>
      obtain ⟨⟨hac, -⟩, hc, hs, -⟩ := nodup_node hF
      have hchild : childrenIn key q (some (key a)) (settle b c) =
          behind b (childrenIn key q (some (key a)) c) :=
        childrenIn_settle_of_below hc hac (ihc hc)
      have hone : childrenIn key q (some (key a)) c = [] ∨ childrenIn key q up s = [] := by
        have h := pairwise_trees q hF
        rw [trees, List.pairwise_cons] at h
        by_cases hs₀ : childrenIn key q up s = []
        · exact Or.inr hs₀
        · rw [childrenIn_eq_flatMap hup, List.flatMap_eq_nil_iff] at hs₀
          push Not at hs₀
          obtain ⟨t, ht, hne⟩ := hs₀
          exact Or.inl ((h.1 t ht).resolve_right hne)
      rw [settleBelow, childrenIn, childrenIn, if_neg hup, ihs hs hup]
      rw [settle] at hchild
      rw [hchild, List.nil_append, List.nil_append, behind_append_nil_or hone]

/-- **What settling does to every scope.** -/
theorem childrenIn_settle (b : α → Bool) {q up : Option κ} {F : Forest α}
    (hF : (keys key F).Nodup) (hup : Foreign key up F) :
    childrenIn key q up (settle b F) = behind b (childrenIn key q up F) :=
  childrenIn_settle_of_below hF hup (childrenIn_settleBelow hF)

/-! ### Pre-order from the scopes -/

/-- Pre-order of what hangs in scope `q` to a depth, from the children `g` of the scopes. -/
def traverse (key : α → κ) (g : Option κ → List α) : ℕ → Option κ → List α
  | 0, _ => []
  | n + 1, q => (g q).flatMap fun a => a :: traverse key g n (some (key a))

/-- The traversal from the roots lists the nodes in pre-order. -/
theorem traverse_roots {g : Option κ → List α} {up : Option κ} {n : ℕ} {F : Forest α}
    (hF : (keys key F).Nodup) (hup : Foreign key up F) (hn : (preorder F).length ≤ n)
    (hg : ∀ a ∈ preorder F, g (some (key a)) = childrenIn key (some (key a)) up F) :
    (roots F).flatMap (fun a => a :: traverse key g n (some (key a))) = preorder F := by
  induction F generalizing up n with
  | nil => rfl
  | node a c s ihc ihs =>
      obtain ⟨⟨hac, has⟩, hc, hs, hdisj⟩ := nodup_node hF
      obtain ⟨hupa, hupc, hups⟩ := foreign_node.mp hup
      simp only [preorder, List.length_cons, List.length_append] at hn
      obtain ⟨n, rfl⟩ : ∃ m, n = m + 1 := ⟨n - 1, by omega⟩
      have hga : g (some (key a)) = roots c := by
        rw [hg a List.mem_cons_self, childrenIn, if_neg (Ne.symm hupa), childrenIn_self hac,
          childrenIn_of_foreign (Ne.symm hupa) has]
        simp
      have hchildren := ihc (n := n) hc hac (by omega) fun b hb => by
        have hbk : key b ∈ keys key c := mem_keys_of_mem hb
        have hbup : up ≠ some (key b) := fun h => hupc _ hbk h.symm
        have hbs : key b ∉ keys key s := fun h => hdisj hbk h
        rw [hg b (List.mem_cons_of_mem _ (List.mem_append_left _ hb)), childrenIn, if_neg hbup,
          childrenIn_of_foreign hbup (foreign_some.mpr hbs)]
        simp
      have hsiblings := ihs (n := n + 1) hs hups (by omega) fun b hb => by
        have hbk : key b ∈ keys key s := mem_keys_of_mem hb
        have hbup : up ≠ some (key b) := fun h => hups _ hbk h.symm
        have hba : some (key a) ≠ some (key b) := fun h => has _ hbk h.symm
        have hbc : key b ∉ keys key c := fun h => hdisj h hbk
        rw [hg b (List.mem_cons_of_mem _ (List.mem_append_right _ hb)), childrenIn, if_neg hbup,
          childrenIn_of_foreign hba (foreign_some.mpr hbc)]
        rfl
      rw [roots, List.flatMap_cons, hsiblings, traverse, hga, hchildren]
      rfl

/-- **The children of the scopes determine the pre-order.** -/
theorem preorder_eq_traverse {n : ℕ} {F : Forest α} (hF : (keys key F).Nodup)
    (hn : (preorder F).length ≤ n) :
    preorder F = traverse key (fun q => childrenIn key q none F) (n + 1) none := by
  rw [traverse, childrenIn_self (foreign_none F)]
  exact (traverse_roots hF (foreign_none F) hn fun _ _ => rfl).symm

/-- A traversal of images: the scopes of the two sides correspond under `R`. -/
theorem traverse_map {β κ' : Type} {key' : β → κ'} {g : Option κ → List α}
    {g' : Option κ' → List β} {f : β → α} {R : Option κ → Option κ' → Prop}
    (h : ∀ q q', R q q' → g q = (g' q').map f ∧
      ∀ b ∈ g' q', R (some (key (f b))) (some (key' b)))
    (n : ℕ) {q : Option κ} {q' : Option κ'} (hq : R q q') :
    traverse key g n q = (traverse key' g' n q').map f := by
  induction n generalizing q q' with
  | zero => rfl
  | succ n ih =>
      obtain ⟨hg, hR⟩ := h q q' hq
      rw [traverse, traverse, hg, List.flatMap_map, List.map_flatMap]
      apply List.flatMap_congr
      intro b hb
      rw [List.map_cons, ih (hR b hb)]

/-- The children of a scope are the rows of the outline whose nearest ancestor owns it. -/
theorem childrenIn_eq_filter_outline (q : Option κ) (up : List α) (F : Forest α) :
    childrenIn key q (up.head?.map key) F =
      ((outline up F).filter fun r => r.2.head?.map key = q).map Prod.fst := by
  induction F generalizing up with
  | nil => rfl
  | node a c s ihc ihs =>
      have hc := ihc (a :: up)
      rw [List.head?_cons, Option.map_some] at hc
      rw [childrenIn, outline, hc, ihs up, List.filter_cons, List.filter_append]
      by_cases hq : up.head?.map key = q
      · rw [if_pos hq, if_pos (by simpa using hq)]
        simp
      · rw [if_neg hq, if_neg (by simpa using hq)]
        simp

/-- The children in a scope are the rows of the outline whose parent is its node. -/
theorem childrenIn_eq_filter (q : Option κ) (F : Forest α) :
    childrenIn key q none F =
      ((outline [] F).filter fun r => r.2.head?.map key = q).map Prod.fst :=
  childrenIn_eq_filter_outline q [] F

/-- An ancestor comes before. -/
theorem before_of_mem_outline {up : List α} {F : Forest α} {r : α × List α} {a : α}
    (hr : r ∈ outline up F) (ha : a ∈ r.2) : a ∈ up ∨ Before (preorder F) a r.1 := by
  induction F generalizing up with
  | nil => cases hr
  | node b c s ihc ihs =>
      rw [outline, List.mem_cons, List.mem_append] at hr
      have hc : (preorder c).Sublist (preorder (node b c s)) :=
        (List.sublist_append_left _ _).trans (List.sublist_cons_self _ _)
      have hs : (preorder s).Sublist (preorder (node b c s)) :=
        (List.sublist_append_right _ _).trans (List.sublist_cons_self _ _)
      rcases hr with rfl | hr | hr
      · exact Or.inl ha
      · rcases ihc hr with h | h
        · rcases List.mem_cons.mp h with rfl | h
          · right
            have hmem : r.1 ∈ preorder c := by
              rw [preorder_eq_map (a :: up)]
              exact List.mem_map_of_mem hr
            have hb : Before ([a] ++ (preorder c ++ preorder s)) a r.1 :=
              before_append List.mem_cons_self (List.mem_append_left _ hmem)
            exact hb
          · exact Or.inl h
        · exact Or.inr (h.of_sublist hc)
      · rcases ihs hr with h | h
        · exact Or.inl h
        · exact Or.inr (h.of_sublist hs)

/-! ### Forests given by a list -/

/-- The forest has the nodes of a list, and lists in every scope those placed there, in order. -/
structure Lists (key : α → κ) (F : Forest α) (l : List (Option κ × α)) : Prop where
  nodes : (preorder F).Perm (l.map Prod.snd)
  scopes : ∀ q, childrenIn key q none F = (l.filter fun r => r.1 = q).map Prod.snd

/-- The empty forest lists nothing. -/
theorem lists_nil : Lists key (nil : Forest α) [] := ⟨List.Perm.refl _, fun _ => rfl⟩

/-- What is listed are the nodes. -/
theorem Lists.keys_perm {F : Forest α} {l : List (Option κ × α)} (h : Lists key F l) :
    (keys key F).Perm (l.map fun r => key r.2) := by
  have := h.nodes.map key
  rwa [List.map_map] at this

/-- A leaf inserted behind the part of its scope that is before it in the list. -/
theorem Lists.insert {F : Forest α} {l₁ l₂ : List (Option κ × α)} {q : Option κ} {n : α}
    (h : Lists key F (l₁ ++ l₂)) (hF : (keys key F).Nodup) (hn : key n ∉ keys key F)
    (hq : Present key q F) :
    Lists key (insertIn key q (l₁.filter fun r => r.1 = q).length n F) (l₁ ++ (q, n) :: l₂) := by
  have hscope := h.scopes q
  rw [List.filter_append, List.map_append] at hscope
  have hle : (l₁.filter fun r => r.1 = q).length ≤ (childrenIn key q none F).length := by
    rw [hscope, List.length_append, List.length_map]
    exact Nat.le_add_right _ _
  constructor
  · refine (preorder_insertIn hF hq hle).trans ?_
    rw [List.map_append, List.map_cons]
    refine (h.nodes.cons n).trans ?_
    rw [List.map_append]
    exact List.perm_middle.symm
  · intro r
    rw [childrenIn_insertIn hF hn hq hle]
    by_cases hr : r = q
    · subst hr
      have hlen : (l₁.filter fun s => s.1 = r).length =
          ((l₁.filter fun s => s.1 = r).map Prod.snd).length := (List.length_map _).symm
      rw [if_pos rfl, insertIdx_eq_append hle, hscope, List.take_left' hlen.symm,
        List.drop_left' hlen.symm, List.filter_append, List.filter_cons_of_pos (by simp),
        List.map_append, List.map_cons]
    · rw [if_neg hr, h.scopes r, List.filter_append, List.filter_append,
        List.filter_cons_of_neg (by simpa using Ne.symm hr)]

/-- A leaf appended to its scope. -/
theorem Lists.append {F : Forest α} {l : List (Option κ × α)} {q : Option κ} {n : α}
    (h : Lists key F l) (hF : (keys key F).Nodup) (hn : key n ∉ keys key F)
    (hq : Present key q F) :
    Lists key (insertIn key q (childrenIn key q none F).length n F) (l ++ [(q, n)]) := by
  have hl : Lists key F (l ++ []) := by rwa [List.append_nil]
  have hins := hl.insert hF hn hq
  rwa [h.scopes q, List.length_map]

end Axan.Base.Forest
