import Axan.Base.Reorder

/-!
# Forests

Ordered forests with labelled nodes, and two edits of a whole forest: replace nodes by their
children, and move some of the siblings of every scope behind the others.

* `Forest` — first child, next sibling; `trees` and `ofTrees` are a container of nodes as a list.
* `outline` — the nodes in pre-order, each with its ancestors, nearest first.
* `contract` — drop nodes and promote their children; `outline_contract` says what is left.
* `settle` — the marked siblings of every scope behind the others. No node changes its ancestors
  (`outline_settle_perm`), and nodes that are not marked and not under a marked one keep their
  order (`outline_settle_filter`).

The edits at one scope are in `Axan.Base.Scope`.
-/

namespace Axan.Base

/-- An ordered forest: empty, or a first tree, its children and the trees behind it. -/
inductive Forest (α : Type) where
  | nil : Forest α
  | node (a : α) (children siblings : Forest α) : Forest α
  deriving DecidableEq, Repr

namespace Forest

variable {α κ : Type}

/-! ### Containers -/

/-- The trees of a forest: their roots and what hangs under them. -/
def trees : Forest α → List (α × Forest α)
  | nil => []
  | node a c s => (a, c) :: trees s

/-- The forest with these trees. -/
def ofTrees : List (α × Forest α) → Forest α
  | [] => nil
  | (a, c) :: ts => node a c (ofTrees ts)

/-- A forest is the list of its trees. -/
@[simp] theorem ofTrees_trees (F : Forest α) : ofTrees (trees F) = F := by
  induction F with
  | nil => rfl
  | node a c s _ ihs => rw [trees, ofTrees, ihs]

/-- And a list of trees is the trees of its forest. -/
@[simp] theorem trees_ofTrees (ts : List (α × Forest α)) : trees (ofTrees ts) = ts := by
  induction ts with
  | nil => rfl
  | cons t ts ih => rw [ofTrees, trees, ih]

/-- The labels of the top level. -/
def roots : Forest α → List α
  | nil => []
  | node a _ s => a :: roots s

/-- The roots are the nodes on top of the trees. -/
theorem roots_eq_map (F : Forest α) : roots F = (trees F).map Prod.fst := by
  induction F with
  | nil => rfl
  | node a c s _ ihs => rw [roots, trees, List.map_cons, ihs]

/-- The trees of one forest in front of those of another. -/
def append : Forest α → Forest α → Forest α
  | nil, G => G
  | node a c s, G => node a c (append s G)

instance : Append (Forest α) := ⟨append⟩

@[simp] theorem nil_append (G : Forest α) : nil ++ G = G := rfl
@[simp] theorem node_append (a : α) (c s G : Forest α) : node a c s ++ G = node a c (s ++ G) := rfl

@[simp] theorem append_nil (F : Forest α) : F ++ nil = F := by
  induction F with
  | nil => rfl
  | node a c s _ ihs => rw [node_append, ihs]

theorem append_assoc (F G H : Forest α) : F ++ G ++ H = F ++ (G ++ H) := by
  induction F with
  | nil => rfl
  | node a c s _ ihs => simp only [node_append, ihs]

/-- The trees of a concatenation are those of both parts. -/
theorem ofTrees_append (ts us : List (α × Forest α)) :
    ofTrees (ts ++ us) = ofTrees ts ++ ofTrees us := by
  induction ts with
  | nil => rfl
  | cons t ts ih => rw [List.cons_append, ofTrees, ih, ofTrees, node_append]

/-! ### Pre-order -/

/-- The labels in pre-order. -/
def preorder : Forest α → List α
  | nil => []
  | node a c s => a :: (preorder c ++ preorder s)

/-- The nodes in pre-order, each with its ancestors; `up` are those of the top level. -/
def outline (up : List α) : Forest α → List (α × List α)
  | nil => []
  | node a c s => (a, up) :: (outline (a :: up) c ++ outline up s)

/-- The pre-order is the outline without the ancestors. -/
theorem preorder_eq_map (up : List α) (F : Forest α) : preorder F = (outline up F).map Prod.fst := by
  induction F generalizing up with
  | nil => rfl
  | node a c s ihc ihs => simp [preorder, outline, ← ihc, ← ihs]

/-- The pre-order of a concatenation. -/
@[simp] theorem preorder_append (F G : Forest α) : preorder (F ++ G) = preorder F ++ preorder G := by
  induction F with
  | nil => rfl
  | node a c s _ ihs => simp [preorder, ihs]

/-- The outline of a concatenation; the parts have the same ancestors. -/
@[simp] theorem outline_append (up : List α) (F G : Forest α) :
    outline up (F ++ G) = outline up F ++ outline up G := by
  induction F with
  | nil => rfl
  | node a c s _ ihs => simp [outline, ihs]

/-- A root is a node. -/
theorem mem_preorder_of_mem_roots {F : Forest α} {a : α} (h : a ∈ roots F) : a ∈ preorder F := by
  induction F with
  | nil => cases h
  | node b c s _ ihs =>
      rcases List.mem_cons.mp h with rfl | h
      · exact List.mem_cons_self
      · exact List.mem_cons_of_mem _ (List.mem_append_right _ (ihs h))

/-! ### Contraction -/

/-- Keep the nodes that satisfy `p`; the children of the others take their place. -/
def contract (p : α → Bool) : Forest α → Forest α
  | nil => nil
  | node a c s => if p a then node a (contract p c) (contract p s) else contract p c ++ contract p s

/-- A concatenation is contracted part by part. -/
theorem contract_append (p : α → Bool) (F G : Forest α) :
    contract p (F ++ G) = contract p F ++ contract p G := by
  induction F with
  | nil => rfl
  | node a c s _ ihs =>
      rw [node_append, contract, contract, ihs]
      split
      · rfl
      · rw [append_assoc]

/-- Two contractions are one, to the nodes that both keep. -/
theorem contract_contract (p q : α → Bool) (F : Forest α) :
    contract p (contract q F) = contract (fun a => q a && p a) F := by
  induction F with
  | nil => rfl
  | node a c s ihc ihs =>
      cases hq : q a with
      | true => cases hp : p a <;> simp [contract, hq, hp, ihc, ihs]
      | false => simp [contract, hq, contract_append, ihc, ihs]

/-- A contraction depends on the nodes of the forest only. -/
theorem contract_congr {p q : α → Bool} {F : Forest α} (h : ∀ a ∈ preorder F, p a = q a) :
    contract p F = contract q F := by
  induction F with
  | nil => rfl
  | node a c s ihc ihs =>
      have ha := h a List.mem_cons_self
      have hc := ihc fun b hb => h b (List.mem_cons_of_mem _ (List.mem_append_left _ hb))
      have hs := ihs fun b hb => h b (List.mem_cons_of_mem _ (List.mem_append_right _ hb))
      rw [contract, contract, ha, hc, hs]

/-- A contraction that keeps every node changes nothing. -/
theorem contract_eq_self {p : α → Bool} {F : Forest α} (h : ∀ a ∈ preorder F, p a = true) :
    contract p F = F := by
  induction F with
  | nil => rfl
  | node a c s ihc ihs =>
      rw [contract, if_pos (h a List.mem_cons_self),
        ihc fun b hb => h b (List.mem_cons_of_mem _ (List.mem_append_left _ hb)),
        ihs fun b hb => h b (List.mem_cons_of_mem _ (List.mem_append_right _ hb))]

/-- **What a contraction leaves**: the kept nodes in their order, under their kept ancestors. -/
theorem outline_contract (p : α → Bool) (up : List α) (F : Forest α) :
    outline (up.filter p) (contract p F) =
      ((outline up F).filter fun r => p r.1).map fun r => (r.1, r.2.filter p) := by
  induction F generalizing up with
  | nil => rfl
  | node a c s ihc ihs =>
      have hc := ihc (a :: up)
      cases hp : p a with
      | true =>
          rw [List.filter_cons_of_pos (by simpa using hp)] at hc
          simp [contract, outline, hp, hc, ihs]
      | false =>
          rw [List.filter_cons_of_neg (by simpa using hp)] at hc
          simp [contract, outline, hp, hc, ihs]

/-- The nodes that stay keep their order. -/
theorem preorder_contract (p : α → Bool) (F : Forest α) :
    preorder (contract p F) = (preorder F).filter p := by
  have h := congrArg (List.map Prod.fst) (outline_contract p [] F)
  rw [List.filter_nil, ← preorder_eq_map, List.map_map] at h
  rw [h, preorder_eq_map [] F, List.filter_map]
  rfl

/-! ### Settling -/

/-- The marked elements behind the others. -/
def behind (b : α → Bool) (l : List α) : List α := (l.filter fun a => !b a) ++ l.filter b

/-- The marked elements move, and none is lost. -/
theorem behind_perm (b : α → Bool) (l : List α) : (behind b l).Perm l := by
  refine List.perm_append_comm.trans ?_
  simpa using List.filter_append_perm b l

/-- With one part empty, the parts can be sorted apart. -/
theorem behind_append_nil_or {b : α → Bool} {l l' : List α} (h : l = [] ∨ l' = []) :
    behind b (l ++ l') = behind b l ++ behind b l' := by
  rcases h with rfl | rfl
  · rfl
  · simp [behind]

/-- The marked trees of one container behind the others. -/
def settleRoots (b : α → Bool) (F : Forest α) : Forest α :=
  ofTrees (behind (fun t => b t.1) (trees F))

/-- Settle every scope below the top level. -/
def settleBelow (b : α → Bool) : Forest α → Forest α
  | nil => nil
  | node a c s => node a (settleRoots b (settleBelow b c)) (settleBelow b s)

/-- The marked siblings of every scope behind the others. -/
def settle (b : α → Bool) (F : Forest α) : Forest α := settleRoots b (settleBelow b F)

/-- The outline, tree by tree. -/
theorem outline_eq_flatMap (up : List α) (F : Forest α) :
    outline up F = (trees F).flatMap fun t => (t.1, up) :: outline (t.1 :: up) t.2 := by
  induction F with
  | nil => rfl
  | node a c s _ ihs => rw [outline, ihs, trees, List.flatMap_cons, List.cons_append]

/-- Moving roots leaves every node its ancestors. -/
theorem outline_settleRoots_perm (b : α → Bool) (up : List α) (F : Forest α) :
    (outline up (settleRoots b F)).Perm (outline up F) := by
  rw [settleRoots, outline_eq_flatMap, outline_eq_flatMap, trees_ofTrees]
  exact (behind_perm _ _).flatMap_right _

/-- **Settling keeps every node under its ancestors.** -/
theorem outline_settle_perm (b : α → Bool) (up : List α) (F : Forest α) :
    (outline up (settle b F)).Perm (outline up F) := by
  have hbelow : ∀ (F : Forest α) (up : List α),
      (outline up (settleBelow b F)).Perm (outline up F) := by
    intro F
    induction F with
    | nil => exact fun up => List.Perm.refl _
    | node a c s ihc ihs =>
        intro up
        apply List.Perm.cons
        apply List.Perm.append
        · exact (outline_settleRoots_perm b _ _).trans (ihc _)
        · exact ihs up
  exact (outline_settleRoots_perm b up _).trans (hbelow F up)

/-- Settling a forest loses no node. -/
theorem preorder_settle_perm (b : α → Bool) (F : Forest α) :
    (preorder (settle b F)).Perm (preorder F) := by
  rw [preorder_eq_map [], preorder_eq_map [] F]
  exact (outline_settle_perm b [] F).map _

/-- A row of an outline that is not marked and stands under no marked node. -/
def clear (b : α → Bool) (r : α × List α) : Bool := !b r.1 && r.2.all fun a => !b a

/-- A node in an outline has the ancestors of the outline above it. -/
theorem clear_of_mem_outline {b : α → Bool} {up : List α} {F : Forest α} {r : α × List α}
    (hr : r ∈ outline up F) (hc : clear b r = true) : up.all (fun a => !b a) = true := by
  induction F generalizing up with
  | nil => cases hr
  | node a c s ihc ihs =>
      simp only [outline, List.mem_cons, List.mem_append] at hr
      rcases hr with rfl | hr | hr
      · simp only [clear, Bool.and_eq_true] at hc
        exact hc.2
      · have h := ihc hr
        simp only [List.all_cons, Bool.and_eq_true] at h
        exact h.2
      · exact ihs hr

/-- Below a marked node no node is clear. -/
theorem filter_clear_of_marked {b : α → Bool} {a : α} (h : b a = true) (up : List α)
    (F : Forest α) : (outline (a :: up) F).filter (clear b) = [] := by
  apply List.filter_eq_nil_iff.mpr
  intro r hr hc
  have hall := clear_of_mem_outline hr hc
  simp [h] at hall

/-- Moving marked roots leaves the clear nodes in their order. -/
theorem filter_clear_settleRoots (b : α → Bool) (up : List α) (F : Forest α) :
    (outline up (settleRoots b F)).filter (clear b) = (outline up F).filter (clear b) := by
  have hdrop : ∀ ts : List (α × Forest α),
      ((ts.flatMap fun t => (t.1, up) :: outline (t.1 :: up) t.2).filter (clear b)) =
        ((ts.filter fun t => !b t.1).flatMap
          fun t => (t.1, up) :: outline (t.1 :: up) t.2).filter (clear b) := by
    intro ts
    induction ts with
    | nil => rfl
    | cons t ts ih =>
        rw [List.flatMap_cons, List.filter_append, ih]
        cases hb : b t.1 with
        | true =>
            rw [List.filter_cons_of_neg (by simp [clear, hb]), filter_clear_of_marked hb,
              List.nil_append, List.filter_cons_of_neg (by simp [hb])]
        | false =>
            rw [List.filter_cons_of_pos (l := ts) (by simp [hb]), List.flatMap_cons,
              List.filter_append]
  rw [settleRoots, outline_eq_flatMap, outline_eq_flatMap, trees_ofTrees, hdrop, hdrop (trees F)]
  simp [behind]

/-- **Settling keeps the order** of the nodes that are not marked and not under a marked one. -/
theorem outline_settle_filter (b : α → Bool) (up : List α) (F : Forest α) :
    (outline up (settle b F)).filter (clear b) = (outline up F).filter (clear b) := by
  have hbelow : ∀ (F : Forest α) (up : List α),
      (outline up (settleBelow b F)).filter (clear b) = (outline up F).filter (clear b) := by
    intro F
    induction F with
    | nil => exact fun up => rfl
    | node a c s ihc ihs =>
        intro up
        have hc := (filter_clear_settleRoots b (a :: up) (settleBelow b c)).trans (ihc _)
        simp only [settleBelow, outline, List.filter_cons, List.filter_append, hc, ihs]
  rw [settle, filter_clear_settleRoots, hbelow]

/-- Marked elements that are behind the others stay there. -/
theorem behind_behind (b : α → Bool) (l : List α) : behind b (behind b l) = behind b l := by
  simp [behind, List.filter_append, List.filter_filter]

/-- Images are moved as their elements. -/
theorem behind_map {β : Type} (b : β → Bool) (f : α → β) (l : List α) :
    behind b (l.map f) = (behind (fun a => b (f a)) l).map f := by
  rw [behind, List.filter_map, List.filter_map, behind, List.map_append]
  rfl

/-- The order depends on the marks of the elements only. -/
theorem behind_congr {b b' : α → Bool} {l : List α} (h : ∀ a ∈ l, b a = b' a) :
    behind b l = behind b' l := by
  rw [behind, behind, List.filter_congr h, List.filter_congr fun a ha => by rw [h a ha]]

/-- Moving the marked elements and filtering commute. -/
theorem filter_behind (b f : α → Bool) (l : List α) :
    (behind b l).filter f = behind b (l.filter f) := by
  simp [behind, List.filter_append, List.filter_filter, Bool.and_comm]

/-- Below each root the forest is settled. -/
theorem trees_settleBelow (b : α → Bool) (F : Forest α) :
    trees (settleBelow b F) = (trees F).map fun t => (t.1, settle b t.2) := by
  induction F with
  | nil => rfl
  | node a c s _ ihs => rw [settleBelow, trees, ihs, trees, List.map_cons, settle]

/-- The roots can be moved before or after the levels below. -/
theorem settleBelow_settleRoots (b : α → Bool) (F : Forest α) :
    settleBelow b (settleRoots b F) = settleRoots b (settleBelow b F) := by
  rw [← ofTrees_trees (settleBelow b (settleRoots b F)), trees_settleBelow, settleRoots,
    settleRoots, trees_ofTrees, trees_settleBelow, behind, behind, List.map_append,
    List.filter_map, List.filter_map]
  rfl

/-- A settled forest stays as it is. -/
theorem settle_settle (b : α → Bool) (F : Forest α) : settle b (settle b F) = settle b F := by
  have hroots : ∀ G : Forest α, settleRoots b (settleRoots b G) = settleRoots b G := by
    intro G
    rw [settleRoots, settleRoots, trees_ofTrees, behind_behind]
  have hbelow : ∀ G : Forest α, settleBelow b (settleBelow b G) = settleBelow b G := by
    intro G
    induction G with
    | nil => rfl
    | node a c s ihc ihs =>
        simp only [settleBelow, settleBelow_settleRoots, hroots, ihc, ihs]
  rw [settle, settle, settleBelow_settleRoots, hroots, hbelow]

end Forest

end Axan.Base
