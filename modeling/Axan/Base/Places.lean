import Axan.Base.Scope

/-!
# Places in a forest

A node of a forest with where it stands: its siblings on both sides, what hangs under it, and the
way up.

* `Place`, `places` — the places of a forest in pre-order.
* `Place.path` — the node and its ancestors, each with the siblings in front of it.
  `exists_place_above` says that every entry of a path is the place of an ancestor.
* `locateContainer` — the search for the siblings of a node, `locateContainer_eq` what it finds.
* `map`, `places_map` — a forest with other labels; `map_contract_eq` compares contractions of two
  forests of the same shape.
-/

namespace Axan.Base.Forest

variable {α β κ : Type}

/-! ### Places -/

/-- A node and where it stands. -/
structure Place (α : Type) where
  node : α
  children : Forest α
  /-- The siblings in front, first one first. -/
  before : List α
  /-- The siblings behind, with what hangs under them. -/
  after : Forest α
  /-- The ancestors, nearest first, each with the siblings in front of it. -/
  up : List (α × List α)

/-- The node and its ancestors, each with the siblings in front of it. -/
def Place.path (p : Place α) : List (α × List α) := (p.node, p.before) :: p.up

/-- The places of a forest whose first nodes have siblings in front and ancestors. -/
def places (up : List (α × List α)) (before : List α) : Forest α → List (Place α)
  | nil => []
  | node a c s =>
      ⟨a, c, before, s, up⟩ :: (places ((a, before) :: up) [] c ++ places up (before ++ [a]) s)

/-- The places are in pre-order. -/
theorem preorder_eq_places (up : List (α × List α)) (before : List α) (F : Forest α) :
    preorder F = (places up before F).map Place.node := by
  induction F generalizing up before with
  | nil => rfl
  | node a c s ihc ihs =>
      rw [preorder, places, List.map_cons, List.map_append, ← ihc, ← ihs]

/-- A place has the ancestors of its node. -/
theorem outline_eq_places (up : List (α × List α)) (before : List α) (F : Forest α) :
    outline (up.map Prod.fst) F =
      (places up before F).map fun p => (p.node, p.up.map Prod.fst) := by
  induction F generalizing up before with
  | nil => rfl
  | node a c s ihc ihs =>
      have hc := ihc ((a, before) :: up) []
      rw [List.map_cons] at hc
      rw [outline, places, List.map_cons, List.map_append, hc, ihs up (before ++ [a])]

/-- An entry of a path is the place of an ancestor, or one the forest hangs under. -/
theorem exists_place_above {up : List (α × List α)} {before : List α} {F : Forest α} {p : Place α}
    (hp : p ∈ places up before F) {l r : List (α × List α)} {x : α × List α}
    (hsplit : p.path = l ++ x :: r) :
    (∃ q ∈ places up before F, q.path = x :: r) ∨ x :: r <:+ up := by
  induction F generalizing up before with
  | nil => cases hp
  | node a c s ihc ihs =>
      have hself : (⟨a, c, before, s, up⟩ : Place α) ∈ places up before (node a c s) :=
        List.mem_cons_self
      rw [places, List.mem_cons, List.mem_append] at hp
      rcases hp with rfl | hp | hp
      · cases l with
        | nil => exact Or.inl ⟨_, hself, hsplit⟩
        | cons y l => exact Or.inr ⟨l, (List.cons.inj hsplit).2.symm⟩
      · rcases ihc hp with ⟨q, hq, hqp⟩ | ⟨l', hl'⟩
        · exact Or.inl ⟨q, List.mem_cons_of_mem _ (List.mem_append_left _ hq), hqp⟩
        · cases l' with
          | nil => exact Or.inl ⟨_, hself, hl'.symm⟩
          | cons y l' => exact Or.inr ⟨l', (List.cons.inj hl').2⟩
      · rcases ihs hp with ⟨q, hq, hqp⟩ | hup
        · exact Or.inl ⟨q, List.mem_cons_of_mem _ (List.mem_append_right _ hq), hqp⟩
        · exact Or.inr hup

/-- The places differ when the keys of the nodes do. -/
theorem eq_of_mem_places [DecidableEq κ] {key : α → κ} {up : List (α × List α)} {before : List α}
    {F : Forest α} (hF : (keys key F).Nodup) {p q : Place α} (hp : p ∈ places up before F)
    (hq : q ∈ places up before F) (h : key p.node = key q.node) : p = q := by
  rw [keys, preorder_eq_places up before, List.map_map] at hF
  exact List.inj_on_of_nodup_map hF hp hq h

/-! ### The siblings of a node -/

section locate

variable [DecidableEq κ] (key : α → κ)

/-- The search in the children of the nodes of a container: each container first, then below. -/
def locateContainerBelow (k : κ) : Forest α → Option (Forest α × ℕ)
  | nil => none
  | node _ c s =>
      match (roots c).findIdx? fun b => key b = k with
      | some i => some (c, i)
      | none => (locateContainerBelow k c).or (locateContainerBelow k s)

/-- The container a node is in, and its index there. -/
def locateContainer (k : κ) (F : Forest α) : Option (Forest α × ℕ) :=
  match (roots F).findIdx? fun b => key b = k with
  | some i => some (F, i)
  | none => locateContainerBelow key k F

variable {key}

/-- The roots are in pre-order. -/
theorem roots_sublist_preorder (F : Forest α) : (roots F).Sublist (preorder F) := by
  induction F with
  | nil => exact List.Sublist.refl _
  | node a c s _ ihs => exact (ihs.trans (List.sublist_append_right _ _)).cons_cons a

/-- The index splits the container at the place. -/
structure Splits (p : Place α) (F : Forest α) (i : ℕ) : Prop where
  index : i = p.before.length
  before : (roots F).take i = p.before
  after : (trees F).drop (i + 1) = trees p.after

omit [DecidableEq κ] in
/-- The node of a place is one of the forest. -/
theorem mem_keys_of_mem_places {up : List (α × List α)} {before : List α} {F : Forest α}
    {p : Place α} (hp : p ∈ places up before F) : key p.node ∈ keys key F := by
  rw [keys, preorder_eq_places up before, List.map_map]
  exact List.mem_map.mpr ⟨p, hp, rfl⟩

/-- At the top level of a container the search stops at the place. -/
theorem findIdx?_top {F : Forest α} (hF : (keys key F).Nodup) {p : Place α}
    {ts : List (α × Forest α)}
    (hts : trees F = ts ++ (p.node, p.children) :: trees p.after)
    (hbefore : p.before = ts.map Prod.fst) :
    ((roots F).findIdx? fun b => key b = key p.node) = some p.before.length ∧
      Splits p F p.before.length := by
  have hroots : roots F = p.before ++ p.node :: roots p.after := by
    rw [roots_eq_map, hts, List.map_append, List.map_cons, ← roots_eq_map, hbefore]
  have hnodup : ((roots F).map key).Nodup := by
    refine hF.sublist (List.Sublist.map key ?_)
    exact roots_sublist_preorder F
  rw [hroots, List.map_append, List.map_cons, List.nodup_append] at hnodup
  refine ⟨?_, rfl, ?_, ?_⟩
  · rw [hroots, List.findIdx?_append, List.findIdx?_eq_none_iff.mpr, Option.none_or,
      List.findIdx?_cons, if_pos (by simp)]
    · simp
    · intro b hb
      simpa using hnodup.2.2 (key b) (List.mem_map_of_mem hb) (key p.node) List.mem_cons_self
  · rw [hroots]
    exact List.take_left
  · rw [hts, hbefore, List.length_map, List.drop_append, Nat.add_sub_cancel_left,
      List.drop_eq_nil_of_le (Nat.le_succ _)]
    rfl

/-- A node that is no root has no index among them. -/
theorem findIdx?_roots_eq_none {k : κ} {F : Forest α} (h : ∀ b ∈ roots F, key b ≠ k) :
    ((roots F).findIdx? fun b => key b = k) = none := by
  rw [List.findIdx?_eq_none_iff]
  intro b hb
  simpa using h b hb

/-- A node that is not there is no root. -/
theorem ne_of_mem_roots {k : κ} {F : Forest α} (h : k ∉ keys key F) : ∀ b ∈ roots F, key b ≠ k :=
  fun _ hb hk => h (hk ▸ mem_keys_of_mem (mem_preorder_of_mem_roots hb))

/-- A node that is not there has no container. -/
theorem locateContainerBelow_of_not_mem {k : κ} {F : Forest α} (h : k ∉ keys key F) :
    locateContainerBelow key k F = none := by
  induction F with
  | nil => rfl
  | node a c s ihc ihs =>
      rw [keys_node, List.mem_cons, List.mem_append, not_or, not_or] at h
      rw [locateContainerBelow, findIdx?_roots_eq_none (ne_of_mem_roots h.2.1)]
      simp only [ihc h.2.1, ihs h.2.2, Option.or_none]

/-- A place is at the top level, or the search below finds its container. -/
theorem top_or_below {up : List (α × List α)} {before : List α} {F : Forest α}
    (hF : (keys key F).Nodup) {p : Place α} (hp : p ∈ places up before F) :
    (∃ ts, trees F = ts ++ (p.node, p.children) :: trees p.after ∧
      p.before = before ++ ts.map Prod.fst) ∨
    ((∀ a ∈ roots F, key a ≠ key p.node) ∧
      ∃ c i, locateContainerBelow key (key p.node) F = some (c, i) ∧ Splits p c i) := by
  induction F generalizing up before with
  | nil => cases hp
  | node a c s ihc ihs =>
      obtain ⟨⟨hac, has⟩, hc, hs, hdisj⟩ := nodup_node hF
      rw [places, List.mem_cons, List.mem_append] at hp
      rcases hp with rfl | hp | hp
      · exact Or.inl ⟨[], rfl, by simp⟩
      · -- below the first node
        have hk : key p.node ∈ keys key c := mem_keys_of_mem_places hp
        have ha : key a ≠ key p.node := fun h => foreign_some.mp hac (h ▸ hk)
        have hks : key p.node ∉ keys key s := fun h => hdisj hk h
        refine Or.inr ⟨List.forall_mem_cons.mpr ⟨ha, ne_of_mem_roots hks⟩, ?_⟩
        rw [locateContainerBelow]
        rcases ihc hc hp with ⟨ts, hts, hbefore⟩ | ⟨hnone, c', i, hfind, hsplit⟩
        · rw [List.nil_append] at hbefore
          obtain ⟨hfind, hsplit⟩ := findIdx?_top hc hts hbefore
          exact ⟨c, _, by rw [hfind], hsplit⟩
        · refine ⟨c', i, ?_, hsplit⟩
          rw [findIdx?_roots_eq_none hnone]
          simp only [hfind, Option.some_or]
      · have hk : key p.node ∈ keys key s := mem_keys_of_mem_places hp
        have ha : key a ≠ key p.node := fun h => foreign_some.mp has (h ▸ hk)
        have hkc : key p.node ∉ keys key c := fun h => hdisj h hk
        rcases ihs hs hp with ⟨ts, hts, hbefore⟩ | ⟨hnone, c', i, hfind, hsplit⟩
        · refine Or.inl ⟨(a, c) :: ts, ?_, ?_⟩
          · rw [trees, hts]
            rfl
          · rw [hbefore]
            simp
        · refine Or.inr ⟨List.forall_mem_cons.mpr ⟨ha, hnone⟩, c', i, ?_, hsplit⟩
          rw [locateContainerBelow, findIdx?_roots_eq_none (ne_of_mem_roots hkc)]
          simp only [locateContainerBelow_of_not_mem hkc, hfind, Option.none_or]

/-- **The search finds the container and the index of a place.** -/
theorem locateContainer_eq {F : Forest α} (hF : (keys key F).Nodup) {p : Place α}
    (hp : p ∈ places [] [] F) :
    ∃ c i, locateContainer key (key p.node) F = some (c, i) ∧ Splits p c i := by
  unfold locateContainer
  rcases top_or_below hF hp with ⟨ts, hts, hbefore⟩ | ⟨hnone, c, i, hfind, hsplit⟩
  · rw [List.nil_append] at hbefore
    obtain ⟨hfind, hsplit⟩ := findIdx?_top hF hts hbefore
    exact ⟨F, _, by rw [hfind], hsplit⟩
  · refine ⟨c, i, ?_, hsplit⟩
    rw [findIdx?_roots_eq_none hnone]
    exact hfind

end locate

/-! ### Other labels -/

/-- The forest with other labels. -/
def map (f : α → β) : Forest α → Forest β
  | nil => nil
  | node a c s => node (f a) (map f c) (map f s)

/-- Two changes of the nodes are one. -/
theorem map_map {γ : Type} (f : α → β) (g : β → γ) (F : Forest α) :
    map g (map f F) = map (fun a => g (f a)) F := by
  induction F with
  | nil => rfl
  | node a c s ihc ihs => rw [map, map, map, ihc, ihs]

@[simp] theorem map_id (F : Forest α) : map id F = F := by
  induction F with
  | nil => rfl
  | node a c s ihc ihs => rw [map, ihc, ihs, id]

/-- A place with other labels. -/
def Place.map (f : α → β) (p : Place α) : Place β where
  node := f p.node
  children := p.children.map f
  before := p.before.map f
  after := p.after.map f
  up := p.up.map fun x => (f x.1, x.2.map f)

/-- A change of the nodes leaves the places. -/
theorem places_map (f : α → β) (up : List (α × List α)) (before : List α) (F : Forest α) :
    places (up.map fun x => (f x.1, x.2.map f)) (before.map f) (map f F) =
      (places up before F).map (Place.map f) := by
  induction F generalizing up before with
  | nil => rfl
  | node a c s ihc ihs =>
      have hc := ihc ((a, before) :: up) []
      have hs := ihs up (before ++ [a])
      rw [List.map_cons, List.map_nil] at hc
      rw [List.map_append, List.map_singleton] at hs
      rw [map, places, places, List.map_cons, List.map_append, hc, hs]
      rfl

/-- The path of a changed place. -/
theorem Place.path_map (f : α → β) (p : Place α) :
    (p.map f).path = p.path.map fun x => (f x.1, x.2.map f) := rfl

/-- The places of a changed forest are those of the forest. -/
theorem mem_places_map {f : α → β} {F : Forest α} {p : Place β} :
    p ∈ places [] [] (map f F) ↔ ∃ q ∈ places [] [] F, q.map f = p := by
  have h := places_map f [] [] F
  rw [List.map_nil, List.map_nil] at h
  rw [h, List.mem_map]

/-- A forest is changed tree by tree. -/
theorem trees_map (f : α → β) (F : Forest α) :
    trees (map f F) = (trees F).map fun t => (f t.1, t.2.map f) := by
  induction F with
  | nil => rfl
  | node a c s _ ihs => rw [map, trees, trees, ihs, List.map_cons]

/-- A change of the nodes keeps their order. -/
theorem preorder_map (f : α → β) (F : Forest α) : preorder (map f F) = (preorder F).map f := by
  induction F with
  | nil => rfl
  | node a c s ihc ihs => rw [map, preorder, preorder, ihc, ihs, List.map_cons, List.map_append]

/-- And their ancestors. -/
theorem outline_map (f : α → β) (up : List α) (F : Forest α) :
    outline (up.map f) (map f F) = (outline up F).map fun r => (f r.1, r.2.map f) := by
  induction F generalizing up with
  | nil => rfl
  | node a c s ihc ihs =>
      have hc := ihc (a :: up)
      rw [List.map_cons] at hc
      rw [map, outline, outline, List.map_cons, List.map_append, hc, ihs up]

/-- And the children, when the keys stay. -/
theorem childrenIn_map [DecidableEq κ] {key : α → κ} {key' : β → κ} {f : α → β}
    (h : ∀ a, key' (f a) = key a) (q up : Option κ) (F : Forest α) :
    childrenIn key' q up (map f F) = (childrenIn key q up F).map f := by
  induction F generalizing up with
  | nil => rfl
  | node a c s ihc ihs =>
      rw [map, childrenIn, childrenIn, List.map_append, List.map_append, h a, ihc, ihs]
      split <;> rfl

/-- A concatenation is changed part by part. -/
theorem map_append (f : α → β) (F G : Forest α) : map f (F ++ G) = map f F ++ map f G := by
  induction F with
  | nil => rfl
  | node a c s _ ihs => rw [node_append, map, map, node_append, ihs]

/-- Labels can be changed before or after a contraction that asks for the same nodes. -/
theorem map_contract {f : α → β} {p : α → Bool} {q : β → Bool} (h : ∀ a, q (f a) = p a)
    (F : Forest α) : map f (contract p F) = contract q (map f F) := by
  induction F with
  | nil => rfl
  | node a c s ihc ihs =>
      rw [contract, map, contract, h a]
      split
      · rw [map, ihc, ihs]
      · rw [map_append, ihc, ihs]

/-- Two forests of the same shape. -/
def SameShape (F : Forest α) (G : Forest β) : Prop := map (fun _ => ()) F = map (fun _ => ()) G

/-- **Contractions of two forests of the same shape**, when node by node both keep it, with the
same label, or both do not. -/
theorem map_contract_eq {γ : Type} {f : α → γ} {g : β → γ} {p : α → Bool} {q : β → Bool}
    {F : Forest α} {G : Forest β} (hshape : SameShape F G)
    (h : List.Forall₂ (fun a b => p a = q b ∧ (p a = true → f a = g b)) (preorder F) (preorder G)) :
    map f (contract p F) = map g (contract q G) := by
  induction F generalizing G with
  | nil =>
      cases G with
      | nil => rfl
      | node b c s => cases hshape
  | node a c s ihc ihs =>
      cases G with
      | nil => cases hshape
      | node b c' s' =>
          rw [SameShape, map, map, node.injEq] at hshape
          obtain ⟨-, hc, hs⟩ := hshape
          have hlen : (preorder c).length = (preorder c').length := by
            simpa [preorder_map] using congrArg (fun X => (preorder X).length) hc
          obtain ⟨⟨hpq, hfg⟩, hrest⟩ := List.forall₂_cons.mp h
          have hrc := List.forall₂_take_append _ _ _ hrest
          have hrs := List.forall₂_drop_append _ _ _ hrest
          rw [← hlen, List.take_left] at hrc
          rw [← hlen, List.drop_left] at hrs
          rw [contract, contract, ← hpq]
          split
          · rename_i hp
            rw [map, map, hfg hp, ihc hc hrc, ihs hs hrs]
          · rw [map_append, map_append, ihc hc hrc, ihs hs hrs]

/-- Two forests of the same shape with the same labels, node by node. -/
theorem map_eq {γ : Type} {f : α → γ} {g : β → γ} {F : Forest α} {G : Forest β}
    (hshape : SameShape F G)
    (h : List.Forall₂ (fun a b => f a = g b) (preorder F) (preorder G)) : map f F = map g G := by
  have hcontract := map_contract_eq (p := fun _ => true) (q := fun _ => true) hshape
    (h.imp fun _ _ hab => ⟨rfl, fun _ => hab⟩)
  rwa [contract_eq_self fun _ _ => rfl, contract_eq_self fun _ _ => rfl] at hcontract

end Axan.Base.Forest
