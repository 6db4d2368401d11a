import Axan.Base.Contiguous
import Axan.Base.Pairs
import Axan.EntryTree.Ops

/-!
# Well-formed lists and what keeps them so

* `Tree` — the invariant the editor keeps: `isWellFormed`, with ids that are distinct and not
  empty (`tree_iff`). Its parent clause speaks of rows and their order, not of a map.
* `Tree.append_root`, `Tree.insert_copy`, `Tree.setParent`, `Tree.promote` — one lemma for each
  edit of single rows.
* `Family` — a row with the rows below it, as a predicate: closed under children, and holding
  nothing else. `Tree.blockMove` is the one lemma about moving a family elsewhere, with a new
  parent for its head.
* `lines` — the rows as lines with parent pointers; a family is what is below its head
  (`Family.eq_true_iff`).
-/

namespace Axan.EntryTree

open Axan.Base

/-- The invariant of the row list. -/
structure Tree (l : Nodes) : Prop where
  /-- No id is empty. -/
  id_ne : ∀ n ∈ l, n.id ≠ []
  /-- No id is used twice. -/
  distinct : (l.map Node.id).Nodup
  /-- A parent id names an earlier row that is no separator. -/
  parent : ∀ n ∈ l, n.parentId ≠ [] → ∃ m, Before l m n ∧ m.id = n.parentId ∧ m.separator = false

theorem Tree.nodup {l : Nodes} (h : Tree l) : l.Nodup := h.distinct.of_map

/-- A row is known by its id. -/
theorem Tree.eq_of_id {l : Nodes} (h : Tree l) {m n : Node} (hm : m ∈ l) (hn : n ∈ l)
    (hid : m.id = n.id) : m = n := List.inj_on_of_nodup_map h.distinct hm hn hid

/-! ## The check and the invariant -/

/-- A lookup among the rows seen so far. -/
def flags (l : Nodes) : List (WString × Bool) := l.map fun n => (n.id, n.separator)

/-- The check goes through when every parent is in front and no separator. -/
theorem wellFormedFrom_iff (seen : List (WString × Bool)) (l : Nodes) :
    wellFormedFrom seen l = true ↔ ∀ pre n post, l = pre ++ n :: post →
      n.parentId = [] ∨ (seen ++ flags pre).lookup n.parentId = some false := by
  induction l generalizing seen with
  | nil => simp [wellFormedFrom]
  | cons a l ih =>
      rw [wellFormedFrom, Bool.and_eq_true, ih]
      have hhead : (a.parentId.isEmpty || decide (seen.lookup a.parentId = some false)) = true ↔
          a.parentId = [] ∨ seen.lookup a.parentId = some false := by simp
      rw [hhead]
      constructor
      · rintro ⟨ha, hl⟩ pre n post h
        cases pre with
        | nil =>
            obtain ⟨rfl, rfl⟩ := List.cons.inj h
            simpa [flags] using ha
        | cons b pre =>
            obtain ⟨rfl, rfl⟩ := List.cons.inj h
            simpa [flags] using hl pre n post rfl
      · intro h
        refine ⟨by simpa [flags] using h [] a l rfl, fun pre n post hl => ?_⟩
        subst hl
        simpa [flags] using h (a :: pre) n post rfl

/-- A flag that is found is that of a row. -/
theorem mem_flags_of_lookup {l : Nodes} {id : WString} {b : Bool}
    (h : (flags l).lookup id = some b) : ∃ m ∈ l, m.id = id ∧ m.separator = b := by
  obtain ⟨m, hml, he⟩ := List.mem_map.mp (mem_of_lookup h)
  obtain ⟨rfl, rfl⟩ := Prod.mk.inj he
  exact ⟨m, hml, rfl, rfl⟩

/-- The flag of a row is found. -/
theorem lookup_flags {l : Nodes} (hd : (l.map Node.id).Nodup) {m : Node} (hm : m ∈ l) :
    (flags l).lookup m.id = some m.separator := by
  have hnd : ((flags l).map Prod.fst).Nodup := by
    rw [flags, List.map_map]
    exact hd
  exact lookup_of_mem hnd (List.mem_map_of_mem hm)

/-- **The invariant is the source's check, with distinct and nonempty ids.** -/
theorem tree_iff (l : Nodes) :
    Tree l ↔ isWellFormed l = true ∧ (l.map Node.id).Nodup ∧ [] ∉ l.map Node.id := by
  have hne : (∀ n ∈ l, n.id ≠ []) ↔ [] ∉ l.map Node.id := by simp
  rw [isWellFormed, wellFormedFrom_iff]
  constructor
  · intro h
    refine ⟨fun pre n post hl => ?_, h.distinct, hne.mp h.id_ne⟩
    by_cases hp : n.parentId = []
    · exact Or.inl hp
    · obtain ⟨m, hb, hid, hs⟩ := h.parent n (by simp [hl]) hp
      have hm : m ∈ pre := hb.mem_of_split h.nodup hl
      have hd : (pre.map Node.id).Nodup := by
        have := h.distinct
        rw [hl, List.map_append] at this
        exact this.of_append_left
      right
      rw [List.nil_append, ← hid, lookup_flags hd hm, hs]
  · rintro ⟨hw, hd, hn⟩
    refine ⟨hne.mpr hn, hd, fun n hmem hp => ?_⟩
    obtain ⟨pre, post, hl⟩ := List.append_of_mem hmem
    rcases hw pre n post hl with h | h
    · exact absurd h hp
    · rw [List.nil_append] at h
      obtain ⟨m, hm, hid, hs⟩ := mem_flags_of_lookup h
      exact ⟨m, before_of_split hl hm, hid, hs⟩

/-! ## Edits of single rows -/

/-- Appending a root with a fresh id. -/
theorem Tree.append_root {l : Nodes} (h : Tree l) {n : Node} (hp : n.parentId = [])
    (hne : n.id ≠ []) (hfresh : n.id ∉ l.map Node.id) : Tree (l ++ [n]) where
  id_ne := by
    intro m hm
    rcases List.mem_append.mp hm with hm | hm
    · exact h.id_ne m hm
    · rw [List.mem_singleton.mp hm]
      exact hne
  distinct := by
    rw [List.map_append, List.nodup_append]
    refine ⟨h.distinct, List.nodup_singleton _, ?_⟩
    rintro a ha b hb rfl
    rw [List.map_singleton, List.mem_singleton] at hb
    exact hfresh (hb ▸ ha)
  parent := by
    intro m hm hmp
    rcases List.mem_append.mp hm with hm | hm
    · obtain ⟨q, hb, hq⟩ := h.parent m hm hmp
      exact ⟨q, hb.of_sublist (List.sublist_append_left _ _), hq⟩
    · rw [List.mem_singleton.mp hm] at hmp
      exact absurd hp hmp

/-- Inserting, somewhere behind a row, a copy of it with a fresh id. -/
theorem Tree.insert_copy {pre mid post : Nodes} {s c : Node}
    (h : Tree (pre ++ s :: mid ++ post)) (hp : c.parentId = s.parentId) (hne : c.id ≠ [])
    (hfresh : c.id ∉ (pre ++ s :: mid ++ post).map Node.id) :
    Tree (pre ++ s :: mid ++ c :: post) := by
  have hperm : (pre ++ s :: mid ++ c :: post).Perm (c :: (pre ++ s :: mid ++ post)) :=
    List.perm_middle
  have hsub : (pre ++ s :: mid ++ post).Sublist (pre ++ s :: mid ++ c :: post) :=
    (List.Sublist.refl _).append (List.sublist_cons_self _ _)
  refine ⟨fun m hm => ?_, ?_, fun m hm hmp => ?_⟩
  · rcases List.mem_cons.mp (hperm.subset hm) with rfl | hm
    · exact hne
    · exact h.id_ne m hm
  · rw [(hperm.map Node.id).nodup_iff, List.map_cons, List.nodup_cons]
    exact ⟨hfresh, h.distinct⟩
  · rcases List.mem_cons.mp (hperm.subset hm) with rfl | hm
    · -- the copy's parent is the source's, in front of the source
      rw [hp] at hmp ⊢
      obtain ⟨q, hb, hq⟩ := h.parent s (by simp) hmp
      have hpre : q ∈ pre := hb.mem_of_split h.nodup (List.append_assoc _ _ _)
      refine ⟨q, before_append ?_ List.mem_cons_self, hq⟩
      exact List.mem_append_left _ hpre
    · obtain ⟨q, hb, hq⟩ := h.parent m hm hmp
      exact ⟨q, hb.of_sublist hsub, hq⟩

/-- A row can take any parent in front of it that is no separator. -/
theorem Tree.setParent {pre post : Nodes} {n n' : Node} (h : Tree (pre ++ n :: post))
    (hid : n'.id = n.id) (hsep : n'.separator = n.separator)
    (hp : n'.parentId = [] ∨ ∃ m ∈ pre, m.id = n'.parentId ∧ m.separator = false) :
    Tree (pre ++ n' :: post) := by
  classical
  have hnd := h.nodup
  -- the new list is the old one with `n` exchanged, row by row
  let f : Node → Node := fun m => if m = n then n' else m
  have hout : ∀ m ∈ pre ++ post, f m = m := by
    intro m hm
    have hne : m ≠ n := by
      rintro rfl
      have hd := List.nodup_middle.mp hnd
      exact (List.nodup_cons.mp hd).1 hm
    exact if_neg hne
  have hmap : pre ++ n' :: post = (pre ++ n :: post).map f := by
    have h₁ : pre.map f = pre := (List.map_congr_left fun m hm =>
      hout m (List.mem_append_left _ hm)).trans (List.map_id _)
    have h₂ : post.map f = post := (List.map_congr_left fun m hm =>
      hout m (List.mem_append_right _ hm)).trans (List.map_id _)
    have h₃ : f n = n' := if_pos rfl
    rw [List.map_append, List.map_cons, h₁, h₂, h₃]
  have hfid : ∀ m, (f m).id = m.id := by
    intro m
    by_cases hm : m = n
    · rw [show f m = n' from if_pos hm, hid, hm]
    · rw [show f m = m from if_neg hm]
  have hfsep : ∀ m, (f m).separator = m.separator := by
    intro m
    by_cases hm : m = n
    · rw [show f m = n' from if_pos hm, hsep, hm]
    · rw [show f m = m from if_neg hm]
  refine ⟨fun m hm => ?_, ?_, fun m hm hmp => ?_⟩
  · rw [hmap] at hm
    obtain ⟨m, hml, rfl⟩ := List.mem_map.mp hm
    rw [hfid]
    exact h.id_ne m hml
  · have : (pre ++ n' :: post).map Node.id = (pre ++ n :: post).map Node.id := by simp [hid]
    rw [this]
    exact h.distinct
  · rw [hmap] at hm
    obtain ⟨m, hml, rfl⟩ := List.mem_map.mp hm
    by_cases hmn : m = n
    · rw [show f m = n' from if_pos hmn] at hmp ⊢
      rcases hp with hp | ⟨q, hq, hqs⟩
      · exact absurd hp hmp
      · exact ⟨q, before_append hq List.mem_cons_self, hqs⟩
    · rw [show f m = m from if_neg hmn] at hmp
      obtain ⟨q, hb, hq, hs⟩ := h.parent m hml hmp
      refine ⟨f q, ?_, ?_, ?_⟩
      · rw [hmap]
        exact hb.map f
      · rw [hfid, hq, show f m = m from if_neg hmn]
      · rw [hfsep, hs]

/-- A row of a list from which `d` is taken out: a child of `d` goes to `d`'s parent.
Source: `DeleteEntry`, the promotion loop -/
def promoted (d n : Node) : Node :=
  if n.parentId = d.id then { n with parentId := d.parentId } else n

@[simp] theorem promoted_id (d n : Node) : (promoted d n).id = n.id := by
  unfold promoted
  split_ifs <;> rfl

@[simp] theorem promoted_separator (d n : Node) : (promoted d n).separator = n.separator := by
  unfold promoted
  split_ifs <;> rfl

/-- Taking a row out, with its children promoted. -/
theorem Tree.promote {pre post : Nodes} {d : Node} (h : Tree (pre ++ d :: post)) :
    Tree ((pre ++ post).map (promoted d)) := by
  have hnd := h.nodup
  have hsub : (pre ++ post).Sublist (pre ++ d :: post) :=
    (List.Sublist.refl _).append (List.sublist_cons_self _ _)
  have hd : d ∉ pre ++ post := (List.nodup_cons.mp (List.nodup_middle.mp hnd)).1
  -- rows other than `d` keep their order
  have hkeep : ∀ {m n : Node}, Before (pre ++ d :: post) m n → m ≠ d → n ≠ d →
      Before (pre ++ post) m n := by
    intro m n hb hm hn
    have hfilter : (pre ++ d :: post).filter (· ≠ d) = pre ++ post := by
      have hself : ∀ l : Nodes, d ∉ l → l.filter (· ≠ d) = l := by
        intro l hl
        rw [List.filter_eq_self]
        intro m hm
        exact decide_eq_true fun he => hl (he ▸ hm)
      rw [List.filter_append, List.filter_cons_of_neg (by simp),
        hself pre fun hm => hd (List.mem_append_left _ hm),
        hself post fun hm => hd (List.mem_append_right _ hm)]
    rw [← hfilter]
    exact hb.filter (by simpa using hm) (by simpa using hn)
  refine ⟨fun n' hn' => ?_, ?_, fun n' hn' hp => ?_⟩
  · obtain ⟨n, hn, rfl⟩ := List.mem_map.mp hn'
    rw [promoted_id]
    exact h.id_ne n (hsub.subset hn)
  · rw [List.map_map, show Node.id ∘ promoted d = Node.id from funext fun n => promoted_id d n]
    exact h.distinct.sublist (hsub.map Node.id)
  · obtain ⟨n, hn, rfl⟩ := List.mem_map.mp hn'
    have hnl := hsub.subset hn
    have hnd' : n ≠ d := fun he => hd (he ▸ hn)
    by_cases hc : n.parentId = d.id
    · -- a child of `d`: its new parent stands before `d`, and `d` before it
      have hpd : d.parentId ≠ [] := by simpa [promoted, hc] using hp
      obtain ⟨q, hb, hq, hs⟩ := h.parent d (by simp) hpd
      have hqpre : q ∈ pre := hb.mem_of_split hnd rfl
      have hne : n.parentId ≠ [] := fun he => h.id_ne d (by simp) (by rw [← hc, he])
      obtain ⟨e, hbe, he, -⟩ := h.parent n hnl hne
      have hed : e = d := h.eq_of_id hbe.mem_left (by simp) (by rw [he, hc])
      subst hed
      have hnpost : n ∈ post := by
        rcases List.mem_append.mp hn with hn' | hn'
        · -- `n` in front of its parent
          exfalso
          obtain ⟨a, b, hab⟩ := List.append_of_mem hn'
          have hl : pre ++ e :: post = a ++ n :: (b ++ e :: post) := by simp [hab]
          have := hbe.mem_of_split hnd hl
          exact hd (List.mem_append_left _ (hab ▸ List.mem_append_left _ this))
        · exact hn'
      refine ⟨promoted e q, (before_append hqpre hnpost).map _, ?_, by simpa using hs⟩
      rw [promoted_id, promoted, if_pos hc, hq]
    · have hpn : promoted d n = n := if_neg hc
      rw [hpn] at hp
      obtain ⟨q, hb, hq, hs⟩ := h.parent n hnl hp
      have hqd : q ≠ d := fun he => hc (by rw [← hq, he])
      refine ⟨promoted d q, (hkeep hb hqd hnd').map _, ?_, by simpa using hs⟩
      rw [promoted_id, hpn, hq]

/-! ## Moving a family -/

/-- The rows `p` selects are `h` and the rows below it. -/
structure Family (l : Nodes) (h : Node) (p : Node → Bool) : Prop where
  head_mem : h ∈ l
  head : p h = true
  /-- A child of a member is a member. -/
  closed : ∀ m ∈ l, ∀ n ∈ l, p m = true → n.parentId = m.id → p n = true
  /-- A member other than the head is a child of a member. -/
  proper : ∀ n ∈ l, p n = true → n = h ∨ ∃ m ∈ l, p m = true ∧ n.parentId = m.id

section family

variable {l : Nodes} {h : Node} {p : Node → Bool}

/-- The parent of a member other than the head is a member. -/
theorem Family.parent_mem (hf : Family l h p) (ht : Tree l) {n : Node} (hn : n ∈ l)
    (hp : p n = true) (hne : n ≠ h) : ∃ m, Before l m n ∧ m.id = n.parentId ∧
      m.separator = false ∧ p m = true := by
  rcases hf.proper n hn hp with he | ⟨m, hm, hpm, hid⟩
  · exact absurd he hne
  · have hpn : n.parentId ≠ [] := by
      rw [hid]
      exact ht.id_ne m hm
    obtain ⟨m', hb, hid', hs⟩ := ht.parent n hn hpn
    have : m' = m := ht.eq_of_id hb.mem_left hm (by rw [hid', hid])
    exact ⟨m', hb, hid', hs, this ▸ hpm⟩

/-- No member stands in front of the head. -/
theorem Family.pre_false (hf : Family l h p) (ht : Tree l) {pre post : Nodes}
    (hl : l = pre ++ h :: post) : ∀ n ∈ pre, p n = false := by
  have hnd := ht.nodup
  -- along the prefix: the parent of a member would be an earlier one
  have key : ∀ a b : Nodes, pre = a ++ b → ∀ n ∈ a, p n = false := by
    intro a
    induction a using List.reverseRecOn with
    | nil => simp
    | append_singleton a m ih =>
        intro b hab n hn
        have iha := ih (m :: b) (by simp [hab])
        rcases List.mem_append.mp hn with hn | hn
        · exact iha n hn
        · rw [List.mem_singleton.mp hn]
          by_contra hpm
          rw [Bool.not_eq_false] at hpm
          have hml : m ∈ l := by simp [hl, hab]
          have hmh : m ≠ h := by
            rintro rfl
            rw [hl] at hnd
            exact (List.nodup_cons.mp (List.nodup_middle.mp hnd)).1 (by simp [hab])
          obtain ⟨q, hb, -, -, hpq⟩ := hf.parent_mem ht hml hpm hmh
          have hl' : l = a ++ m :: (b ++ h :: post) := by simp [hl, hab]
          have hq : q ∈ a := hb.mem_of_split hnd hl'
          rw [iha q hq] at hpq
          cases hpq
  exact key pre [] (by simp)

/-- The rows outside the family form a tree of their own. -/
theorem Family.tree_rest (hf : Family l h p) (ht : Tree l) : Tree (l.filter fun n => !p n) where
  id_ne := fun n hn => ht.id_ne n (List.mem_of_mem_filter hn)
  distinct := ht.distinct.sublist (List.filter_sublist.map _)
  parent := by
    intro n hn hp
    obtain ⟨hnl, hpn⟩ := List.mem_filter.mp hn
    obtain ⟨m, hb, hid, hs⟩ := ht.parent n hnl hp
    have hpm : p m = false := by
      by_contra hpm
      rw [Bool.not_eq_false] at hpm
      have := hf.closed m hb.mem_left n hnl hpm hid.symm
      rw [this] at hpn
      cases hpn
    exact ⟨m, hb.filter (by simp [hpm]) hpn, hid, hs⟩

/-- The members in list order start with the head. -/
theorem Family.filter_eq (hf : Family l h p) (ht : Tree l) :
    l.filter p = h :: l.filter fun n => p n && n ≠ h := by
  obtain ⟨pre, post, hl⟩ := List.append_of_mem hf.head_mem
  have hpre := hf.pre_false ht hl
  have hnot : h ∉ post := by
    have hnd := ht.nodup
    rw [hl] at hnd
    intro hm
    exact (List.nodup_cons.mp (List.nodup_middle.mp hnd)).1 (List.mem_append_right _ hm)
  have h₁ : pre.filter p = [] := List.filter_eq_nil_iff.mpr fun n hn => by simp [hpre n hn]
  have h₂ : (pre.filter fun n => p n && n ≠ h) = [] :=
    List.filter_eq_nil_iff.mpr fun n hn => by simp [hpre n hn]
  have h₃ : (post.filter fun n => p n && n ≠ h) = post.filter p :=
    List.filter_congr fun n hn => by
      have : n ≠ h := fun he => hnot (he ▸ hn)
      simp [this]
  rw [hl, List.filter_append, List.filter_append, h₁, h₂, List.filter_cons_of_pos hf.head,
    List.filter_cons_of_neg (by simp), h₃]
  rfl

/-- The rows outside the family, the head and the other members make up the list. -/
theorem Family.perm (hf : Family l h p) (ht : Tree l) :
    ((l.filter fun n => !p n) ++ h :: l.filter fun n => p n && n ≠ h).Perm l := by
  rw [← hf.filter_eq ht]
  exact List.perm_append_comm.trans (List.filter_append_perm p l)

/-- **Moving a family**: the family is put, head first, between the rows outside it, and the head
takes a parent among those in front. -/
theorem Tree.blockMove (ht : Tree l) (hf : Family l h p) {h' : Node} (hid : h'.id = h.id)
    (hsep : h'.separator = h.separator) (k : ℕ)
    (hp : h'.parentId = [] ∨
      ∃ m ∈ (l.filter fun n => !p n).take k, m.id = h'.parentId ∧ m.separator = false) :
    Tree ((l.filter fun n => !p n).take k ++ (h' :: l.filter fun n => p n && n ≠ h) ++
      (l.filter fun n => !p n).drop k) := by
  set rest := l.filter fun n => !p n with hrest
  set below := l.filter fun n => p n && n ≠ h with hbelow
  have hsplit : rest.take k ++ rest.drop k = rest := List.take_append_drop k rest
  have hrsub : rest.Sublist (rest.take k ++ (h' :: below) ++ rest.drop k) := by
    have := (List.sublist_append_left (rest.take k) (h' :: below)).append
      (List.Sublist.refl (rest.drop k))
    rwa [hsplit] at this
  have hbsub : (h' :: below).Sublist (rest.take k ++ (h' :: below) ++ rest.drop k) :=
    (List.sublist_append_right _ _).trans (List.sublist_append_left _ _)
  have hmem : ∀ {n}, n ∈ rest.take k ++ (h' :: below) ++ rest.drop k →
      n ∈ rest ∨ n = h' ∨ n ∈ below := by
    intro n hn
    rcases List.mem_append.mp hn with hn | hn
    · rcases List.mem_append.mp hn with hn | hn
      · exact Or.inl (List.mem_of_mem_take hn)
      · exact Or.inr (List.mem_cons.mp hn)
    · exact Or.inl (List.mem_of_mem_drop hn)
  have htr : Tree rest := hf.tree_rest ht
  refine ⟨fun n hn => ?_, ?_, fun n hn hpn => ?_⟩
  · rcases hmem hn with hn | rfl | hn
    · exact htr.id_ne n hn
    · rw [hid]
      exact ht.id_ne h hf.head_mem
    · exact ht.id_ne n (List.mem_of_mem_filter hn)
  · -- the ids are those of `l`, in another order
    have hperm : (rest.take k ++ (h' :: below) ++ rest.drop k).Perm (rest ++ h' :: below) := by
      rw [List.append_assoc]
      refine (List.Perm.append_left _ List.perm_append_comm).trans ?_
      rw [← List.append_assoc, hsplit]
    have hids : (rest ++ h' :: below).map Node.id = (rest ++ h :: below).map Node.id := by
      simp [hid]
    rw [(hperm.map Node.id).nodup_iff, hids, ((hf.perm ht).map Node.id).nodup_iff]
    exact ht.distinct
  · rcases hmem hn with hn | rfl | hn
    · obtain ⟨m, hb, hm⟩ := htr.parent n hn hpn
      exact ⟨m, hb.of_sublist hrsub, hm⟩
    · rcases hp with hp | ⟨m, hm, hms⟩
      · exact absurd hp hpn
      · refine ⟨m, ?_, hms⟩
        rw [List.append_assoc]
        exact before_append hm (by simp)
    · obtain ⟨hnl, hpn'⟩ := List.mem_filter.mp hn
      rw [Bool.and_eq_true, decide_eq_true_eq] at hpn'
      obtain ⟨m, hb, hmid, hms, hpm⟩ := hf.parent_mem ht hnl hpn'.1 hpn'.2
      by_cases hmh : m = h
      · -- a child of the head: the head comes first in the block
        refine ⟨h', ?_, by rw [hid, ← hmid, hmh], by rw [hsep, ← hmh, hms]⟩
        have hb' : Before ([h'] ++ below) h' n := before_append List.mem_cons_self hn
        exact hb'.of_sublist hbsub
      · have hbb : Before below m n := hb.filter (by simp [hpm, hmh]) (by simp [hpn'.1, hpn'.2])
        exact ⟨m, (hbb.of_sublist (List.sublist_cons_self _ _)).of_sublist hbsub, hmid, hms⟩

end family

/-! ## Rows as lines -/

open Forest

/-- A row as a line with a pointer to its parent. -/
def toLine (n : Node) : Line WString := ⟨n.id, if n.parentId = [] then none else some n.parentId⟩

/-- The rows as lines. -/
def lines (l : Nodes) : List (Line WString) := l.map toLine

/-- The keys of the lines are the ids. -/
theorem map_key_lines (l : Nodes) : (lines l).map Line.key = l.map Node.id := by
  rw [lines, List.map_map]
  rfl

/-- A parent id that is empty is no parent. -/
theorem parent_toLine {n : Node} {j : WString} (h : (toLine n).parent = some j) :
    n.parentId = j ∧ j ≠ [] := by
  rw [toLine] at h
  split_ifs at h with hp
  obtain rfl := Option.some.inj h
  exact ⟨rfl, hp⟩

/-- A row with a parent id hangs under that parent. -/
theorem hangsAt_lines {l : Nodes} {n : Node} (hn : n ∈ l) (hp : n.parentId ≠ []) :
    HangsAt (lines l) n.id n.parentId :=
  ⟨toLine n, List.mem_map_of_mem hn, rfl, by rw [toLine, if_neg hp]⟩

/-- In a well-formed list the parents come first. -/
theorem Tree.parentsFirst {l : Nodes} (ht : Tree l) : ParentsFirst (lines l) := by
  refine ⟨by rw [map_key_lines]; exact ht.distinct, fun q hq j hj => ?_⟩
  obtain ⟨n, hn, rfl⟩ := List.mem_map.mp hq
  obtain ⟨rfl, hp⟩ := parent_toLine hj
  obtain ⟨m, hb, hid, -⟩ := ht.parent n hn hp
  rw [map_key_lines, ← hid]
  exact hb.map Node.id

/-- **A family is what is below its head.** -/
theorem Family.eq_true_iff {l : Nodes} {h : Node} {p : Node → Bool} (hf : Family l h p)
    (ht : Tree l) {n : Node} (hn : n ∈ l) : p n = true ↔ Below (lines l) n.id h.id := by
  constructor
  · -- up from parent to parent, each further to the front
    obtain ⟨pre, post, hl⟩ := List.append_of_mem hn
    induction hk : pre.length using Nat.strong_induction_on generalizing n pre post with
    | _ k ih =>
        intro hpn
        by_cases hnh : n = h
        · rw [hnh]
          exact Relation.ReflTransGen.refl
        · obtain ⟨m, hb, hid, -, hpm⟩ := hf.parent_mem ht hn hpn hnh
          obtain ⟨a, b, rfl⟩ := List.append_of_mem (hb.mem_of_split ht.nodup hl)
          have hlt : a.length < k := by
            rw [← hk, List.length_append, List.length_cons]
            omega
          have hstep : HangsAt (lines l) n.id n.parentId :=
            hangsAt_lines hn (hid ▸ ht.id_ne m hb.mem_left)
          rw [← hid] at hstep
          exact (ih a.length hlt hb.mem_left a (b ++ n :: post) (by rw [hl]; simp) rfl hpm).head hstep
  · intro hbelow
    generalize hi : n.id = i at hbelow
    induction hbelow using Relation.ReflTransGen.head_induction_on generalizing n with
    | refl =>
        rw [ht.eq_of_id hn hf.head_mem hi]
        exact hf.head
    | head hstep _ ih =>
        obtain ⟨q, hq, hkey, hparent⟩ := hstep
        obtain ⟨n', hn', rfl⟩ := List.mem_map.mp hq
        obtain rfl : n' = n := ht.eq_of_id hn' hn (hkey.trans hi.symm)
        obtain ⟨hpar, hne⟩ := parent_toLine hparent
        obtain ⟨m, hb, hid, -⟩ := ht.parent n' hn (hpar ▸ hne)
        exact hf.closed m hb.mem_left n' hn (ih hb.mem_left (hid.trans hpar)) hid.symm

end Axan.EntryTree
