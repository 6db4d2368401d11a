import Axan.EntryTree.Drag

/-!
# Two ways to a subtree

`SubtreeMask` finds the subtree of a row in one pass, since a parent stands in front of its
children. After a drop that need not be so any more, and the fix-up closes the id of the row under
children instead, in as many rounds as it takes.

* `Child`, `Reach` — the child links, and the rows that they lead to.
* `Family.eq_true_iff_reach` — a family is what its head reaches.
* `subtree_agrees` — **both ways lead to the rows that are reached**, in whatever order the rows are
  for the second.
-/

namespace Axan.EntryTree

open Axan.Base Axan.Base.Forest

/-- One row is the parent that another names. -/
def Child (l : Nodes) (m n : Node) : Prop :=
  m ∈ l ∧ n ∈ l ∧ n.parentId ≠ [] ∧ n.parentId = m.id

/-- The child links lead from a row to another. -/
def Reach (l : Nodes) : Node → Node → Prop := Relation.ReflTransGen (Child l)

section reach

variable {l : Nodes} {h n : Node} {p : Node → Bool}

/-- The links lead where the parent ids of the lines lead back from. -/
theorem Reach.below (hr : Reach l h n) : Below (lines l) n.id h.id := by
  induction hr with
  | refl => exact Relation.ReflTransGen.refl
  | tail _ hchild ih =>
      obtain ⟨-, hn, hne, hid⟩ := hchild
      have hstep := hangsAt_lines hn hne
      rw [hid] at hstep
      exact ih.head hstep

/-- **A family is what its head reaches.** -/
theorem Family.eq_true_iff_reach (hf : Family l h p) (ht : Tree l) (hn : n ∈ l) :
    p n = true ↔ Reach l h n := by
  refine ⟨fun hp => ?_, fun hr => (hf.eq_true_iff ht hn).mpr hr.below⟩
  -- up from parent to parent, each further to the front
  obtain ⟨pre, post, hl⟩ := List.append_of_mem hn
  induction hk : pre.length using Nat.strong_induction_on generalizing n pre post with
  | _ k ih =>
      by_cases hnh : n = h
      · rw [hnh]
        exact Relation.ReflTransGen.refl
      · obtain ⟨m, hb, hid, -, hpm⟩ := hf.parent_mem ht hn hp hnh
        obtain ⟨a, b, rfl⟩ := List.append_of_mem (hb.mem_of_split ht.nodup hl)
        have hlt : a.length < k := by
          rw [← hk, List.length_append, List.length_cons]
          omega
        have hchild : Child l m n := ⟨hb.mem_left, hn, hid ▸ ht.id_ne m hb.mem_left, hid.symm⟩
        exact (ih a.length hlt hb.mem_left hpm a (b ++ n :: post) (by rw [hl]; simp) rfl).tail hchild

end reach

/-- What the two ways should find, for the row `r` at `root`. -/
structure Agrees (l : Nodes) (root : ℕ) (r : Node) : Prop where
  length_eq : (subtreeMask l root).length = l.length
  /-- The pass marks the rows that are reached. -/
  mask : ∀ (i : ℕ) (n : Node), l[i]? = some n → ((subtreeMask l root)[i]? = some true ↔ Reach l r n)
  /-- In any order of the rows the rounds end, and collect the ids of the marked rows. -/
  closure : ∀ after : Nodes, after.Perm l →
    ∃ ids, closeLoop after (after.length + 1) [r.id] = .ok ids ∧
      ∀ x, x ∈ ids ↔ ∃ (i : ℕ) (n : Node), l[i]? = some n ∧ (subtreeMask l root)[i]? = some true ∧ n.id = x

/-- **The pass of `SubtreeMask` and the rounds of the fix-up find the same rows**, those that the
child links lead to. -/
theorem subtree_agrees {l : Nodes} (hwf : isWellFormed l = true) (hd : (l.map Node.id).Nodup)
    (hne : [] ∉ l.map Node.id) {root : ℕ} {r : Node} (hr : l[root]? = some r) : Agrees l root r := by
  have ht : Tree l := (tree_iff l).mpr ⟨hwf, hd, hne⟩
  obtain ⟨pre, post, rfl, rfl⟩ : ∃ pre post, l = pre ++ r :: post ∧ root = pre.length := by
    obtain ⟨hlt, hget⟩ := List.getElem?_eq_some_iff.mp hr
    refine ⟨l.take root, l.drop (root + 1), ?_, by rw [List.length_take]; omega⟩
    rw [← hget]
    simp
  have hmask := subtreeMask_eq ht
  have hf := family_subtree ht
  have hmarked : ∀ (i : ℕ) (n : Node), (pre ++ r :: post)[i]? = some n →
      ((subtreeMask (pre ++ r :: post) pre.length)[i]? = some true ↔ Reach (pre ++ r :: post) r n) := by
    intro i n hi
    rw [hmask, List.getElem?_map, hi, Option.map_some, Option.some.injEq]
    exact hf.eq_true_iff_reach ht (List.mem_of_getElem? hi)
  refine ⟨by rw [hmask, List.length_map], hmarked, fun after hperm => ?_⟩
  obtain ⟨ids, hloop, hf', hids⟩ := family_closure ht hf.head_mem fun n => hperm.mem_iff
  have hin {n : Node} (hn : n ∈ pre ++ r :: post) : n.id ∈ ids ↔ Reach (pre ++ r :: post) r n := by
    rw [← hf'.eq_true_iff_reach ht hn]
    simp [inIds]
  refine ⟨ids, hloop, fun x => ⟨fun hx => ?_, ?_⟩⟩
  · obtain ⟨n, hn, rfl⟩ := hids x hx
    obtain ⟨i, hi⟩ := List.mem_iff_getElem?.mp hn
    exact ⟨i, n, hi, (hmarked i n hi).mpr ((hin hn).mp hx), rfl⟩
  · rintro ⟨i, n, hi, hmark, rfl⟩
    exact (hin (List.mem_of_getElem? hi)).mpr ((hmarked i n hi).mp hmark)

/-- A family with a stranger among it. -/
def scatteredRows : Nodes :=
  [⟨L "a", [], false⟩, ⟨L "b", L "a", false⟩, ⟨L "x", [], false⟩, ⟨L "c", L "b", false⟩]

theorem subtree_agrees_scatteredRows : Agrees scatteredRows 0 ⟨L "a", [], false⟩ :=
  subtree_agrees (by decide) (by decide) (by decide) rfl

end Axan.EntryTree
