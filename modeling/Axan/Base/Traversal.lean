import Axan.Base.Lines

/-!
# Depth-first traversal with a stack

* `depthFirst` — take a node off the stack and put its children on it.
* `depthFirst_eq` — from the roots of a forest whose lines are in pre-order, it yields the lines.
* `Walk` — a traversal that ends, however long it takes.
* `walk_perm_iff` — **a traversal from the roots meets every node once exactly when every parent is
  one node and every node has a root above it.**
-/

namespace Axan.Base.Forest

variable {ρ κ : Type}

/-- The nodes in the order in which they leave the stack; none when the fuel does not suffice. -/
def depthFirst (kids : ρ → List ρ) : ℕ → List ρ → Option (List ρ)
  | _, [] => some []
  | 0, _ :: _ => none
  | n + 1, r :: stack => (depthFirst kids n (kids r ++ stack)).map (r :: ·)

/-! ### Over lines in pre-order -/

section Lines

variable [DecidableEq κ] (line : ρ → Line κ)

/-- The nodes of a part of the list whose parents are not in it. -/
def tops (R : List ρ) : List ρ :=
  R.filter fun r => ∀ p ∈ (line r).parent, p ∉ R.map fun r' => (line r').key

omit [DecidableEq κ] in
/-- The parent of a node below `a` is `a`, or below it as well. -/
theorem parent_of_below {a : κ} {up : List κ} {B : List (κ × List κ)} (h : IsOutline (a :: up) B)
    (hB : ∀ r ∈ B, a :: up <:+ r.2) {r : κ × List κ} (hr : r ∈ B) :
    ∃ p, r.2.head? = some p ∧ (p = a ∨ p ∈ B.map Prod.fst) := by
  obtain ⟨b, v⟩ := r
  obtain ⟨S, rfl⟩ := hB (b, v) hr
  cases S with
  | nil => exact ⟨a, rfl, Or.inl rfl⟩
  | cons x S =>
      refine ⟨x, rfl, Or.inr ?_⟩
      rcases h.mem_of_suffix hr (k := x) (T := S ++ a :: up) List.suffix_rfl with hmem | hsuffix
      · exact List.mem_map_of_mem hmem
      · have hlen := hsuffix.length_le
        simp only [List.length_cons, List.length_append] at hlen
        omega

variable {line}

/-- Nodes in front that hang at `k` or at one of `ks`, and nodes behind that do not hang at `k`: what
hangs outside of `ks` are the children of `k`, and what hangs outside of `ks` and of `k`. -/
theorem filter_outside_cons {k : κ} {ks : List κ} {RB RC : List ρ} (hk : k ∉ ks)
    (hB : ∀ c ∈ RB, ∃ p, (line c).parent = some p ∧ (p = k ∨ p ∈ ks))
    (hC : ∀ c ∈ RC, (line c).parent ≠ some k) :
    (RB ++ RC).filter (fun c => ∀ p ∈ (line c).parent, p ∉ ks) =
      (RB ++ RC).filter (fun c => (line c).parent = some k) ++
        (RB ++ RC).filter (fun c => ∀ p ∈ (line c).parent, p ∉ k :: ks) := by
  have hB₁ : RB.filter (fun c => ∀ p ∈ (line c).parent, p ∉ ks) =
      RB.filter (fun c => (line c).parent = some k) := by
    apply List.filter_congr
    intro c hc
    obtain ⟨p, hp, hcases⟩ := hB c hc
    rw [hp, decide_eq_decide]
    constructor
    · intro hall
      rcases hcases with rfl | hmem
      · rfl
      · exact absurd hmem (hall p rfl)
    · intro heq q hq
      obtain rfl := Option.some.inj hq
      obtain rfl := Option.some.inj heq
      exact hk
  have hB₂ : RB.filter (fun c => ∀ p ∈ (line c).parent, p ∉ k :: ks) = [] := by
    rw [List.filter_eq_nil_iff]
    intro c hc
    obtain ⟨p, hp, hcases⟩ := hB c hc
    rw [decide_eq_true_iff, hp]
    exact fun hall => hall p rfl (List.mem_cons.mpr hcases)
  have hC₁ : RC.filter (fun c => (line c).parent = some k) = [] := by
    rw [List.filter_eq_nil_iff]
    intro c hc
    simpa using hC c hc
  have hC₂ : RC.filter (fun c => ∀ p ∈ (line c).parent, p ∉ ks) =
      RC.filter (fun c => ∀ p ∈ (line c).parent, p ∉ k :: ks) := by
    apply List.filter_congr
    intro c hc
    rw [decide_eq_decide]
    refine forall₂_congr fun p hp => ?_
    rw [List.mem_cons, not_or]
    refine (and_iff_right ?_).symm
    rintro rfl
    exact hC c hc hp
  simp only [List.filter_append]
  rw [hB₁, hB₂, hC₁, hC₂, List.append_nil, List.nil_append]

/-- The children of the first node come in front of the other nodes that hang outside. -/
theorem tops_cons {r : ρ} {R : List ρ} {path : List κ} {O : List (κ × List κ)}
    (hflat : (r :: R).map line = flat O) (hO : IsOutline path O) (hnd : (O.map Prod.fst).Nodup)
    (hpath : ∀ x ∈ path, x ∉ O.map Prod.fst) :
    tops line (r :: R) = r :: R.filter (fun c => ∀ p ∈ (line c).parent,
        p ∉ (r :: R).map fun r' => (line r').key) ∧
      tops line R = R.filter (fun c => (line c).parent = some (line r).key) ++
        R.filter (fun c => ∀ p ∈ (line c).parent, p ∉ (r :: R).map fun r' => (line r').key) := by
  have hkeys : (r :: R).map (fun r' => (line r').key) = O.map Prod.fst := by
    rw [← map_key_flat, ← hflat, List.map_map]
    rfl
  obtain ⟨up, O', rfl, hup, hR⟩ := flat_eq_cons (x := line r) hflat.symm
  have hkeys' : R.map (fun r' => (line r').key) = O'.map Prod.fst := by
    rw [← map_key_flat, hR, List.map_map]
    rfl
  rw [List.map_cons, List.nodup_cons] at hnd
  constructor
  · rw [tops, List.filter_cons_of_pos]
    -- the first node hangs at the path
    rw [decide_eq_true_iff, hkeys]
    intro p hp
    exact hpath p (hO.1.mem (List.mem_of_mem_head? (hup.trans hp)))
  · obtain ⟨B, C, rfl, hB, hoB, hoC⟩ := IsOutline.exists_subtree hO.2 List.suffix_rfl
    obtain ⟨RB, RC, rfl, hRB, hRC⟩ := List.map_eq_append_iff.mp (hR.symm.trans (flat_append B C))
    rw [tops, hkeys, hkeys', List.map_cons]
    apply filter_outside_cons hnd.1
    · intro c hc
      have hmem : line c ∈ flat B := hRB ▸ List.mem_map_of_mem hc
      obtain ⟨x, hx, hline⟩ := List.mem_map.mp hmem
      obtain ⟨p, hp, hcases⟩ := parent_of_below hoB hB hx
      refine ⟨p, by rw [← hline]; exact hp, hcases.imp_right fun hpB => ?_⟩
      rw [List.map_append]
      exact List.mem_append_left _ hpB
    · intro c hc hparent
      have hmem : line c ∈ flat C := hRC ▸ List.mem_map_of_mem hc
      obtain ⟨x, hx, hline⟩ := List.mem_map.mp hmem
      rw [← hline] at hparent
      rcases hoC.mem_ancestors hx (List.mem_of_mem_head? hparent) with hC | hin
      · exact hnd.1 (by rw [List.map_append]; exact List.mem_append_right _ hC)
      · exact hpath _ (hO.1.mem hin) List.mem_cons_self

/-- The search from the tops of an outline lists its rows in order. -/
theorem depthFirst_tops {kids : ρ → List ρ} {R : List ρ} {path : List κ} {O : List (κ × List κ)}
    (hflat : R.map line = flat O) (hO : IsOutline path O) (hnd : (O.map Prod.fst).Nodup)
    (hpath : ∀ x ∈ path, x ∉ O.map Prod.fst)
    (hkids : ∀ r ∈ R, kids r = R.filter fun c => (line c).parent = some (line r).key) :
    depthFirst kids R.length (tops line R) = some R := by
  induction R generalizing path O with
  | nil => rfl
  | cons r R ih =>
      obtain ⟨hstack, htops⟩ := tops_cons hflat hO hnd hpath
      obtain ⟨up, O, rfl, hup, hR⟩ := flat_eq_cons (x := line r) hflat.symm
      have hnd' := List.nodup_cons.mp hnd
      -- the first node is no child of a node of the list
      have hfirst : ∀ k ∈ (((line r).key, up) :: O).map Prod.fst, (line r).parent ≠ some k := by
        intro k hk hparent
        exact hpath k (hO.1.mem (List.mem_of_mem_head? (hup.trans hparent))) hk
      have hkids' : ∀ c ∈ r :: R, kids c = R.filter fun c' => (line c').parent = some (line c).key := by
        intro c hc
        have hmem : (line c).key ∈ (((line r).key, up) :: O).map Prod.fst := by
          rw [← map_key_flat, ← hflat, List.map_map]
          exact List.mem_map_of_mem hc
        rw [hkids c hc, List.filter_cons_of_neg]
        simpa using hfirst _ hmem
      rw [hstack, List.length_cons, depthFirst, hkids' r List.mem_cons_self, ← htops,
        ih hR.symm hO.2 hnd'.2 ?_ fun c hc => hkids' c (List.mem_cons_of_mem _ hc)]
      · rfl
      · intro x hx
        rcases List.mem_cons.mp hx with rfl | hx
        · exact hnd'.1
        · exact fun hmem => hpath x (hO.1.mem hx) (List.mem_cons_of_mem _ hmem)

/-- **From the roots the traversal meets the nodes in pre-order.** -/
theorem depthFirst_eq {rows : List ρ} (h : PreOrder (rows.map line)) {kids : ρ → List ρ}
    (hkids : ∀ r ∈ rows, kids r = rows.filter fun c => (line c).parent = some (line r).key) :
    depthFirst kids rows.length (rows.filter fun c => (line c).parent = none) = some rows := by
  obtain ⟨O, hO, hnd, hflat⟩ := preOrder_iff.mp h
  have htops : tops line rows = rows.filter fun c => (line c).parent = none := by
    apply List.filter_congr
    intro c hc
    rw [decide_eq_decide]
    constructor
    · intro hall
      cases hparent : (line c).parent with
      | none => rfl
      | some p =>
          have hmem := h.parent_mem (List.mem_map_of_mem hc) hparent
          rw [List.map_map] at hmem
          exact absurd hmem (hall p hparent)
    · intro hnone p hp
      rw [hnone] at hp
      cases hp
  rw [← htops]
  exact depthFirst_tops hflat hO hnd (by simp) hkids

end Lines

/-! ### Traversals that end -/

/-- The nodes that leave the stack, in order. -/
inductive Walk (kids : ρ → List ρ) : List ρ → List ρ → Prop
  | nil : Walk kids [] []
  | cons {r : ρ} {S out : List ρ} : Walk kids (kids r ++ S) out → Walk kids (r :: S) (r :: out)

section Walks

variable {kids : ρ → List ρ} {S T out out' : List ρ}

/-- The search ends with a list when it is a walk. -/
theorem exists_depthFirst_iff :
    (∃ n, depthFirst kids n S = some out) ↔ Walk kids S out := by
  constructor
  · rintro ⟨n, hn⟩
    induction n generalizing S out with
    | zero =>
        cases S with
        | nil => cases hn; exact .nil
        | cons r S => cases hn
    | succ n ih =>
        cases S with
        | nil => cases hn; exact .nil
        | cons r S =>
            obtain ⟨out', hout, rfl⟩ := Option.map_eq_some_iff.mp hn
            exact .cons (ih hout)
  · intro h
    induction h with
    | nil => exact ⟨0, rfl⟩
    | cons _ ih =>
        obtain ⟨n, hn⟩ := ih
        exact ⟨n + 1, by rw [depthFirst, hn]; rfl⟩

/-- Two walks, one after the other. -/
theorem Walk.append (h : Walk kids S out) (h' : Walk kids T out') :
    Walk kids (S ++ T) (out ++ out') := by
  induction h with
  | nil => exact h'
  | cons _ ih => exact .cons (List.append_assoc _ _ _ ▸ ih)

/-- What leaves the stack was on it first, or was put on it by a node that left. -/
theorem Walk.perm (h : Walk kids S out) : out.Perm (S ++ out.flatMap kids) := by
  induction h with
  | nil => exact List.Perm.refl _
  | @cons r S out _ ih =>
      rw [List.flatMap_cons, List.cons_append]
      refine (ih.trans ?_).cons r
      rw [← List.append_assoc]
      exact List.perm_append_comm.append_right _

/-- What holds of the start and passes to children holds of all that is visited. -/
theorem Walk.forall_mem (h : Walk kids S out) {P : ρ → Prop} (hS : ∀ r ∈ S, P r)
    (hkids : ∀ r, P r → ∀ c ∈ kids r, P c) : ∀ r ∈ out, P r := by
  induction h with
  | nil => exact fun r hr => absurd hr List.not_mem_nil
  | @cons r S out _ ih =>
      have hr : P r := hS r List.mem_cons_self
      have hstack : ∀ c ∈ kids r ++ S, P c := by
        intro c hc
        rcases List.mem_append.mp hc with hc | hc
        · exact hkids r hr c hc
        · exact hS c (List.mem_cons_of_mem _ hc)
      exact List.forall_mem_cons.mpr ⟨hr, ih hstack⟩

/-- Below nodes without an endless descent the traversal ends. -/
theorem exists_walk (h : ∀ r ∈ S, Acc (fun c q => c ∈ kids q) r) : ∃ out, Walk kids S out := by
  have hall : ∀ S : List ρ, (∀ r ∈ S, ∃ out, Walk kids [r] out) → ∃ out, Walk kids S out := by
    intro S hS
    induction S with
    | nil => exact ⟨[], .nil⟩
    | cons r S ih =>
        obtain ⟨hr, hS⟩ := List.forall_mem_cons.mp hS
        obtain ⟨a, ha⟩ := hr
        obtain ⟨b, hb⟩ := ih hS
        exact ⟨a ++ b, ha.append hb⟩
  refine hall S fun r hr => ?_
  have hacc := h r hr
  clear hr
  induction hacc with
  | intro r _ ih =>
      obtain ⟨out, hout⟩ := hall (kids r) ih
      exact ⟨r :: out, .cons ((List.append_nil (kids r)).symm ▸ hout)⟩

end Walks

/-! ### Every node once -/

section Once

variable [DecidableEq ρ] [DecidableEq κ] {line : ρ → Line κ} {kids : ρ → List ρ}
  {rows out : List ρ}

/-- The parents of a node lead to a root. -/
inductive Rooted (line : ρ → Line κ) (rows : List ρ) : ρ → Prop
  | root {r : ρ} : (line r).parent = none → Rooted line rows r
  | child {r q : ρ} : q ∈ rows → (line r).parent = some (line q).key → Rooted line rows q →
      Rooted line rows r

/-- The nodes at which another node hangs have keys of their own. -/
def ParentsUnique (line : ρ → Line κ) (rows : List ρ) : Prop :=
  ∀ r ∈ rows, ∀ p ∈ (line r).parent, rows.countP (fun q => (line q).key = p) = 1

omit [DecidableEq ρ] in
/-- There is one row of the kind. -/
theorem eq_of_countP_eq_one {P : ρ → Bool} (h : rows.countP P = 1) {a b : ρ} (ha : a ∈ rows)
    (hb : b ∈ rows) (hPa : P a = true) (hPb : P b = true) : a = b := by
  rw [List.countP_eq_length_filter, List.length_eq_one_iff] at h
  obtain ⟨x, hx⟩ := h
  have ha' : a ∈ rows.filter P := List.mem_filter.mpr ⟨ha, hPa⟩
  have hb' : b ∈ rows.filter P := List.mem_filter.mpr ⟨hb, hPb⟩
  rw [hx, List.mem_singleton] at ha' hb'
  exact ha'.trans hb'.symm

omit [DecidableEq ρ] in
/-- The parent of a node is one node, so the way up from a rooted node ends. -/
theorem ParentsUnique.acc_up (h : ParentsUnique line rows) {r : ρ} (hr : r ∈ rows)
    (hrooted : Rooted line rows r) :
    Acc (fun q r => q ∈ rows ∧ (line r).parent = some (line q).key) r := by
  induction hrooted with
  | root hnone =>
      refine ⟨_, fun q hq => ?_⟩
      rw [hnone] at hq
      cases hq.2
  | child hq hparent _ ih =>
      refine ⟨_, fun q' hq' => ?_⟩
      have hkey : (line q').key = (line _).key := Option.some.inj (hq'.2.symm.trans hparent)
      have hone := h _ hr _ hparent
      obtain rfl := eq_of_countP_eq_one hone hq'.1 hq (decide_eq_true hkey) (decide_eq_true rfl)
      exact ih hq

omit [DecidableEq ρ] in
/-- Among finitely many nodes the way down ends as well. -/
theorem acc_down
    (hkids : ∀ q ∈ rows, kids q = rows.filter fun c => (line c).parent = some (line q).key)
    (h : ∀ r ∈ rows, Acc (fun q r => q ∈ rows ∧ (line r).parent = some (line q).key) r) :
    ∀ r ∈ rows, Acc (fun c q => c ∈ kids q) r := by
  let up (q r : {r // r ∈ rows}) : Prop := (line r.1).parent = some (line q.1).key
  have hup : WellFounded up := by
    refine ⟨fun r => ?_⟩
    obtain ⟨r, hr⟩ := r
    induction h r hr with
    | intro r _ ih => exact ⟨_, fun q hq => ih q.1 ⟨q.2, hq⟩ q.2⟩
  have hdown : WellFounded fun c q => Relation.TransGen up q c := by
    have : Finite {r // r ∈ rows} := rows.finite_toSet
    have : IsTrans {r // r ∈ rows} fun c q => Relation.TransGen up q c :=
      ⟨fun _ _ _ hab hbc => hbc.trans hab⟩
    have : Std.Irrefl fun c q => Relation.TransGen up q c :=
      ⟨fun r hrr => hup.transGen.irrefl.irrefl r hrr⟩
    exact Finite.wellFounded_of_trans_of_irrefl _
  intro r hr
  suffices hacc : ∀ q : {r // r ∈ rows}, Acc (fun c q => c ∈ kids q) q.1 from hacc ⟨r, hr⟩
  intro q
  induction q using hdown.induction with
  | _ q ih =>
      refine ⟨_, fun c hc => ?_⟩
      rw [hkids q.1 q.2, List.mem_filter, decide_eq_true_iff] at hc
      exact ih ⟨c, hc.1⟩ (.single hc.2)

/-- How often a node is met: as often as it is there, for every time its parent is met. -/
theorem Walk.count_eq
    (hkids : ∀ q ∈ rows, kids q = rows.filter fun c => (line c).parent = some (line q).key)
    (h : Walk kids (rows.filter fun c => (line c).parent = none) out) (hout : ∀ q ∈ out, q ∈ rows)
    (r : ρ) : out.count r = rows.count r *
      match (line r).parent with
      | none => 1
      | some p => out.countP fun q => (line q).key = p := by
  have hfilter : ∀ k : Option κ, (rows.filter fun c => (line c).parent = k).count r =
      if (line r).parent = k then rows.count r else 0 := by
    intro k
    split_ifs with hk
    · exact List.count_filter (by simpa using hk)
    · exact List.count_eq_zero.mpr fun hmem => hk (by simpa using (List.mem_filter.mp hmem).2)
  have hsum : (out.flatMap kids).count r = rows.count r *
      out.countP fun q => (line r).parent = some (line q).key := by
    clear h
    induction out with
    | nil => rfl
    | cons q out ih =>
        obtain ⟨hq, hout⟩ := List.forall_mem_cons.mp hout
        rw [List.flatMap_cons, List.count_append, ih hout, hkids q hq, hfilter, List.countP_cons]
        simp only [decide_eq_true_iff]
        split_ifs
        · rw [Nat.mul_add, Nat.mul_one, Nat.add_comm]
        · rw [Nat.zero_add, Nat.add_zero]
  rw [h.perm.count_eq, List.count_append, hfilter, hsum]
  cases hparent : (line r).parent with
  | none => simp
  | some p => simp [eq_comm]

/-- **Every node is met once exactly when every parent is one node and every node has a root above
it.** -/
theorem walk_perm_iff
    (hkids : ∀ q ∈ rows, kids q = rows.filter fun c => (line c).parent = some (line q).key) :
    (∃ out, Walk kids (rows.filter fun c => (line c).parent = none) out ∧ out.Perm rows) ↔
      ParentsUnique line rows ∧ ∀ r ∈ rows, Rooted line rows r := by
  have hrows : ∀ {out}, Walk kids (rows.filter fun c => (line c).parent = none) out →
      ∀ q ∈ out, q ∈ rows := by
    intro out hwalk
    refine hwalk.forall_mem (fun q hq => (List.mem_filter.mp hq).1) fun q hq c hc => ?_
    rw [hkids q hq] at hc
    exact (List.mem_filter.mp hc).1
  constructor
  · rintro ⟨out, hwalk, hperm⟩
    constructor
    · intro r hr p hp
      have hcount := hwalk.count_eq hkids (hrows hwalk) r
      rw [Option.mem_def.mp hp, hperm.count_eq] at hcount
      have hpos : 0 < rows.count r := List.count_pos_iff.mpr hr
      rw [← hperm.countP_eq]
      exact Nat.eq_of_mul_eq_mul_left hpos (by rw [← hcount, Nat.mul_one])
    · intro r hr
      refine (hwalk.forall_mem (P := fun q => q ∈ rows ∧ Rooted line rows q) ?_ ?_ r
        (hperm.mem_iff.mpr hr)).2
      · intro q hq
        rw [List.mem_filter, decide_eq_true_iff] at hq
        exact ⟨hq.1, .root hq.2⟩
      · rintro q ⟨hq, hrooted⟩ c hc
        rw [hkids q hq, List.mem_filter, decide_eq_true_iff] at hc
        exact ⟨hc.1, .child hq hc.2 hrooted⟩
  · rintro ⟨hunique, hrooted⟩
    have hacc := acc_down hkids fun r hr => hunique.acc_up hr (hrooted r hr)
    obtain ⟨out, hwalk⟩ := exists_walk fun r hr => hacc r (List.mem_filter.mp hr).1
    refine ⟨out, hwalk, List.perm_iff_count.mpr fun r => ?_⟩
    by_cases hr : r ∈ rows
    · induction hrooted r hr with
      | root hnone =>
          rw [hwalk.count_eq hkids (hrows hwalk), hnone, Nat.mul_one]
      | @child r q hq hparent _ ih =>
          have hone := hunique r hr _ hparent
          -- the only node with the key is the parent
          have hcount : ∀ l : List ρ, (∀ x ∈ l, x ∈ rows) →
              l.countP (fun x => (line x).key = (line q).key) = l.count q := by
            intro l hl
            refine List.countP_congr fun x hx => ?_
            rw [decide_eq_true_iff, beq_iff_eq]
            refine ⟨fun hkey => ?_, fun hx => by rw [hx]⟩
            exact eq_of_countP_eq_one hone (hl x hx) hq (decide_eq_true hkey) (decide_eq_true rfl)
          rw [hwalk.count_eq hkids (hrows hwalk), hparent]
          simp only
          rw [hcount out (hrows hwalk), ih hq, ← hcount rows fun _ hx => hx, hone, Nat.mul_one]
    · rw [List.count_eq_zero.mpr hr, List.count_eq_zero.mpr fun hmem => hr (hrows hwalk r hmem)]

end Once

end Axan.Base.Forest
