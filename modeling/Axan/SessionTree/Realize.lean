import Axan.SessionTree.Spawn

/-!
# The startup tree in the sidebar

When every startup action opens a tab, the live tree is the tree of the entries: one node per
entry of a known kind, in the scope its parent id names, and every scope in the order of the list
with the bottom separators behind.

* `rowNode` — the node of a row; `placed` — the rows as nodes with their scopes.
* `anchors` — the pairs the separators before a row were counted under, and `lastIn_split` — where
  the sibling a separator follows stands in its scope.
* `Realizing` — the invariant of the pass over the separators: the rows done stand in list order,
  followed by the sessions to come. `Realizing.separator` is the step.
* `startup_tree` — the tree after the launch.
-/

namespace Axan.SessionTree

open Axan.Base Axan.Base.Forest Axan.LaunchEntryWire

/-! ### The nodes of the rows -/

/-- The node of a row, where `m` sessions are spawned before the first separator. -/
def rowNode (settings : List LaunchEntry) (m : ℕ) (r : Row) : SessionNode :=
  if r.entry.isSeparator then
    let sep := startupSeparator r.entry none none
    createSeparatorNode (m + r.rank) sep.id sep.style sep.height sep.placement sep.label
      sep.collapsed
  else
    createSessionNode settings r.rank r.rank r.entry.name r.entry.icon r.entry.color
      r.entry.colorTarget r.entry.id

/-- The rows as nodes, each with its scope. -/
def placed (settings : List LaunchEntry) (m : ℕ) (rs : List Row) : List (Option ℕ × SessionNode) :=
  rs.map fun r => (r.scope, rowNode settings m r)

/-- The identity of the node of a row. -/
def rowIdent (m : ℕ) (r : Row) : ℕ := if r.entry.isSeparator then m + r.rank else r.rank

/-- The node of a row has its identity. -/
theorem rowNode_ident (settings : List LaunchEntry) (m : ℕ) (r : Row) :
    (rowNode settings m r).ident = rowIdent m r := by
  rw [rowNode, rowIdent]
  cases r.entry.isSeparator <;> rfl

/-- The rows of a scope. -/
def inScope (q : Option ℕ) (rs : List Row) : List Row := rs.filter fun r => r.scope = q

/-- The rows of a scope are placed in it. -/
theorem filter_placed (settings : List LaunchEntry) (m : ℕ) (q : Option ℕ) (rs : List Row) :
    ((placed settings m rs).filter fun r => r.1 = q) = placed settings m (inScope q rs) := by
  rw [placed, List.filter_map, placed, inScope]
  rfl

variable {settings : List LaunchEntry} {m : ℕ}

/-- The sessions are the rows that are no separators. -/
theorem mapIdx_sessionsOf (host : Host) (dp : Profile) (older rest : List LaunchEntry) :
    ((sessionsOf host dp (rowsFrom older rest)).mapIdx fun k s =>
        (s.parentIndex, slotNode settings (k + sessionCount older) s)) =
      placed settings m ((rowsFrom older rest).filter fun r => !r.entry.isSeparator) := by
  induction rest generalizing older with
  | nil => rfl
  | cons e rest ih =>
      have hrest := ih (e :: older)
      cases hsep : e.isSeparator with
      | true =>
          simp only [sessionCount, List.countP_cons, hsep, Bool.not_true, Bool.false_eq_true,
            if_false, Nat.add_zero] at hrest
          simpa [rowsFrom, sessionsOf, hsep, sessionCount] using hrest
      | false =>
          have hcount : ∀ k, k + 1 + sessionCount older = k + sessionCount (e :: older) := by
            intro k
            rw [sessionCount, sessionCount, List.countP_cons]
            simp only [hsep, Bool.not_false, if_true]
            omega
          have hhead : sessionsOf host dp (rowsFrom older (e :: rest)) =
              startupSession host dp e (parentIn older e.parentId) ::
                sessionsOf host dp (rowsFrom (e :: older) rest) := by
            simp [rowsFrom, sessionsOf, hsep]
          rw [hhead, List.mapIdx_cons]
          simp only [hcount, hrest]
          simp [rowsFrom, placed, hsep, rowNode, slotNode, startupSession, rankIn]

/-- The slots of the tree are the rows of its sessions. -/
theorem slotNodes_sessionsOf (host : Host) (dp : Profile) (entries : List LaunchEntry) :
    slotNodes settings (sessionsOf host dp (rows entries))
        (sessionsOf host dp (rows entries)).length =
      placed settings m ((rows entries).filter fun r => !r.entry.isSeparator) := by
  rw [slotNodes, List.take_length, rows, ← mapIdx_sessionsOf host dp [] (entries.filter knownKind)]
  rfl

/-! ### Where a separator goes -/

/-- The rows behind others are numbered in order, and their scopes are earlier sessions; the rows
are given latest first. -/
def Ranked : List Row → Prop
  | [] => True
  | r :: older =>
      r.rank = rankIn (older.map Row.entry) r.entry ∧
        (∀ i, r.scope = some i → i < sessionCount (older.map Row.entry)) ∧ Ranked older

/-- The scope and the preceding session of every separator; the rows are given latest first. -/
def anchors : List Row → List (Option ℕ × Option ℕ)
  | [] => []
  | r :: older =>
      if r.entry.isSeparator then (r.scope, lastIn r.scope older) :: anchors older
      else anchors older

/-- One more entry may be one more session. -/
theorem sessionCount_cons (e : LaunchEntry) (l : List LaunchEntry) :
    sessionCount (e :: l) = sessionCount l + if e.isSeparator then 0 else 1 := by
  rw [sessionCount, List.countP_cons, sessionCount]
  cases e.isSeparator <;> rfl

theorem separatorCount_cons (e : LaunchEntry) (l : List LaunchEntry) :
    separatorCount (e :: l) = separatorCount l + if e.isSeparator then 1 else 0 := by
  rw [separatorCount, List.countP_cons, separatorCount]

/-- The last session of a scope is an earlier one. -/
theorem lastIn_lt {q : Option ℕ} {a : ℕ} {done : List Row} (hd : Ranked done)
    (h : lastIn q done = some a) : a < sessionCount (done.map Row.entry) := by
  induction done with
  | nil => cases h
  | cons r older ih =>
      rw [List.map_cons, sessionCount_cons]
      rw [lastIn] at h
      by_cases hr : (!r.entry.isSeparator && decide (r.scope = q)) = true
      · rw [if_pos hr, Option.some.injEq] at h
        simp only [Bool.and_eq_true, Bool.not_eq_true'] at hr
        rw [← h, hd.1, rankIn, hr.1]
        simp
      · rw [if_neg hr] at h
        exact (ih hd.2.2 h).trans_le (Nat.le_add_right _ _)

theorem anchors_lt {q : Option ℕ} {a : ℕ} {done : List Row} (hd : Ranked done)
    (h : (q, some a) ∈ anchors done) : a < sessionCount (done.map Row.entry) := by
  induction done with
  | nil => cases h
  | cons r older ih =>
      have hle : sessionCount (older.map Row.entry) ≤ sessionCount ((r :: older).map Row.entry) := by
        rw [List.map_cons, sessionCount_cons]
        exact Nat.le_add_right _ _
      rw [anchors] at h
      split at h
      · rcases List.mem_cons.mp h with h | h
        · exact (lastIn_lt hd.2.2 (Prod.ext_iff.mp h).2.symm).trans_le hle
        · exact (ih hd.2.2 h).trans_le hle
      · exact (ih hd.2.2 h).trans_le hle

/-- Ranks are below the number of sessions. -/
theorem rank_lt {done : List Row} (hd : Ranked done) {r : Row} (hr : r ∈ done)
    (hsep : r.entry.isSeparator = false) : r.rank < sessionCount (done.map Row.entry) := by
  induction done with
  | nil => cases hr
  | cons r' older ih =>
      rw [List.map_cons, sessionCount_cons]
      rcases List.mem_cons.mp hr with rfl | hr
      · rw [hd.1, rankIn, hsep]
        simp
      · exact (ih hd.2.2 hr).trans_le (Nat.le_add_right _ _)

/-- The node of the next session is new. -/
theorem rowIdent_ne {done : List Row} (hd : Ranked done)
    (hm : sessionCount (done.map Row.entry) < m) {r : Row} (hr : r ∈ done) :
    rowIdent m r ≠ sessionCount (done.map Row.entry) := by
  rw [rowIdent]
  cases hsep : r.entry.isSeparator with
  | true =>
      rw [if_pos rfl]
      omega
  | false =>
      rw [if_neg (by simp)]
      exact (rank_lt hd hr hsep).ne

/-- One more row is in its scope only. -/
theorem inScope_reverse_cons (q : Option ℕ) (r : Row) (older : List Row) :
    inScope q (r :: older).reverse =
      inScope q older.reverse ++ if r.scope = q then [r] else [] := by
  rw [inScope, List.reverse_cons, List.filter_append, inScope]
  congr 1
  rw [List.filter_cons]
  simp

/-- Without a session in the scope, the rows of the scope are the separators counted. -/
theorem length_inScope_of_lastIn {q : Option ℕ} {done : List Row} (h : lastIn q done = none) :
    (anchors done).count (q, none) = (inScope q done.reverse).length := by
  induction done with
  | nil => rfl
  | cons r older ih =>
      rw [inScope_reverse_cons, List.length_append]
      rw [lastIn] at h
      by_cases hr : (!r.entry.isSeparator && decide (r.scope = q)) = true
      · rw [if_pos hr] at h
        cases h
      · rw [if_neg hr] at h
        rw [anchors, ← ih h]
        by_cases hq : r.scope = q
        · have hsep : r.entry.isSeparator = true := by simpa [hq] using hr
          rw [if_pos hsep, if_pos hq, hq, h, List.count_cons_self]
          rfl
        · rw [if_neg hq, List.length_nil, Nat.add_zero]
          split
          · exact List.count_cons_of_ne (fun h => hq (Prod.ext_iff.mp h).1)
          · rfl

/-- The latest session of a scope, with the separators counted behind it. -/
theorem lastIn_split {q : Option ℕ} {a : ℕ} {done : List Row} (hd : Ranked done)
    (hm : sessionCount (done.map Row.entry) ≤ m) (h : lastIn q done = some a) :
    ∃ l₁ r l₂, inScope q done.reverse = l₁ ++ r :: l₂ ∧ rowIdent m r = a ∧
      (∀ r' ∈ l₁, rowIdent m r' ≠ a) ∧ l₂.length = (anchors done).count (q, some a) := by
  induction done with
  | nil => cases h
  | cons r older ih =>
      rw [List.map_cons, sessionCount_cons] at hm
      have hm' : sessionCount (older.map Row.entry) ≤ m := by omega
      rw [inScope_reverse_cons, anchors]
      rw [lastIn] at h
      by_cases hr : (!r.entry.isSeparator && decide (r.scope = q)) = true
      · rw [if_pos hr, Option.some.injEq] at h
        simp only [Bool.and_eq_true, Bool.not_eq_true', decide_eq_true_eq] at hr
        have hrank : r.rank = sessionCount (older.map Row.entry) := by
          rw [hd.1, rankIn, hr.1]
          simp
        rw [hr.1] at hm
        simp only [Bool.false_eq_true, if_false] at hm
        refine ⟨inScope q older.reverse, r, [], ?_, ?_, ?_, ?_⟩
        · rw [if_pos hr.2]
        · rw [rowIdent, hr.1, if_neg (by simp), h]
        · intro r' hr'
          rw [← h, hrank]
          apply rowIdent_ne hd.2.2 (by omega)
          exact List.mem_reverse.mp (List.mem_filter.mp hr').1
        · rw [hr.1, if_neg (by simp), List.length_nil, eq_comm, List.count_eq_zero]
          intro hmem
          have := anchors_lt hd.2.2 hmem
          omega
      · rw [if_neg hr] at h
        obtain ⟨l₁, r₀, l₂, hsplit, hident, hnot, hlen⟩ := ih hd.2.2 hm' h
        by_cases hq : r.scope = q
        · have hsep : r.entry.isSeparator = true := by simpa [hq] using hr
          refine ⟨l₁, r₀, l₂ ++ [r], ?_, hident, hnot, ?_⟩
          · rw [if_pos hq, hsplit, List.append_assoc, List.cons_append]
          · rw [if_pos hsep, hq, h, List.count_cons_self, List.length_append, hlen]
            rfl
        · refine ⟨l₁, r₀, l₂, ?_, hident, hnot, ?_⟩
          · rw [if_neg hq, List.append_nil, hsplit]
          · rw [hlen]
            split
            · exact (List.count_cons_of_ne (fun h => hq (Prod.ext_iff.mp h).1)).symm
            · rfl

/-! ### The pass over the separators -/

/-- The rows `done`, latest first, stand in list order, followed by the sessions of `rest`. -/
structure Realizing (settings : List LaunchEntry) (m : ℕ) (done rest : List Row)
    (st : Page × List ((Option ℕ × Option ℕ) × ℕ)) : Prop where
  lists : Lists SessionNode.ident st.1.tree (placed settings m done.reverse ++
    placed settings m (rest.filter fun r => !r.entry.isSeparator))
  valid : st.1.Valid
  slots : ∀ k < m, st.1.startupNodesBySpawnIndex[k]? = some (some k)
  sessions : ∀ k < m, k ∈ keys SessionNode.ident st.1.tree
  created : st.1.nodesCreated = m + separatorCount (done.map Row.entry)
  counts : ∀ k, Page.insertedCount st.2 k = (anchors done).count k
  ranked : Ranked done
  bound : sessionCount (done.map Row.entry) ≤ m

variable {done rest : List Row} {st : Page × List ((Option ℕ × Option ℕ) × ℕ)} {r : Row}

/-- A spawn index leads to the node of its rank. -/
theorem Realizing.nodeBySpawnIndex (h : Realizing settings m done rest st) {q : Option ℕ}
    (hq : ∀ i, q = some i → i < m) : st.1.nodeBySpawnIndex q = q := by
  cases q with
  | none => rfl
  | some i =>
      have hi := hq i rfl
      simp [Page.nodeBySpawnIndex, h.slots i hi, h.sessions i hi]

/-- A session of the list is there already. -/
theorem Realizing.session (h : Realizing settings m done (r :: rest) st)
    (hsep : r.entry.isSeparator = false) (hr : Ranked (r :: done))
    (hm : sessionCount ((r :: done).map Row.entry) ≤ m) :
    Realizing settings m (r :: done) rest st where
  lists := by
    have := h.lists
    rw [List.filter_cons_of_pos (by simp [hsep])] at this
    simpa [placed] using this
  valid := h.valid
  slots := h.slots
  sessions := h.sessions
  created := by
    rw [h.created, List.map_cons, separatorCount_cons, hsep]
    rfl
  counts := by
    intro k
    rw [h.counts, anchors, hsep]
    rfl
  ranked := hr
  bound := hm

/-- The children of a scope: the rows done, then sessions to come. -/
theorem Realizing.childrenIn_eq (h : Realizing settings m done rest st) (q : Option ℕ) :
    childrenIn SessionNode.ident q none st.1.tree =
      (inScope q done.reverse).map (rowNode settings m) ++
        (inScope q (rest.filter fun r => !r.entry.isSeparator)).map (rowNode settings m) := by
  rw [h.lists.scopes q, List.filter_append, filter_placed, filter_placed, placed, placed,
    List.map_append, List.map_map, List.map_map]
  rfl

/-- The position of a separator: behind the rows of its scope that are done. -/
theorem Realizing.position (h : Realizing settings m done rest st) {q : Option ℕ}
    (hq : ∀ i, q = some i → i < m) (e : LaunchEntry) :
    (st.1.separatorPosition q (startupSeparator e q (lastIn q done))).2 = true ∧
      (st.1.separatorPosition q (startupSeparator e q (lastIn q done))).1 +
        (anchors done).count (q, lastIn q done) = (inScope q done.reverse).length := by
  have hpresent : Present SessionNode.ident q st.1.tree := fun k hk => h.sessions k (hq k hk)
  have hafter : (startupSeparator e q (lastIn q done)).afterSpawnIndex = lastIn q done := rfl
  rw [Page.separatorPosition, hafter]
  cases hlast : lastIn q done with
  | none => exact ⟨rfl, by rw [length_inScope_of_lastIn hlast, Nat.zero_add]⟩
  | some a =>
      have ha : a < m := (lastIn_lt h.ranked hlast).trans_le h.bound
      have hnode : st.1.nodeBySpawnIndex (some a) = some a :=
        h.nodeBySpawnIndex fun i hi => Option.some.inj hi ▸ ha
      obtain ⟨l₁, r₀, l₂, hsplit, hident, hnot, hlen⟩ := lastIn_split h.ranked h.bound hlast
      have hindex : indexIn q a st.1.tree = some l₁.length := by
        rw [indexIn_eq h.valid.nodup hpresent, h.childrenIn_eq q, hsplit, List.map_append,
          List.map_cons, List.append_assoc, List.cons_append]
        have hfront : ((l₁.map (rowNode settings m)).findIdx? fun n => decide (n.ident = a)) =
            none := by
          apply List.findIdx?_eq_none_iff.mpr
          intro n hn
          obtain ⟨r', hr', rfl⟩ := List.mem_map.mp hn
          simpa [rowNode_ident] using hnot r' hr'
        rw [List.findIdx?_append, hfront, List.findIdx?_cons, rowNode_ident, hident]
        simp
      simp only [hnode, hindex]
      refine ⟨trivial, ?_⟩
      rw [hsplit, List.length_append, List.length_cons, hlen]
      omega

/-- The count of an anchor is the last one kept. -/
theorem insertedCount_cons (l : List ((Option ℕ × Option ℕ) × ℕ)) (k k' : Option ℕ × Option ℕ)
    (n : ℕ) :
    Page.insertedCount ((k, n) :: l) k' = if k' = k then n else Page.insertedCount l k' := by
  rw [Page.insertedCount, List.lookup_cons]
  by_cases h : k' = k
  · simp [h]
  · rw [if_neg h, beq_false_of_ne h, Page.insertedCount]

/-- A separator goes behind the rows of its scope that are done. -/
theorem Realizing.separator (h : Realizing settings m done (r :: rest) st)
    (hsep : r.entry.isSeparator = true) (hr : Ranked (r :: done)) :
    Realizing settings m (r :: done) rest (Page.realizeSeparator st
      (startupSeparator r.entry r.scope (lastIn r.scope done))) := by
  have hscope : ∀ i, r.scope = some i → i < m := fun i hi => (hr.2.1 i hi).trans_le h.bound
  have hparent : st.1.nodeBySpawnIndex r.scope = r.scope := h.nodeBySpawnIndex hscope
  have hpresent : Present SessionNode.ident r.scope st.1.tree :=
    fun k hk => h.sessions k (hscope k hk)
  have hkey : (if r.scope.isSome = true then r.scope else none) = r.scope := by
    cases r.scope <;> rfl
  obtain ⟨hresolved, hposition⟩ := h.position hscope r.entry
  obtain ⟨n, hins, -, -, -⟩ := Page.realizeSeparator_inserts st
    (startupSeparator r.entry r.scope (lastIn r.scope done))
  have hsize : (inScope r.scope done.reverse).length ≤ sizeIn r.scope st.1.tree := by
    rw [sizeIn_eq h.valid.nodup hpresent, h.childrenIn_eq, List.length_append, List.length_map]
    exact Nat.le_add_right _ _
  have hnode : createSeparatorNode st.1.nodesCreated r.entry.id
      (startupSeparator r.entry none none).style (startupSeparator r.entry none none).height
      (startupSeparator r.entry none none).placement (startupSeparator r.entry none none).label
      (startupSeparator r.entry none none).collapsed = rowNode settings m r := by
    rw [rowNode, if_pos hsep, hr.1, rankIn, if_pos hsep, h.created]
    rfl
  have hfresh : (rowNode settings m r).ident ∉ keys SessionNode.ident st.1.tree := by
    intro hk
    have := h.valid.created _ hk
    rw [← hnode] at this
    exact absurd this (Nat.lt_irrefl _)
  -- the round, with everything resolved
  have hround : Page.realizeSeparator st
      (startupSeparator r.entry r.scope (lastIn r.scope done)) =
      ({ st.1 with
          tree := insertIn SessionNode.ident r.scope (inScope r.scope done.reverse).length
            (rowNode settings m r) st.1.tree
          nodesCreated := st.1.nodesCreated + 1 },
        ((r.scope, lastIn r.scope done), (anchors done).count (r.scope, lastIn r.scope done) + 1) ::
          st.2) := by
    have hp : (startupSeparator r.entry r.scope (lastIn r.scope done)).parentSpawnIndex =
        r.scope := rfl
    have ha : (startupSeparator r.entry r.scope (lastIn r.scope done)).afterSpawnIndex =
        lastIn r.scope done := rfl
    simp only [Page.realizeSeparator, hp, ha, hparent, hkey, hresolved, if_true, h.counts,
      hposition, min_eq_left hsize]
    rw [← hnode]
    rfl
  have hlists := h.lists
  rw [List.filter_cons_of_neg (by simp [hsep])] at hlists
  have hinsert := hlists.insert h.valid.nodup hfresh hpresent
  rw [filter_placed, placed, List.length_map] at hinsert
  have hvalid := hins.valid h.valid
  have hperm := hins.perm h.valid
  rw [hround] at hvalid hperm ⊢
  refine ⟨?_, hvalid, h.slots, ?_, ?_, ?_, hr, ?_⟩
  · simpa [placed] using hinsert
  · intro k hk
    exact (hperm.map SessionNode.ident).mem_iff.mpr (List.mem_cons_of_mem _ (h.sessions k hk))
  · rw [List.map_cons, separatorCount_cons, if_pos hsep]
    simp only [h.created]
    omega
  · intro k
    rw [insertedCount_cons, anchors, if_pos hsep, List.count_cons, h.counts]
    by_cases hk : k = (r.scope, lastIn r.scope done)
    · rw [if_pos hk, hk]
      simp
    · rw [if_neg hk, if_neg (by simpa using Ne.symm hk), Nat.add_zero]
  · rw [List.map_cons, sessionCount_cons, if_pos hsep]
    exact h.bound

/-- The rows behind others, as the loader counts them. -/
theorem ranked_rowsFrom {es : List LaunchEntry} {r : Row} {rest' : List Row}
    (hd : Ranked done) (h : rowsFrom (done.map Row.entry) es = r :: rest') :
    Ranked (r :: done) ∧ ∃ es', rowsFrom ((r :: done).map Row.entry) es' = rest' ∧
      es = r.entry :: es' := by
  cases es with
  | nil => cases h
  | cons e es =>
      rw [rowsFrom, List.cons.injEq] at h
      obtain ⟨rfl, rfl⟩ := h
      exact ⟨⟨rfl, fun i hi => parentIn_lt hi, hd⟩, es, rfl, rfl⟩

/-- All separators are put where their rows stand. -/
theorem realizing_foldl {es : List LaunchEntry} (hrest : rowsFrom (done.map Row.entry) es = rest)
    (h : Realizing settings m done rest st)
    (hm : sessionCount (done.map Row.entry) + sessionCount es ≤ m) :
    Realizing settings m (rest.reverse ++ done) []
      ((separatorsFrom done rest).foldl Page.realizeSeparator st) := by
  induction rest generalizing done st es with
  | nil => exact h
  | cons r rest ih =>
      obtain ⟨hr, es', hrest', rfl⟩ := ranked_rowsFrom h.ranked hrest
      rw [sessionCount_cons] at hm
      have hm' : sessionCount ((r :: done).map Row.entry) + sessionCount es' ≤ m := by
        rw [List.map_cons, sessionCount_cons]
        omega
      rw [List.reverse_cons, List.append_assoc, separatorsFrom]
      cases hsep : r.entry.isSeparator with
      | true =>
          rw [if_pos rfl, List.foldl_cons]
          exact ih hrest' (h.separator hsep hr) hm'
      | false =>
          rw [if_neg (by simp)]
          exact ih hrest' (h.session hsep hr (by omega)) hm'

/-! ### The tree after the launch -/

/-- The live tree shows some rows: one node per row, in its scope, in order, with the bottom
separators of each scope behind the others. -/
structure Shows (settings : List LaunchEntry) (m : ℕ) (rs : List Row) (T : LiveTree) : Prop where
  nodes : (preorder T).Perm (rs.map (rowNode settings m))
  distinct : (keys SessionNode.ident T).Nodup
  scopes : ∀ q, childrenIn SessionNode.ident q none T =
    behind SessionNode.isBottomSeparator ((inScope q rs).map (rowNode settings m))

/-- There is a session for each session entry. -/
theorem length_sessionsOf (host : Host) (dp : Profile) (older rest : List LaunchEntry) :
    (sessionsOf host dp (rowsFrom older rest)).length = sessionCount rest := by
  have hmap := map_entry_rowsFrom older rest
  rw [sessionsOf, List.length_map, ← List.countP_eq_length_filter, sessionCount, ← hmap,
    List.countP_map, hmap]
  rfl

/-- Before the first separator the tree has the sessions alone. -/
theorem realizing_start {S : List StartupSession} {seps : List StartupSeparator}
    {host : Host} {dp : Profile} {entries : List LaunchEntry} {p : Page}
    (hS : S = sessionsOf host dp (rows entries))
    (h : Page.Spawned entries S seps S.length p) :
    Realizing entries S.length [] (rows entries)
      ({ p with startupNodeCursor := S.length, startupSeparatorsRealized := true }, []) where
  lists := by
    have hlists := h.lists
    rw [hS, slotNodes_sessionsOf (m := S.length)] at hlists
    exact hlists
  valid := h.valid.of_perm (List.Perm.refl _) rfl
  slots := by
    intro k hk
    rw [h.state]
    exact Page.getElem?_slots _ hk
  sessions := fun k hk => h.mem_keys.mpr hk
  created := by
    rw [h.state]
    rfl
  counts := fun _ => rfl
  ranked := trivial
  bound := Nat.zero_le _

/-- A session below another comes behind it. -/
theorem scope_lt_of_mem_rowsFrom {older rest : List LaunchEntry} {r : Row}
    (hr : r ∈ rowsFrom older rest) (hsep : r.entry.isSeparator = false) {i : ℕ}
    (hi : r.scope = some i) : i < r.rank := by
  induction rest generalizing older with
  | nil => cases hr
  | cons e rest ih =>
      rcases List.mem_cons.mp hr with rfl | hr
      · have hrank : rankIn older e = sessionCount older := by
          rw [rankIn, if_neg]
          simpa using hsep
        rw [hrank]
        exact parentIn_lt hi
      · exact ih hr

/-- The startup tree shows the rows. -/
theorem shows_startup {host : Host} {dp : Profile} {entries : List LaunchEntry}
    {outcome : ℕ → Option ℕ} (hd : host.defaultProfile = some dp) (hs : HasSession entries)
    (hall : ∀ i, (outcome i).isSome = true) :
    Shows entries (sessionCount (entries.filter knownKind)) (rows entries)
      (Page.startup host entries outcome).tree := by
  have hload := loadStartupTree_eq hd hs
  set S := sessionsOf host dp (rows entries) with hS
  set seps := separatorsFrom [] (rows entries)
  have hfirst : ParentsFirst S := by
    have := loadStartupTree_parents host (some entries)
    rwa [hload] at this
  have hlen : ((List.range S.length).map outcome).length = S.length := by simp
  have hcount : ((List.range S.length).map outcome).countP Option.isSome = S.length := by
    rw [List.countP_eq_length.mpr, hlen]
    intro o ho
    obtain ⟨i, -, rfl⟩ := List.mem_map.mp ho
    exact hall i
  have hm : S.length = sessionCount (entries.filter knownKind) := length_sessionsOf host dp [] _
  obtain ⟨p, hp, htree⟩ := Page.processStartupActions_tree entries seps hfirst hlen
  rw [hcount] at hp
  have hbound : sessionCount ([].map Row.entry) + sessionCount (entries.filter knownKind) ≤
      S.length := by
    rw [hm]
    exact (Nat.zero_add _).le
  have hrun : Realizing entries S.length ((rows entries).reverse ++ []) []
      (seps.foldl Page.realizeSeparator
        ({ p with startupNodeCursor := S.length, startupSeparatorsRealized := true }, [])) :=
    realizing_foldl rfl (realizing_start hS hp) hbound
  have hnd : (keys SessionNode.ident (Page.realizeAll S seps p).tree).Nodup := hrun.valid.nodup
  have hpage : (Page.startup host entries outcome).tree =
      settle SessionNode.isBottomSeparator (Page.realizeAll S seps p).tree := by
    rw [Page.startup, hload]
    exact htree
  have hlists : Lists SessionNode.ident (Page.realizeAll S seps p).tree
      (placed entries S.length (rows entries)) := by
    have hlists := hrun.lists
    rw [List.append_nil, List.reverse_reverse, List.filter_nil] at hlists
    rwa [← List.append_nil (placed entries S.length (rows entries))]
  rw [hpage, ← hm]
  refine ⟨?_, ?_, ?_⟩
  · refine (preorder_settle_perm _ _).trans (hlists.nodes.trans ?_)
    rw [placed, List.map_map]
    exact List.Perm.refl _
  · exact (keys_settle _ _).nodup_iff.mpr hnd
  · intro q
    rw [childrenIn_settle _ hnd (foreign_none _)]
    congr 1
    have := hlists.scopes q
    rw [filter_placed, placed, List.map_map] at this
    exact this

/-- **The sidebar after a launch in which every session spawns.** -/
theorem startup_tree {host : Host} {dp : Profile} {entries : List LaunchEntry}
    {outcome : ℕ → Option ℕ} (hd : host.defaultProfile = some dp) (hs : HasSession entries)
    (hall : ∀ i, (outcome i).isSome = true) :
    (rows entries).map Row.entry = entries.filter knownKind ∧
      (∀ (j : ℕ) r, (rows entries)[j]? = some r →
        r.scope = parentIn ((entries.filter knownKind).take j).reverse r.entry.parentId) ∧
      (∀ r ∈ rows entries, r.entry.isSeparator = false → ∀ i, r.scope = some i → i < r.rank) ∧
      Shows entries (sessionCount (entries.filter knownKind)) (rows entries)
        (Page.startup host entries outcome).tree := by
  refine ⟨map_entry_rowsFrom _ _, ?_, ?_, shows_startup hd hs hall⟩
  · intro j r hr
    have := scope_of_rowsFrom hr
    rwa [List.append_nil] at this
  · intro r hr hsep i hi
    exact scope_lt_of_mem_rowsFrom hr hsep hi

/-- A list with a bottom separator, a session under it, a dangling parent and an unknown kind. -/
def mixedEntries : List LaunchEntry :=
  [{ id := L "a" }, { id := L "s", kind := kindSeparatorW, placement := placementBottomW },
    { id := L "b", parentId := L "s" }, { id := L "c", parentId := L "a" },
    { id := L "d", kind := L "note" }, { id := L "e", parentId := L "z" }]

/-- The witness has a session. -/
theorem hasSession_mixedEntries : HasSession mixedEntries :=
  ⟨{ id := L "a" }, List.mem_cons_self, by decide, by decide⟩

theorem startup_tree_mixedEntries :
    plainHost.defaultProfile = some ⟨L "p", L "cmd.exe"⟩ ∧ HasSession mixedEntries ∧
      Shows mixedEntries (sessionCount (mixedEntries.filter knownKind)) (rows mixedEntries)
        (Page.startup plainHost mixedEntries fun _ => some 0).tree ∧
      (preorder (Page.startup plainHost mixedEntries fun _ => some 0).tree).map
        SessionNode.entryId = [L "a", L "c", L "b", L "e", L "s"] :=
  ⟨rfl, hasSession_mixedEntries,
    (startup_tree rfl hasSession_mixedEntries fun _ => rfl).2.2.2,
    by decide⟩

end Axan.SessionTree
