import Axan.Base.Places
import Axan.SessionTree.Capture

/-!
# Settings reloads behind a capture

On every settings reload the live separators whose entry id is no separator of the settings are
dropped. A capture gives every node it writes an entry id of its own, whether or not its result is
saved.

* `reconcileSeparatorsWithSettings` — what a reload does to the live tree; `reconcile_reconcile`:
  a second one changes nothing.
* `adoptAll` — the ids a capture gives, node by node in pre-order; `preorder_capture`.
* `Undisturbed` — the separators of a tree keep their ids over a capture, as far as it matters.
* `discarded_capture_iff` — **a discarded capture changes nothing later exactly when they do**.
-/

namespace Axan.SessionTree

open Axan.Base Axan.Base.Forest Axan.LaunchEntryWire

/-! ### The reload -/

/-- Source: `SessionNodeViewModel::SetSeparatorLabel` -/
def SessionNode.setSeparatorLabel (n : SessionNode) (label : WString) : SessionNode :=
  if label = n.separatorLabel then n
  else
    { n with
      separatorLabel := label
      isCollapsed := if label.isEmpty then false else n.isCollapsed }

/-- The entries of the settings that name a separator. -/
def separatorEntries (settings : List LaunchEntry) : List LaunchEntry :=
  settings.filter fun e => e.isSeparator && !e.id.isEmpty

/-- `persisted` -/
def persistedIds (settings : List LaunchEntry) : List WString :=
  (separatorEntries settings).map LaunchEntry.id

/-- `labels`: the last entry of an id decides. -/
def labelOf (settings : List LaunchEntry) (id : WString) : Option WString :=
  ((separatorEntries settings).reverse.find? fun e => e.id = id).map LaunchEntry.name

/-- A label edited on the Startup sessions page applies live. -/
def relabel (settings : List LaunchEntry) (n : SessionNode) : SessionNode :=
  if n.isSeparator && !n.entryId.isEmpty then
    match labelOf settings n.entryId with
    | some label => n.setSeparatorLabel label
    | none => n
  else n

/-- A separator that is no longer in the settings. One without an id has nothing there to disagree
with. -/
def isStale (settings : List LaunchEntry) (n : SessionNode) : Bool :=
  n.isSeparator && !n.entryId.isEmpty && n.entryId ∉ persistedIds settings

/-- Source: `_ReconcileSeparatorsWithSettings` -/
def reconcileSeparatorsWithSettings (settings : List LaunchEntry) (tree : LiveTree) : LiveTree :=
  let tree := tree.map (relabel settings)
  let stale := (preorder tree).filter (isStale settings)
  (stale.map SessionNode.ident).foldl (fun G k => promote SessionNode.ident k G) tree

variable {settings : List LaunchEntry}

/-- A label is set once. -/
theorem setSeparatorLabel_spec (n : SessionNode) (label : WString) :
    n.setSeparatorLabel label =
      { n with
        separatorLabel := label
        isCollapsed :=
          if label = n.separatorLabel then n.isCollapsed
          else if label.isEmpty then false else n.isCollapsed } := by
  rw [SessionNode.setSeparatorLabel]
  split_ifs with h
  · rw [h]
  · rfl
  · rfl

/-- A new label leaves everything else but the collapsed state. -/
theorem relabel_eq (settings : List LaunchEntry) (n : SessionNode) :
    ∃ label collapsed, relabel settings n =
      { n with separatorLabel := label, isCollapsed := collapsed } := by
  rw [relabel]
  split
  · split
    · exact ⟨_, _, setSeparatorLabel_spec _ _⟩
    · exact ⟨_, _, rfl⟩
  · exact ⟨_, _, rfl⟩

/-- A new label does not change the identity. -/
@[simp] theorem ident_relabel (n : SessionNode) : (relabel settings n).ident = n.ident := by
  obtain ⟨_, _, h⟩ := relabel_eq settings n
  rw [h]

/-- Nor the id of the entry. -/
@[simp] theorem entryId_relabel (n : SessionNode) : (relabel settings n).entryId = n.entryId := by
  obtain ⟨_, _, h⟩ := relabel_eq settings n
  rw [h]

/-- Nor the kind of the row. -/
@[simp] theorem isSeparator_relabel (n : SessionNode) :
    (relabel settings n).isSeparator = n.isSeparator := by
  obtain ⟨_, _, h⟩ := relabel_eq settings n
  rw [h]

/-- So what is stale stays so. -/
@[simp] theorem isStale_relabel (n : SessionNode) :
    isStale settings (relabel settings n) = isStale settings n := by
  rw [isStale, isSeparator_relabel, entryId_relabel, isStale]

/-- Labels are taken from the settings once. -/
theorem relabel_relabel (n : SessionNode) :
    relabel settings (relabel settings n) = relabel settings n := by
  by_cases h : (n.isSeparator && !n.entryId.isEmpty) = true
  · rw [relabel, if_pos (by rw [isSeparator_relabel, entryId_relabel, h]), entryId_relabel]
    cases hlabel : labelOf settings n.entryId with
    | none => rfl
    | some label =>
        have hn : relabel settings n = n.setSeparatorLabel label := by rw [relabel, if_pos h, hlabel]
        rw [hn]
        exact if_pos (by rw [setSeparatorLabel_spec])
  · have hn : relabel settings n = n := if_neg h
    rw [hn, hn]

/-- The tree keeps its rows. -/
theorem keys_map_relabel (T : LiveTree) :
    keys SessionNode.ident (T.map (relabel settings)) = keys SessionNode.ident T := by
  rw [keys, preorder_map, List.map_map, keys]
  exact List.map_congr_left fun n _ => ident_relabel n

/-- **A reload contracts the tree** at the separators that are no longer in the settings. -/
theorem reconcile_eq {T : LiveTree} (hT : (keys SessionNode.ident T).Nodup) :
    reconcileSeparatorsWithSettings settings T =
      contract (fun n => !isStale settings n) (T.map (relabel settings)) := by
  have hnd : (keys SessionNode.ident (T.map (relabel settings))).Nodup := by
    rwa [keys_map_relabel]
  rw [reconcileSeparatorsWithSettings, foldl_promote _ hnd]
  apply contract_congr
  intro n hn
  cases hstale : isStale settings n with
  | true =>
      have hmem := List.mem_map_of_mem (f := SessionNode.ident) (List.mem_filter.mpr ⟨hn, hstale⟩)
      simp [hmem]
  | false =>
      have hnot : n.ident ∉ ((preorder (T.map (relabel settings))).filter
          (isStale settings)).map SessionNode.ident := by
        intro hmem
        obtain ⟨m, hm, hid⟩ := List.mem_map.mp hmem
        rw [List.mem_filter] at hm
        rw [eq_of_ident_eq hnd hm.1 hn hid, hstale] at hm
        exact Bool.false_ne_true hm.2
      simp [hnot]

/-- The tree after a reload, the labels written last. -/
theorem reconcile_eq_map {T : LiveTree} (hT : (keys SessionNode.ident T).Nodup) :
    reconcileSeparatorsWithSettings settings T =
      (contract (fun n => !isStale settings n) T).map (relabel settings) := by
  rw [reconcile_eq hT]
  exact (map_contract (fun n => by rw [isStale_relabel]) T).symm

/-- The reload removes rows, and adds none. -/
theorem keys_reconcile_sublist {T : LiveTree} (hT : (keys SessionNode.ident T).Nodup) :
    (keys SessionNode.ident (reconcileSeparatorsWithSettings settings T)).Sublist
      (keys SessionNode.ident T) := by
  rw [reconcile_eq_map hT, keys_map_relabel]
  exact keys_contract_sublist _ T

/-- **A second reload of the same settings changes nothing.** -/
theorem reconcile_reconcile {T : LiveTree} (hT : (keys SessionNode.ident T).Nodup) :
    reconcileSeparatorsWithSettings settings (reconcileSeparatorsWithSettings settings T) =
      reconcileSeparatorsWithSettings settings T := by
  rw [reconcile_eq (hT.sublist (keys_reconcile_sublist hT)), reconcile_eq_map hT, Forest.map_map]
  simp only [relabel_relabel]
  rw [← map_contract (fun n => by rw [isStale_relabel]) _, contract_contract]
  simp only [Bool.and_self]

/-- Any number of reloads does as much as one. -/
theorem iterate_reconcile {T : LiveTree} (hT : (keys SessionNode.ident T).Nodup) (n : ℕ) :
    (reconcileSeparatorsWithSettings settings)^[n + 1] T =
      reconcileSeparatorsWithSettings settings T := by
  rw [Function.iterate_succ_apply]
  exact Function.iterate_fixed (reconcile_reconcile hT) n

/-! ### The ids a capture gives -/

/-- Does the capture write an entry for the node? -/
def isCaptured (live : LiveTabs) (n : SessionNode) : Bool :=
  n.isSeparator || (n.tabRef.bind live.focusedProfile).isSome

/-- The node with the id the capture gives it. -/
def adopt (live : LiveTabs) (fresh : ℕ → WString) (n : SessionNode) (st : CaptureState) :
    SessionNode × CaptureState :=
  if isCaptured live n then
    let (id, st) := st.takeId fresh n.entryId
    ({ n with entryId := id }, st)
  else (n, st)

/-- The nodes with the ids the capture gives them, one after another. -/
def adoptAll (live : LiveTabs) (fresh : ℕ → WString) :
    List SessionNode → CaptureState → List SessionNode × CaptureState
  | [], st => ([], st)
  | n :: rest, st =>
      let r := adopt live fresh n st
      let r' := adoptAll live fresh rest r.2
      (r.1 :: r'.1, r'.2)

variable {live : LiveTabs} {fresh : ℕ → WString}

/-- Rows are captured one after the other. -/
theorem adoptAll_append (l m : List SessionNode) (st : CaptureState) :
    adoptAll live fresh (l ++ m) st =
      ((adoptAll live fresh l st).1 ++ (adoptAll live fresh m (adoptAll live fresh l st).2).1,
        (adoptAll live fresh m (adoptAll live fresh l st).2).2) := by
  induction l generalizing st with
  | nil => rfl
  | cons n l ih => simp only [List.cons_append, adoptAll, ih]

/-- The state with other entries written. -/
def CaptureState.writing (st : CaptureState) (es : List LaunchEntry) : CaptureState :=
  { st with captured := es }

/-- The last list of entries is written. -/
@[simp] theorem writing_writing (st : CaptureState) (es es' : List LaunchEntry) :
    (st.writing es).writing es' = st.writing es' := rfl

/-- The entries written so far do not matter for the ids. -/
theorem adopt_writing (n : SessionNode) (st : CaptureState) (es : List LaunchEntry) :
    adopt live fresh n (st.writing es) =
      ((adopt live fresh n st).1, (adopt live fresh n st).2.writing es) := by
  have htake : (st.writing es).takeId fresh n.entryId =
      ((st.takeId fresh n.entryId).1, (st.takeId fresh n.entryId).2.writing es) := by
    unfold CaptureState.takeId CaptureState.writing
    dsimp only
    split
    · rfl
    · rfl
  rw [adopt, adopt, htake]
  cases isCaptured live n with
  | false => rfl
  | true => rfl

/-- Which one does not change the ids. -/
theorem adoptAll_writing (l : List SessionNode) (st : CaptureState) (es : List LaunchEntry) :
    adoptAll live fresh l (st.writing es) =
      ((adoptAll live fresh l st).1, (adoptAll live fresh l st).2.writing es) := by
  induction l generalizing st with
  | nil => rfl
  | cons n l ih => simp only [adoptAll, adopt_writing, ih]

/-- One node of the walk: its id, an entry or none, then what hangs under it and behind it. -/
theorem visit_node_adopt (live : LiveTabs) (fresh : ℕ → WString) (n : SessionNode) (c s : LiveTree)
    (parentId : WString) (st : CaptureState) : ∃ es pid,
    visit live fresh (node n c s) parentId st =
      let r := adopt live fresh n st
      let r' := visit live fresh c pid (r.2.writing es)
      let r'' := visit live fresh s parentId r'.2
      (node r.1 r'.1 r''.1, r''.2) := by
  rw [visit, adopt, isCaptured]
  cases hsep : n.isSeparator with
  | true => exact ⟨_, _, rfl⟩
  | false =>
      cases hprofile : n.tabRef.bind live.focusedProfile with
      | none => exact ⟨st.captured, _, rfl⟩
      | some profile => exact ⟨_, _, rfl⟩

/-- **The capture gives the ids in pre-order**, and leaves the shape of the tree. -/
theorem visit_adopt (live : LiveTabs) (fresh : ℕ → WString) (F : LiveTree) (parentId : WString)
    (st : CaptureState) :
    SameShape F (visit live fresh F parentId st).1 ∧
      preorder (visit live fresh F parentId st).1 = (adoptAll live fresh (preorder F) st).1 ∧
      ∃ es, (visit live fresh F parentId st).2 =
        (adoptAll live fresh (preorder F) st).2.writing es := by
  induction F generalizing parentId st with
  | nil => exact ⟨rfl, rfl, st.captured, rfl⟩
  | node n c s ihc ihs =>
      obtain ⟨es, pid, hvisit⟩ := visit_node_adopt live fresh n c s parentId st
      obtain ⟨hshc, hprec, esc, hstc⟩ := ihc pid ((adopt live fresh n st).2.writing es)
      obtain ⟨hshs, hpres, ess, hsts⟩ := ihs parentId
        (visit live fresh c pid ((adopt live fresh n st).2.writing es)).2
      rw [hstc, adoptAll_writing, writing_writing, adoptAll_writing] at hpres hsts
      rw [adoptAll_writing] at hprec
      rw [hvisit]
      dsimp only
      have hpre : preorder (node n c s) = n :: (preorder c ++ preorder s) := rfl
      refine ⟨?_, ?_, ess, ?_⟩
      · rw [SameShape, Forest.map, Forest.map, hshc, hshs]
      · rw [preorder, hprec, hstc, adoptAll_writing, writing_writing, hpres, hpre, adoptAll,
          adoptAll_append]
      · rw [hstc, adoptAll_writing, writing_writing, hsts, hpre, adoptAll, adoptAll_append,
          writing_writing]

/-- The capture is the walk of the whole tree. -/
theorem capture_adopt (live : LiveTabs) (fresh : ℕ → WString) (T : LiveTree) :
    SameShape T (captureLiveSessionEntries live fresh T).1 ∧
      preorder (captureLiveSessionEntries live fresh T).1 =
        (adoptAll live fresh (preorder T) {}).1 := by
  obtain ⟨hshape, hpre, -⟩ := visit_adopt live fresh T [] {}
  exact ⟨hshape, hpre⟩

/-! ### Which ids change -/

/-- Ids drawn anew: none is empty, and none is among the ids in use. -/
structure Fresh (fresh : ℕ → WString) (ids : List WString) : Prop where
  ne_nil : ∀ i, fresh i ≠ []
  not_mem : ∀ i, fresh i ∉ ids

/-- A part of the ids is avoided too. -/
theorem Fresh.left {ids ids' : List WString} (h : Fresh fresh (ids ++ ids')) : Fresh fresh ids :=
  ⟨h.ne_nil, fun i hi => h.not_mem i (List.mem_append_left _ hi)⟩

/-- The separators among the nodes keep their ids: each has one, and an id that counts is not
carried by a captured node in front. -/
structure Undisturbed (live : LiveTabs) (counts : WString → Bool) (l : List SessionNode) :
    Prop where
  named : ∀ n ∈ l, n.isSeparator = true → n.entryId ≠ []
  first : l.Pairwise fun m n => n.isSeparator = true → counts n.entryId = true →
    isCaptured live m = true → m.entryId ≠ n.entryId

/-- A node as the capture leaves it, when the separators keep their ids. -/
structure Adopted (fresh : ℕ → WString) (counts : WString → Bool) (n n' : SessionNode) :
    Prop where
  rest : n' = { n with entryId := n'.entryId }
  separator : n.isSeparator = true → n'.entryId = n.entryId ∨
    n.entryId ≠ [] ∧ counts n.entryId = false ∧ ∃ i, n'.entryId = fresh i

/-- A row that keeps its id is unchanged. -/
theorem Adopted.eq_of_entryId {counts : WString → Bool} {n n' : SessionNode}
    (h : Adopted fresh counts n n') (hid : n'.entryId = n.entryId) : n' = n := by
  rw [h.rest, hid]

/-- A capture changes the id of a row and nothing else. -/
theorem adopt_rest (n : SessionNode) (st : CaptureState) :
    (adopt live fresh n st).1 = { n with entryId := (adopt live fresh n st).1.entryId } := by
  rw [adopt]
  cases isCaptured live n with
  | false => rfl
  | true => rfl

theorem isCaptured_of_isSeparator (live : LiveTabs) {n : SessionNode} (h : n.isSeparator = true) :
    isCaptured live n = true := by
  rw [isCaptured, h, Bool.true_or]

/-- A captured node without an id, or with one in use, gets a fresh one. -/
theorem adopt_of_used {n : SessionNode} {st : CaptureState} (hn : isCaptured live n = true)
    (h : n.entryId = [] ∨ n.entryId ∈ st.usedIds) :
    adopt live fresh n st = ({ n with entryId := fresh st.guids },
      { st with usedIds := fresh st.guids :: st.usedIds, guids := st.guids + 1 }) := by
  rw [adopt, if_pos hn, CaptureState.takeId, if_pos (by simpa using h)]

/-- Every other captured node keeps its id. -/
theorem adopt_of_unused {n : SessionNode} {st : CaptureState} (hn : isCaptured live n = true)
    (hne : n.entryId ≠ []) (h : n.entryId ∉ st.usedIds) :
    adopt live fresh n st = (n, { st with usedIds := n.entryId :: st.usedIds }) := by
  rw [adopt, if_pos hn, CaptureState.takeId, if_neg (by simp [hne, h])]

/-- The ids in use behind a node, but for the fresh ones. -/
theorem mem_usedIds_adopt {n : SessionNode} {st : CaptureState} {id : WString} (hne : id ≠ [])
    (hfresh : ∀ i, fresh i ≠ id) :
    id ∈ (adopt live fresh n st).2.usedIds ↔
      id ∈ st.usedIds ∨ isCaptured live n = true ∧ n.entryId = id := by
  by_cases hn : isCaptured live n = true
  · by_cases hused : n.entryId = [] ∨ n.entryId ∈ st.usedIds
    · rw [adopt_of_used hn hused, List.mem_cons]
      constructor
      · rintro (h | h)
        · exact absurd h.symm (hfresh _)
        · exact Or.inl h
      · rintro (h | ⟨-, h⟩)
        · exact Or.inr h
        · rcases hused with hnil | hmem
          · exact absurd (h.symm.trans hnil) hne
          · exact Or.inr (h ▸ hmem)
    · rw [not_or] at hused
      rw [adopt_of_unused hn hused.1 hused.2, List.mem_cons]
      simp only [hn, true_and, eq_comm, or_comm]
  · rw [adopt, if_neg hn]
    simp [hn]

/-- **What the capture leaves of nodes whose separators keep their ids.** -/
theorem forall₂_adopted {counts : WString → Bool} {l : List SessionNode} (st : CaptureState)
    (h : Undisturbed live counts l) (hfresh : Fresh fresh (l.map SessionNode.entryId))
    (hused : ∀ n ∈ l, n.isSeparator = true → counts n.entryId = true → n.entryId ∉ st.usedIds) :
    List.Forall₂ (Adopted fresh counts) l (adoptAll live fresh l st).1 := by
  induction l generalizing st with
  | nil => exact List.Forall₂.nil
  | cons n l ih =>
      have hrest : ∀ m ∈ l, m ∈ n :: l := fun m hm => List.mem_cons_of_mem n hm
      obtain ⟨hfirst, hpair⟩ := List.pairwise_cons.mp h.first
      refine List.Forall₂.cons ⟨adopt_rest n st, ?_⟩ (ih _ ⟨fun m hm => h.named m (hrest m hm), hpair⟩
        ⟨hfresh.ne_nil, fun i hi => hfresh.not_mem i (List.mem_cons_of_mem _ hi)⟩ ?_)
      · intro hsep
        have hne := h.named n List.mem_cons_self hsep
        have hn := isCaptured_of_isSeparator live hsep
        by_cases hmem : n.entryId ∈ st.usedIds
        · right
          rw [adopt_of_used hn (Or.inr hmem)]
          refine ⟨hne, ?_, _, rfl⟩
          by_contra hcount
          exact hused n List.mem_cons_self hsep (by simpa using hcount) hmem
        · left
          rw [adopt_of_unused hn hne hmem]
      · intro m hm hsep hcount hmem
        have hid : ∀ i, fresh i ≠ m.entryId := fun i hi =>
          hfresh.not_mem i (hi ▸ List.mem_map_of_mem (hrest m hm))
        rw [mem_usedIds_adopt (h.named m (hrest m hm) hsep) hid] at hmem
        rcases hmem with hmem | ⟨hn, heq⟩
        · exact hused m (hrest m hm) hsep hcount hmem
        · exact hfirst m hm hsep hcount hn heq

/-- A separator without an id, or with one in use, ends up with a fresh id. -/
theorem exists_fresh_of_used (live : LiveTabs) {l : List SessionNode} (st : CaptureState)
    {n : SessionNode} (hn : n ∈ l) (hsep : n.isSeparator = true) (h : n.entryId = [] ∨ n.entryId ∈ st.usedIds)
    (hfresh : ∀ i, fresh i ≠ n.entryId) :
    ∃ i, { n with entryId := fresh i } ∈ (adoptAll live fresh l st).1 := by
  induction l generalizing st with
  | nil => cases hn
  | cons m l ih =>
      rcases List.mem_cons.mp hn with rfl | hn
      · refine ⟨st.guids, ?_⟩
        rw [adoptAll, adopt_of_used (isCaptured_of_isSeparator live hsep) h]
        exact List.mem_cons_self
      · have hstill : n.entryId = [] ∨ n.entryId ∈ (adopt live fresh m st).2.usedIds := by
          by_cases hnil : n.entryId = []
          · exact Or.inl hnil
          · exact Or.inr ((mem_usedIds_adopt hnil hfresh).mpr (Or.inl (h.resolve_left hnil)))
        obtain ⟨i, hi⟩ := ih _ hn hstill
        exact ⟨i, List.mem_cons_of_mem _ hi⟩

/-- **Separators that all keep their ids are undisturbed.** -/
theorem undisturbed_of_forall {counts : WString → Bool} {l : List SessionNode} (st : CaptureState)
    (hfresh : Fresh fresh (l.map SessionNode.entryId))
    (h : ∀ n ∈ l, n.isSeparator = true → n.entryId = [] ∨ counts n.entryId = true →
      ∀ i, { n with entryId := fresh i } ∉ (adoptAll live fresh l st).1) :
    Undisturbed live counts l := by
  have hid : ∀ n ∈ l, ∀ i, fresh i ≠ n.entryId := fun n hn i hi =>
    hfresh.not_mem i (hi ▸ List.mem_map_of_mem hn)
  refine ⟨?_, ?_⟩
  · intro n hn hsep hnil
    obtain ⟨i, hi⟩ := exists_fresh_of_used live st hn hsep (Or.inl hnil) (hid n hn)
    exact h n hn hsep (Or.inl hnil) i hi
  · induction l generalizing st with
    | nil => exact List.Pairwise.nil
    | cons m l ih =>
        have hrest : ∀ n ∈ l, n ∈ m :: l := fun n hn => List.mem_cons_of_mem m hn
        refine List.Pairwise.cons ?_ (ih (adopt live fresh m st).2
          ⟨hfresh.ne_nil, fun i hi => hfresh.not_mem i (List.mem_cons_of_mem _ hi)⟩
          (fun n hn hsep hcount i hi => h n (hrest n hn) hsep hcount i (List.mem_cons_of_mem _ hi))
          fun n hn => hid n (hrest n hn))
        intro n hn hsep hcount hm heq
        have hne : n.entryId ≠ [] := by
          intro hnil
          obtain ⟨i, hi⟩ := exists_fresh_of_used live st (hrest n hn) hsep (Or.inl hnil)
            (hid n (hrest n hn))
          exact h n (hrest n hn) hsep (Or.inl hnil) i hi
        have hused : n.entryId ∈ (adopt live fresh m st).2.usedIds :=
          (mem_usedIds_adopt hne (hid n (hrest n hn))).mpr (Or.inr ⟨hm, heq⟩)
        obtain ⟨i, hi⟩ := exists_fresh_of_used live _ hn hsep (Or.inr hused)
          (hid n (hrest n hn))
        exact h n (hrest n hn) hsep (Or.inr hcount) i (List.mem_cons_of_mem _ hi)

/-! ### A discarded capture -/

/-- A tree without its entry ids. -/
def withoutIds (T : LiveTree) : LiveTree := T.map fun n => { n with entryId := [] }

/-- A tree without the entry ids of its sessions: the separators are as they are. -/
def withoutSessionIds (T : LiveTree) : LiveTree :=
  T.map fun n => if n.isSeparator then n else { n with entryId := [] }

/-- Without any ids there are no session ids to drop. -/
theorem withoutIds_withoutSessionIds (T : LiveTree) :
    withoutIds (withoutSessionIds T) = withoutIds T := by
  rw [withoutIds, withoutSessionIds, Forest.map_map, withoutIds]
  congr 1
  funext n
  split
  · rfl
  · rfl

/-- Without ids the rows are the same. -/
theorem keys_withoutIds (T : LiveTree) :
    keys SessionNode.ident (withoutIds T) = keys SessionNode.ident T := by
  rw [withoutIds, keys, preorder_map, List.map_map, keys]
  rfl

section discarded

variable {T : LiveTree}

/-- The ids a capture draws are new to the live tree and to the settings. -/
abbrev FreshFor (fresh : ℕ → WString) (settings : List LaunchEntry) (T : LiveTree) : Prop :=
  Fresh fresh ((preorder T).map SessionNode.entryId ++ persistedIds settings)

/-- So they are after a capture. -/
theorem keys_capture (live : LiveTabs) (fresh : ℕ → WString) (T : LiveTree) :
    keys SessionNode.ident (captureLiveSessionEntries live fresh T).1 =
      keys SessionNode.ident T := by
  have hadopt : ∀ (l : List SessionNode) (st : CaptureState),
      (adoptAll live fresh l st).1.map SessionNode.ident = l.map SessionNode.ident := by
    intro l
    induction l with
    | nil => exact fun _ => rfl
    | cons n l ih =>
        intro st
        rw [adoptAll, List.map_cons, List.map_cons, ih, adopt_rest]
  rw [keys, (capture_adopt live fresh T).2, hadopt, keys]

/-- **When the separators that are in the settings keep their ids, a reload leaves the same
separators** with or without the capture before it. -/
theorem reconcile_capture (hT : (keys SessionNode.ident T).Nodup)
    (hfresh : FreshFor fresh settings T)
    (h : Undisturbed live (fun id => id ∈ persistedIds settings) (preorder T)) :
    withoutSessionIds (reconcileSeparatorsWithSettings settings
        (captureLiveSessionEntries live fresh T).1) =
      withoutSessionIds (reconcileSeparatorsWithSettings settings T) := by
  have hnd : (keys SessionNode.ident (captureLiveSessionEntries live fresh T).1).Nodup := by
    rwa [keys_capture]
  have hall := forall₂_adopted {} h hfresh.left fun _ _ _ _ hmem => by cases hmem
  rw [reconcile_eq_map hnd, reconcile_eq_map hT, withoutSessionIds, withoutSessionIds,
    Forest.map_map, Forest.map_map]
  apply Eq.symm
  apply map_contract_eq (capture_adopt live fresh T).1
  rw [(capture_adopt live fresh T).2]
  refine hall.imp ?_
  intro n n' hn
  cases hsep : n.isSeparator with
  | false =>
      rw [hn.rest]
      simp [isStale, relabel, hsep]
  | true =>
      rcases hn.separator hsep with heq | ⟨hne, hcount, i, heq⟩
      · rw [hn.eq_of_entryId heq]
        exact ⟨rfl, fun _ => rfl⟩
      · -- Both are dropped: the id it had and the one it has now are not in the settings.
        have hnew : fresh i ∉ persistedIds settings := fun hi =>
          hfresh.not_mem i (List.mem_append_right _ hi)
        have hold : n.entryId ∉ persistedIds settings := by simpa using hcount
        have hne' : n.entryId.isEmpty = false := List.isEmpty_eq_false_iff.mpr hne
        have hnew' : (fresh i).isEmpty = false := List.isEmpty_eq_false_iff.mpr (hfresh.ne_nil i)
        rw [hn.rest]
        simp [isStale, hsep, heq, hne', hold, hnew', hnew]

/-- **When the same nodes are left after a reload, the separators of the settings kept their
ids.** -/
theorem undisturbed_of_keys (hT : (keys SessionNode.ident T).Nodup)
    (hfresh : FreshFor fresh settings T)
    (h : keys SessionNode.ident (reconcileSeparatorsWithSettings settings
        (captureLiveSessionEntries live fresh T).1) =
      keys SessionNode.ident (reconcileSeparatorsWithSettings settings T)) :
    Undisturbed live (fun id => id ∈ persistedIds settings) (preorder T) := by
  have hnd : (keys SessionNode.ident (captureLiveSessionEntries live fresh T).1).Nodup := by
    rwa [keys_capture]
  apply undisturbed_of_forall {} hfresh.left
  intro n hn hsep hcount i hi
  rw [← (capture_adopt live fresh T).2] at hi
  -- Without the capture the separator stays.
  have hstays : n.ident ∈ keys SessionNode.ident (reconcileSeparatorsWithSettings settings T) := by
    rw [reconcile_eq_map hT, keys_map_relabel, keys, preorder_contract]
    apply List.mem_map_of_mem
    rw [List.mem_filter]
    refine ⟨hn, ?_⟩
    rcases hcount with hnil | hmem
    · simp [isStale, hnil]
    · have hmem' : n.entryId ∈ persistedIds settings := by simpa using hmem
      simp [isStale, hmem']
  rw [← h, reconcile_eq_map hnd, keys_map_relabel, keys, preorder_contract] at hstays
  obtain ⟨m, hm, hid⟩ := List.mem_map.mp hstays
  rw [List.mem_filter] at hm
  -- Behind the capture the node of that identity has a fresh id, and is dropped.
  have heq : m = { n with entryId := fresh i } := eq_of_ident_eq hnd hm.1 hi hid
  have hnew : fresh i ∉ persistedIds settings := fun hi =>
    hfresh.not_mem i (List.mem_append_right _ hi)
  rw [heq] at hm
  simp [isStale, hsep, hfresh.ne_nil i, hnew] at hm

/-- **The capture leaves every separator as it is** exactly when each has an id that no captured
node in front has. -/
theorem capture_withoutSessionIds_iff (hfresh : FreshFor fresh settings T) :
    withoutSessionIds (captureLiveSessionEntries live fresh T).1 = withoutSessionIds T ↔
      Undisturbed live (fun _ => true) (preorder T) := by
  constructor
  · intro h
    apply undisturbed_of_forall {} hfresh.left
    intro n hn hsep _ i hi
    rw [← (capture_adopt live fresh T).2] at hi
    have hmem : ({ n with entryId := fresh i } : SessionNode) ∈ preorder (withoutSessionIds T) := by
      rw [← h, withoutSessionIds, preorder_map]
      exact List.mem_map.mpr ⟨_, hi, if_pos hsep⟩
    rw [withoutSessionIds, preorder_map] at hmem
    obtain ⟨m, hm, hmn⟩ := List.mem_map.mp hmem
    have hid : m.entryId = fresh i := by
      by_cases hmsep : m.isSeparator = true
      · rw [if_pos hmsep] at hmn
        rw [hmn]
      · rw [if_neg hmsep] at hmn
        have hnil : ([] : WString) = fresh i := congrArg SessionNode.entryId hmn
        exact absurd hnil.symm (hfresh.ne_nil i)
    exact hfresh.not_mem i (hid ▸ List.mem_append_left _ (List.mem_map_of_mem hm))
  · intro h
    have hall := forall₂_adopted {} h hfresh.left fun _ _ _ _ hmem => by cases hmem
    apply Eq.symm
    apply Forest.map_eq (capture_adopt live fresh T).1
    rw [(capture_adopt live fresh T).2]
    refine hall.imp ?_
    intro n n' hn
    cases hsep : n.isSeparator with
    | false =>
        rw [hn.rest]
        simp [hsep]
    | true =>
        rcases hn.separator hsep with heq | ⟨-, hcount, -⟩
        · rw [hn.eq_of_entryId heq, hsep]
        · cases hcount

theorem capture_withoutIds (live : LiveTabs) (fresh : ℕ → WString) (T : LiveTree) :
    withoutIds (captureLiveSessionEntries live fresh T).1 = withoutIds T := by
  have hall : ∀ (l : List SessionNode) (st : CaptureState),
      List.Forall₂ (fun n n' => n' = { n with entryId := n'.entryId }) l
        (adoptAll live fresh l st).1 := by
    intro l
    induction l with
    | nil => exact fun _ => List.Forall₂.nil
    | cons n l ih => exact fun st => List.Forall₂.cons (adopt_rest n st) (ih _)
  apply Eq.symm
  apply Forest.map_eq (capture_adopt live fresh T).1
  rw [(capture_adopt live fresh T).2]
  refine (hall _ _).imp ?_
  intro n n' hn
  rw [hn]

/-- **A discarded capture changes nothing later exactly when the separators of the settings keep
their ids.** Any number of reloads leaves the same tree but for entry ids, and from the first
reload on the same separators with their ids; without a reload the separators keep their ids when
every id counts. -/
theorem discarded_capture_iff (hT : (keys SessionNode.ident T).Nodup)
    (hfresh : FreshFor fresh settings T) :
    ((∀ n, withoutIds ((reconcileSeparatorsWithSettings settings)^[n]
          (captureLiveSessionEntries live fresh T).1) =
        withoutIds ((reconcileSeparatorsWithSettings settings)^[n] T)) ↔
      Undisturbed live (fun id => id ∈ persistedIds settings) (preorder T)) ∧
    ((∀ n, withoutSessionIds ((reconcileSeparatorsWithSettings settings)^[n + 1]
          (captureLiveSessionEntries live fresh T).1) =
        withoutSessionIds ((reconcileSeparatorsWithSettings settings)^[n + 1] T)) ↔
      Undisturbed live (fun id => id ∈ persistedIds settings) (preorder T)) ∧
    (withoutSessionIds (captureLiveSessionEntries live fresh T).1 = withoutSessionIds T ↔
      Undisturbed live (fun _ => true) (preorder T)) := by
  have hnd : (keys SessionNode.ident (captureLiveSessionEntries live fresh T).1).Nodup := by
    rwa [keys_capture]
  have hkeys : withoutIds (reconcileSeparatorsWithSettings settings
        (captureLiveSessionEntries live fresh T).1) =
      withoutIds (reconcileSeparatorsWithSettings settings T) →
      Undisturbed live (fun id => id ∈ persistedIds settings) (preorder T) := by
    intro h
    apply undisturbed_of_keys hT hfresh
    rw [← keys_withoutIds, h, keys_withoutIds]
  refine ⟨⟨fun h => hkeys (h 1), fun h n => ?_⟩, ⟨fun h => hkeys ?_, fun h n => ?_⟩,
    capture_withoutSessionIds_iff hfresh⟩
  · cases n with
    | zero => exact capture_withoutIds live fresh T
    | succ n =>
        rw [iterate_reconcile hnd, iterate_reconcile hT, ← withoutIds_withoutSessionIds,
          reconcile_capture hT hfresh h, withoutIds_withoutSessionIds]
  · rw [← withoutIds_withoutSessionIds]
    have h0 := h 0
    rw [iterate_reconcile hnd, iterate_reconcile hT] at h0
    rw [h0, withoutIds_withoutSessionIds]
  · rw [iterate_reconcile hnd, iterate_reconcile hT, reconcile_capture hT hfresh h]

end discarded

/-- A page whose tabs all run one profile. -/
def oneProfile : LiveTabs := ⟨fun _ => some (L "{p}"), fun _ => none⟩

/-- Two sessions of one id around a separator. -/
def dividedTree : LiveTree :=
  node { ident := 0, tabRef := some 0, entryId := L "a" } nil
    (node { ident := 1, isSeparator := true, entryId := L "s" } nil
      (node { ident := 2, tabRef := some 1, entryId := L "a" } nil nil))

/-- The second session gets a fresh id, the separator keeps its own. -/
theorem divided_tree_reloaded :
    withoutSessionIds ((reconcileSeparatorsWithSettings
        [{ id := L "s", kind := kindSeparatorW, name := L "Work" }])^[1 + 1]
          (captureLiveSessionEntries oneProfile (fun _ => L "{g}") dividedTree).1) =
      withoutSessionIds ((reconcileSeparatorsWithSettings
        [{ id := L "s", kind := kindSeparatorW, name := L "Work" }])^[1 + 1] dividedTree) :=
  (discarded_capture_iff (by decide) ⟨fun _ => by decide, fun _ => by decide⟩).2.1.mpr
    ⟨by decide, by decide⟩ 1

/-- The live tree of a hand-written file: a session and a separator without an id. -/
def unnamedTree : LiveTree :=
  node { ident := 0, tabRef := some 0, entryId := L "a" } nil
    (node { ident := 1, isSeparator := true } nil nil)

/-- A separator without an id outlives a reload of the file it came from, but not behind a capture
that nobody saved. -/
theorem unnamed_separator_lost :
    keys SessionNode.ident (reconcileSeparatorsWithSettings
        [{ id := L "a" }, { kind := kindSeparatorW }] unnamedTree) = [0, 1] ∧
      keys SessionNode.ident (reconcileSeparatorsWithSettings
        [{ id := L "a" }, { kind := kindSeparatorW }]
          (captureLiveSessionEntries oneProfile (fun _ => L "{g}") unnamedTree).1) = [0] := by
  decide

end Axan.SessionTree
