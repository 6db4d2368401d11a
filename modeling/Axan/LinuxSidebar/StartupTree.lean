import Axan.LinuxSidebar.StartupOrder

/-!
# The tree of a started window

* `earlierEntry` — the parent that an entry names; the client finds the same (`parentTabIndex_eq`).
* `StartedTree` — the promise: a row for each entry, at the parent it names, in order.
* `startedTree_iff` — it holds exactly when new tabs go last, or when each entry behind the second
  has a parent and none before it hangs at the first.
-/

namespace Axan.LinuxSidebar

open Axan.Base Axan.Base.Forest Axan.Base.Settings TerminalSidebar

/-! ### The parents of the entries -/

/-- The entry in front of the entry at `i` whose id its parent id is. -/
def earlierEntry (entries : List LaunchEntry) (i : ℕ) : Option ℕ :=
  (entries[i]?).bind fun e => (entries.take i).findIdx? fun e' => e'.id = e.parentId

/-- The last entry with an id. -/
def lastPlace : List LaunchEntry → Text → Option ℕ
  | [], _ => none
  | e :: entries, key =>
      ((lastPlace entries key).map (· + 1)).or (if e.id = key then some 0 else none)

/-- The first pass finds the last entry with an id. -/
theorem idToIndex_eq {key : Text} (hkey : key ≠ []) (idx : ℕ) (entries : List LaunchEntry)
    (map : Text → Option ℕ) :
    idToIndex idx entries map key = ((lastPlace entries key).map (idx + ·)).or (map key) := by
  induction entries generalizing idx map with
  | nil => rfl
  | cons e entries ih =>
      have hupdate : (if e.id.isEmpty then map else Function.update map e.id (some idx)) key =
          if e.id = key then some idx else map key := by
        by_cases heq : e.id = key
        · subst heq
          rw [if_neg (by simpa using hkey), if_pos rfl, Function.update_self]
        · rw [if_neg heq]
          split
          · rfl
          · exact Function.update_of_ne (Ne.symm heq) _ _
      rw [idToIndex, ih, hupdate, lastPlace]
      cases hlast : lastPlace entries key with
      | some j =>
          simp only [Option.map_some, Option.some_or]
          congr 1
          omega
      | none =>
          by_cases heq : e.id = key
          · simp [heq]
          · simp [heq]

/-- An id of no entry has no place. -/
theorem lastPlace_eq_none_iff {entries : List LaunchEntry} {key : Text} :
    lastPlace entries key = none ↔ ∀ e ∈ entries, e.id ≠ key := by
  induction entries with
  | nil => simp [lastPlace]
  | cons e entries ih =>
      rw [lastPlace, Option.or_eq_none_iff, Option.map_eq_none_iff, ih, List.forall_mem_cons]
      by_cases heq : e.id = key
      · simp [heq]
      · simp [heq]

/-- The last place of an id. -/
theorem lastPlace_eq_some_iff {entries : List LaunchEntry} {key : Text} {j : ℕ} :
    lastPlace entries key = some j ↔ (entries[j]?).map LaunchEntry.id = some key ∧
      ∀ j', j < j' → (entries[j']?).map LaunchEntry.id ≠ some key := by
  induction entries generalizing j with
  | nil => simp [lastPlace]
  | cons e entries ih =>
      rw [lastPlace]
      cases hlast : lastPlace entries key with
      | some m =>
          obtain ⟨hm, hlater⟩ := ih.mp hlast
          simp only [Option.map_some, Option.some_or, Option.some.injEq]
          constructor
          · rintro rfl
            refine ⟨by simpa using hm, fun j' hj' => ?_⟩
            obtain ⟨j'', rfl⟩ : ∃ n, j' = n + 1 := ⟨j' - 1, by omega⟩
            simpa using hlater j'' (by omega)
          · rintro ⟨hj, hlater'⟩
            rcases Nat.lt_trichotomy j (m + 1) with hlt | heq | hgt
            · exact absurd (by simpa using hm) (hlater' (m + 1) hlt)
            · exact heq.symm
            · obtain ⟨n, rfl⟩ : ∃ n, j = n + 1 := ⟨j - 1, by omega⟩
              exact absurd (by simpa using hj) (hlater n (by omega))
      | none =>
          have hno (n : ℕ) : (entries[n]?).map LaunchEntry.id ≠ some key := by
            intro hn
            obtain ⟨e', he', hid⟩ := Option.map_eq_some_iff.mp hn
            exact lastPlace_eq_none_iff.mp hlast e' (List.mem_of_getElem? he') hid
          simp only [Option.map_none, Option.none_or]
          constructor
          · intro h
            split_ifs at h with heq
            obtain rfl := Option.some.inj h
            refine ⟨by simpa using heq, fun j' hj' => ?_⟩
            obtain ⟨n, rfl⟩ : ∃ n, j' = n + 1 := ⟨j' - 1, by omega⟩
            simpa using hno n
          · rintro ⟨hj, -⟩
            cases j with
            | zero => rw [if_pos (by simpa using hj)]
            | succ n => exact absurd (by simpa using hj) (hno n)

/-- The parent of an entry, as the client finds it. -/
theorem parentTabIndex_eq_some_iff {entries : List LaunchEntry} {i j : ℕ} {parentId : Text} :
    parentTabIndex (idToIndex 0 entries fun _ => none) i parentId = some j ↔
      parentId ≠ [] ∧ lastPlace entries parentId = some j ∧ j < i := by
  rw [parentTabIndex]
  by_cases hempty : parentId = []
  · simp [hempty]
  · rw [if_neg (by simpa using hempty), idToIndex_eq hempty]
    cases hlast : lastPlace entries parentId with
    | none => simp
    | some m =>
        by_cases hlt : m < i
        · simp only [Option.map_some, Nat.zero_add, Option.some_or, if_pos hlt]
          constructor
          · intro h
            obtain rfl := Option.some.inj h
            exact ⟨hempty, rfl, hlt⟩
          · rintro ⟨-, h, -⟩
            exact h
        · simp only [Option.map_some, Nat.zero_add, Option.some_or, if_neg hlt]
          constructor
          · intro h
            cases h
          · rintro ⟨-, h, hji⟩
            obtain rfl := Option.some.inj h
            exact absurd hji hlt

/-- The first entry with the parent's id, when it is in front. -/
theorem earlierEntry_eq_some_iff {entries : List LaunchEntry} {i j : ℕ} {e : LaunchEntry}
    (he : entries[i]? = some e) :
    earlierEntry entries i = some j ↔ j < i ∧ (entries[j]?).map LaunchEntry.id = some e.parentId ∧
      ∀ j' < j, (entries[j']?).map LaunchEntry.id ≠ some e.parentId := by
  rw [earlierEntry, he, Option.bind_some, List.findIdx?_eq_some_iff_getElem]
  constructor
  · rintro ⟨hj, hid, hbefore⟩
    have hji : j < i := by
      rw [List.length_take] at hj
      omega
    have hget {n : ℕ} (hn : n < i) : (entries.take i)[n]? = entries[n]? := by
      rw [List.getElem?_take, if_pos hn]
    refine ⟨hji, ?_, fun j' hj' hsame => ?_⟩
    · rw [← hget hji, List.getElem?_eq_getElem hj]
      simpa using hid
    · have hno := hbefore j' hj'
      rw [← hget (hj'.trans hji), List.getElem?_eq_getElem (hj'.trans hj)] at hsame
      simp at hno hsame
      exact hno hsame
  · rintro ⟨hji, hid, hbefore⟩
    have hlen : j < (entries.take i).length := by
      have hj : j < entries.length := by
        obtain ⟨e', he', -⟩ := Option.map_eq_some_iff.mp hid
        exact (List.getElem?_eq_some_iff.mp he').1
      rw [List.length_take]
      omega
    have hget {n : ℕ} (hn : n ≤ j) :
        (entries[n]?).map LaunchEntry.id = some ((entries.take i)[n].id) := by
      have hn' : n < (entries.take i).length := by omega
      rw [← Option.map_some, ← List.getElem?_eq_getElem hn', List.getElem?_take, if_pos (by omega)]
    refine ⟨hlen, ?_, fun j' hj' => ?_⟩
    · rw [hget le_rfl] at hid
      simpa using hid
    · have hno := hbefore j' hj'
      rw [hget hj'.le] at hno
      simpa using hno

/-- With distinct ids that are not empty the client finds the entry that is named. -/
theorem parentTabIndex_eq {entries : List LaunchEntry} (hid : ∀ e ∈ entries, e.id ≠ [])
    (hnd : (entries.map LaunchEntry.id).Nodup) {i : ℕ} {e : LaunchEntry}
    (he : entries[i]? = some e) :
    parentTabIndex (idToIndex 0 entries fun _ => none) i e.parentId = earlierEntry entries i := by
  have hinj {j j' : ℕ} {key : Text} (hj : (entries[j]?).map LaunchEntry.id = some key)
      (hj' : (entries[j']?).map LaunchEntry.id = some key) : j = j' := by
    rw [← List.getElem?_map] at hj hj'
    exact (List.getElem?_inj (List.getElem?_eq_some_iff.mp hj).1 hnd).mp (hj.trans hj'.symm)
  apply Option.ext
  intro j
  rw [parentTabIndex_eq_some_iff, earlierEntry_eq_some_iff he, lastPlace_eq_some_iff]
  constructor
  · rintro ⟨-, ⟨hj, -⟩, hlt⟩
    exact ⟨hlt, hj, fun j' hj' hsame => absurd (hinj hsame hj) (by omega)⟩
  · rintro ⟨hlt, hj, -⟩
    refine ⟨?_, ⟨hj, fun j' hj' hsame => absurd (hinj hsame hj) (by omega)⟩, hlt⟩
    obtain ⟨e', he', hname⟩ := Option.map_eq_some_iff.mp hj
    rw [← hname]
    exact hid e' (List.mem_of_getElem? he')

theorem earlierEntry_lt {entries : List LaunchEntry} {i q : ℕ} (h : earlierEntry entries i = some q) :
    q < i := by
  cases he : entries[i]? with
  | none => simp [earlierEntry, he] at h
  | some e => exact ((earlierEntry_eq_some_iff he).mp h).1

/-! ### The run of the client -/

section Run

variable {par : ℕ → Option ℕ} {positionPref : NewTabPosition}

/-- The tabs that are still to be made after the first `k`. -/
def TabsFrom (par : ℕ → Option ℕ) (k : ℕ) (tabs : List InitialTab) : Prop :=
  ∀ i it, tabs[i]? = some it → it.parentTabIndex = par (k + i) ∧ it.active = decide (k + i = 0)

/-- The tabs behind the first one. -/
theorem TabsFrom.tail {k : ℕ} {it : InitialTab} {tabs : List InitialTab}
    (h : TabsFrom par k (it :: tabs)) : TabsFrom par (k + 1) tabs := by
  intro i it' hit
  have := h (i + 1) it' (by simpa using hit)
  rwa [show k + 1 + i = k + (i + 1) by omega]

/-- The tabs up to `k` keep the order. -/
def StartsInOrder (positionPref : NewTabPosition) (par : ℕ → Option ℕ) (n : ℕ) : Prop :=
  positionPref = .last ∨ ∀ k < n, 2 ≤ k → Attached par k

/-- The order of the rows after the first `k` tabs. -/
structure OrderAfter (positionPref : NewTabPosition) (par : ℕ → Option ℕ) (k : ℕ)
    (s : TerminalSidebar) : Prop where
  kept : StartsInOrder positionPref par k → TreeOrder s.rows
  broken : ¬ StartsInOrder positionPref par k → Broken s.rows

/-- One more shell keeps what is known of the order. -/
theorem OrderAfter.createInstance {k : ℕ} {s s' : TerminalSidebar} {L T R : List Row}
    (ho : OrderAfter positionPref par k s) (h : Spawned par k s)
    (hpar : ∀ i q, par i = some q → q < i) (hk : 0 < k)
    (hc : Created positionPref par k s s' L T R) : OrderAfter positionPref par (k + 1) s' := by
  cases positionPref with
  | last =>
      exact ⟨fun _ => treeOrder_createInstance_last hc h (ho.kept (Or.inl rfl)),
        fun hnot => absurd (Or.inl rfl) hnot⟩
  | next =>
      have hbefore (hin : StartsInOrder .next par (k + 1)) : StartsInOrder .next par k := by
        rcases hin with hlast | hall
        · exact Or.inl hlast
        · exact Or.inr fun i hi => hall i (by omega)
      refine ⟨fun hin => ?_, fun hnot => ?_⟩
      · refine treeOrder_createInstance_next hc h hpar hk (ho.kept (hbefore hin)) fun h2 => ?_
        rcases hin with hlast | hall
        · cases hlast
        · exact hall k (Nat.lt_succ_self k) h2
      · by_cases hin : StartsInOrder .next par k
        · -- this tab is the first that goes wrong
          have hwrong : 2 ≤ k ∧ ¬ Attached par k := by
            by_contra hright
            refine hnot (Or.inr fun i hi h2 => ?_)
            rcases Nat.lt_succ_iff_lt_or_eq.mp hi with hlt | rfl
            · rcases hin with hlast | hall
              · cases hlast
              · exact hall i hlt h2
            · by_contra hni
              exact hright ⟨h2, hni⟩
          exact broken_of_not_attached hc h hpar hwrong.1 (ho.kept hin) hwrong.2
        · exact broken_createInstance hc h (ho.broken hin)

/-- The client finds the path of the parent, which is older. -/
theorem path_of_parent {p : Option ℕ} {k : ℕ} (hp : ∀ q, p = some q → q < k) :
    (p.bind fun i => (((List.range k).map some)[i]?).join) = p := by
  cases p with
  | none => rfl
  | some q =>
      have hq := hp q rfl
      simp [List.getElem?_range hq]

/-- The rest of the tabs. -/
theorem createTabs_eq {k : ℕ} {tabs : List InitialTab} {s : TerminalSidebar}
    (htabs : TabsFrom par k tabs) (hpar : ∀ i q, par i = some q → q < i) (hk : 0 < k)
    (h : Spawned par k s) (ho : OrderAfter positionPref par k s) :
    ∃ s' paths, createTabs positionPref (tabs.map fun it => (it, true))
        ((List.range k).map some) s = some (s', paths) ∧
      Spawned par (k + tabs.length) s' ∧ OrderAfter positionPref par (k + tabs.length) s' := by
  induction tabs generalizing k s with
  | nil => exact ⟨s, _, rfl, h, ho⟩
  | cons it tabs ih =>
      obtain ⟨hparent, hactive⟩ := htabs 0 it rfl
      obtain ⟨s₁, L, T, R, hs₁, hc⟩ := createInstance_eq h hpar hk positionPref
      obtain ⟨s', paths, hrest, hspawned, horder⟩ := ih htabs.tail (Nat.succ_pos k) (hc.spawned h)
        (ho.createInstance h hpar hk hc)
      refine ⟨s', paths, ?_, ?_, ?_⟩
      · have hidle : it.active = false := by
          rw [hactive]
          exact decide_eq_false (by omega)
        have hpaths : (List.range k).map some ++ [some k] = (List.range (k + 1)).map some := by
          rw [List.range_succ, List.map_append]
          rfl
        rw [List.map_cons, createTabs]
        simp only [List.length_map, List.length_range, if_true]
        rw [path_of_parent (fun q hq => hpar k q (hparent.symm.trans hq)), hparent, Nat.add_zero,
          hidle, hs₁, hpaths]
        exact hrest
      · rwa [List.length_cons, show k + (tabs.length + 1) = k + 1 + tabs.length by omega]
      · rwa [List.length_cons, show k + (tabs.length + 1) = k + 1 + tabs.length by omega]

/-- The first tab has the only row, and is selected. -/
theorem createInstance_first (positionPref : NewTabPosition) :
    createInstance positionPref {} 0 none true =
      some { rows := [firstRow], selectedRow := some 0, activeScreen := some 0 } := by
  cases positionPref <;> rfl

/-- All tabs in a fresh window. -/
theorem handleOptions_eq (positionPref : NewTabPosition) {tabs : List InitialTab}
    (htabs : TabsFrom par 0 tabs) (hne : tabs ≠ []) (hpar : ∀ i q, par i = some q → q < i) :
    ∃ s, handleOptions positionPref tabs = some s ∧ Spawned par tabs.length s ∧
      OrderAfter positionPref par tabs.length s := by
  obtain ⟨it, tabs, rfl⟩ := List.exists_cons_of_ne_nil hne
  have hzero : par 0 = none := by
    cases hp : par 0 with
    | none => rfl
    | some q => exact absurd (hpar 0 q hp) (by omega)
  obtain ⟨hparent, hactive⟩ := htabs 0 it rfl
  let s₁ : TerminalSidebar := { rows := [firstRow], selectedRow := some 0, activeScreen := some 0 }
  have hspawned : Spawned par 1 s₁ := by
    refine ⟨List.Perm.refl _, ?_, rfl, rfl⟩
    intro r hr
    obtain rfl := List.mem_singleton.mp hr
    exact hzero.symm
  have horder : OrderAfter positionPref par 1 s₁ := by
    refine ⟨fun _ => ⟨?_, ?_⟩, fun hnot => absurd (Or.inr fun k hk h2 => by omega) hnot⟩
    · exact preOrder_iff.mpr ⟨[(0, [])], ⟨List.nil_suffix, trivial⟩, List.nodup_singleton 0, rfl⟩
    · intro q
      by_cases hq : none = q
      · subst hq
        exact List.pairwise_singleton _ _
      · simp [s₁, firstRow, hq]
  obtain ⟨s', paths, hrest, hspawned', horder'⟩ :=
    createTabs_eq htabs.tail hpar Nat.one_pos hspawned horder
  refine ⟨s', ?_, ?_, ?_⟩
  · have hfirst : createInstance positionPref {} 0 none it.active = some s₁ := by
      rw [hactive]
      exact createInstance_first positionPref
    rw [handleOptions, List.map_cons, createTabs, hparent, hzero]
    simp only [List.length_nil, Option.bind_none, if_true, hfirst, Option.bind_eq_bind,
      Option.bind_some, List.nil_append]
    have hpaths : ([some 0] : List (Option ℕ)) = (List.range (0 + 1)).map some := rfl
    rw [hpaths, hrest]
    rfl
  · rwa [List.length_cons, Nat.add_comm]
  · rwa [List.length_cons, Nat.add_comm]

end Run

/-! ### The promise -/

/-- One row for each entry, at the parent it names, and in order. -/
structure StartedTree (entries : List LaunchEntry) (s : TerminalSidebar) : Prop where
  rows : (s.rows.map Line.key).Perm (List.range entries.length)
  parents : ∀ r ∈ s.rows, r.parent = earlierEntry entries r.key
  order : TreeOrder s.rows

/-- **The tree of a started window is the one of the entries exactly when new tabs go last, or when
each entry behind the second has a parent and none before it hangs at the first.** -/
theorem startedTree_iff (env : Environment) (positionPref : NewTabPosition)
    (entries : List LaunchEntry) (hid : ∀ e ∈ entries, e.id ≠ [])
    (hnd : (entries.map LaunchEntry.id).Nodup) {tabs : List InitialTab}
    (htabs : expandProfileLaunchEntries env entries = some tabs) :
    ∃ s, handleOptions positionPref tabs = some s ∧
      (StartedTree entries s ↔
        StartsInOrder positionPref (earlierEntry entries) entries.length) := by
  have hpar (i q : ℕ) : earlierEntry entries i = some q → q < i := earlierEntry_lt
  have hne : entries ≠ [] := by
    rintro rfl
    cases htabs
  rw [expandProfileLaunchEntries, if_neg (by simpa using hne)] at htabs
  obtain rfl := Option.some.inj htabs
  have hfrom : TabsFrom (earlierEntry entries) 0
      (entries.mapIdx (initialTab env (idToIndex 0 entries fun _ => none))) := by
    intro i it hit
    rw [List.getElem?_mapIdx] at hit
    obtain ⟨e, he, rfl⟩ := Option.map_eq_some_iff.mp hit
    rw [Nat.zero_add]
    exact ⟨parentTabIndex_eq hid hnd he, rfl⟩
  obtain ⟨s, hs, hspawned, horder⟩ := handleOptions_eq positionPref hfrom
    (by simpa using hne) hpar
  rw [List.length_mapIdx] at hspawned horder
  refine ⟨s, hs, fun hstarted => ?_, fun hin => ⟨hspawned.keys, hspawned.parents, horder.kept hin⟩⟩
  by_contra hnot
  refine (horder.broken hnot).not_treeOrder hspawned.nodup (fun r hr hself => ?_) hstarted.order
  rw [hspawned.parents r hr] at hself
  exact lt_irrefl _ (hpar _ _ hself)

/-- Two roots, and a shell below the second. -/
def nestedEntries : List LaunchEntry :=
  [{ id := "a".toList }, { id := "b".toList }, { id := "c".toList, parentId := "b".toList }]

theorem startedTree_nestedEntries :
    ∃ tabs s, expandProfileLaunchEntries {} nestedEntries = some tabs ∧
      handleOptions .next tabs = some s ∧ StartedTree nestedEntries s := by
  obtain ⟨s, hs, hiff⟩ := startedTree_iff {} .next nestedEntries (by decide) (by decide) rfl
  refine ⟨_, s, rfl, hs, hiff.mpr (Or.inr fun k hk h2 => ?_)⟩
  obtain rfl : k = 2 := by
    have hk' : k < 3 := hk
    omega
  exact ⟨by decide, by decide⟩

/-- Three roots; the third comes in front of the second. -/
def threeRoots : List LaunchEntry :=
  [{ id := "a".toList }, { id := "b".toList }, { id := "c".toList }]

/-- Three roots, each behind the active row. -/
theorem threeRoots_not_startedTree :
    (∀ e ∈ threeRoots, e.id ≠ []) ∧ (threeRoots.map LaunchEntry.id).Nodup ∧
      ∃ tabs s, expandProfileLaunchEntries {} threeRoots = some tabs ∧
        handleOptions .next tabs = some s ∧ ¬ StartedTree threeRoots s := by
  refine ⟨by decide, by decide, _,
    { rows := [⟨0, none⟩, ⟨2, none⟩, ⟨1, none⟩], selectedRow := some 0, activeScreen := some 0 }, rfl,
    by decide, fun h => ?_⟩
  exact absurd (h.order.siblings none) (by decide)

end Axan.LinuxSidebar
