import Axan.Base.Lru
import Axan.ProgramStatus.Store

/-!
# The cap on the records: the least recently updated one leaves

The eviction of `ProgramStatusReport` looks for the lowest revision. Since revisions are handed out
in order, that record is the one whose last report is the oldest, so the store is a cache of
`maxRecords` places used by the ids of the reports.

* `reportAll` — reports applied one after the other.
* `lastReports` — the reports no later report for the same id replaces, with their places.
* `Caches` — the store holds what the cache holds; `Caches.report` is the step lemma.
* `reportAll_entries` — the store after any sequence of reports.
-/

namespace Axan.ProgramStatus

open Axan.Base

/-- Apply accepted reports one after the other, each with the pairs the parser skipped in it. -/
def reportAll (s : Store) (rs : List (Report × ℕ)) : Store :=
  rs.foldl (fun s r => s.programStatusReport (.report r.1 r.2)) s

/-- The reports with their places in the sequence. -/
def placed (rs : List (Report × ℕ)) : List (Report × ℕ) := (rs.map Prod.fst).zipIdx

/-- The reports that are the last ones for their ids, with their places. -/
def lastReports (rs : List (Report × ℕ)) : List (Report × ℕ) := lasts (fun x => x.1.id) (placed rs)

/-- The entry a report becomes when it is written at its place after a given revision. -/
def entryAt (revision : ℕ) (x : Report × ℕ) : WString × ProgramStatusRecord :=
  (x.1.id, recordOf x.1 (revision + x.2 + 1))

/-- The last report has the last place. -/
theorem placed_concat (rs : List (Report × ℕ)) (r : Report × ℕ) :
    placed (rs ++ [r]) = placed rs ++ [(r.1, rs.length)] := by
  simp [placed, List.zipIdx_append]

/-- Places increase along the sequence. -/
theorem pairwise_placed (rs : List (Report × ℕ)) : (placed rs).Pairwise fun a b => a.2 < b.2 := by
  have h : ((placed rs).map Prod.snd).Pairwise (· < ·) := by
    rw [placed, List.zipIdx_map_snd]
    exact List.pairwise_lt_range'
  exact List.pairwise_map.mp h

/-- A report is placed where it stands. -/
theorem mem_placed_iff {rs : List (Report × ℕ)} {x : Report × ℕ} :
    x ∈ placed rs ↔ ∃ n, rs[x.2]? = some (x.1, n) := by
  rw [placed, List.mem_zipIdx_iff_getElem?, List.getElem?_map, Option.map_eq_some_iff]
  constructor
  · rintro ⟨⟨r, n⟩, h, rfl⟩
    exact ⟨n, h⟩
  · rintro ⟨n, h⟩
    exact ⟨_, h, rfl⟩

/-! ### The record that is evicted -/

/-- The scan returns an entry with the lowest revision. -/
theorem oldest_le {l : List (WString × ProgramStatusRecord)} {e : WString × ProgramStatusRecord}
    (h : oldest l = some e) : ∀ e' ∈ l, e.2.revision ≤ e'.2.revision := by
  have hfold : ∀ (l : List (WString × ProgramStatusRecord)) (o : WString × ProgramStatusRecord),
      ∀ e' ∈ o :: l,
        (l.foldl (fun o scan => if scan.2.revision < o.2.revision then scan else o) o).2.revision ≤
          e'.2.revision := by
    intro l
    induction l with
    | nil => simp
    | cons b l ih =>
        intro o e' he'
        rw [List.foldl_cons]
        have hbest : ∀ c ∈ [o, b],
            (if b.2.revision < o.2.revision then b else o).2.revision ≤ c.2.revision := by
          intro c hc
          split_ifs <;> simp only [List.mem_cons, List.not_mem_nil, or_false] at hc <;>
            rcases hc with rfl | rfl <;> omega
        have hhead := ih (if b.2.revision < o.2.revision then b else o) _ List.mem_cons_self
        rcases List.mem_cons.mp he' with rfl | he'
        · exact hhead.trans (hbest e' (by simp))
        rcases List.mem_cons.mp he' with rfl | he'
        · exact hhead.trans (hbest e' (by simp))
        · exact ih _ e' (List.mem_cons_of_mem _ he')
  cases l with
  | nil => cases h
  | cons a rest =>
      simp only [oldest, Option.some.injEq] at h
      subst h
      exact hfold rest a

/-! ### The store as a cache -/

/-- The store holds the reports of the cache, the least recent one first, each under the revision
of its place; `n` reports were applied. -/
structure Caches (revision n : ℕ) (l : List (Report × ℕ)) (s : Store) : Prop where
  entries : s.records.entries.Perm (l.map (entryAt revision))
  places : l.Pairwise fun a b => a.2 < b.2
  applied : ∀ x ∈ l, x.2 < n
  length_le : l.length ≤ maxRecords
  counter : s.revision = revision + n
  enabled : s.enabled = true

namespace Caches

variable {revision n : ℕ} {l : List (Report × ℕ)} {s : Store}

/-- The empty store caches nothing. -/
theorem empty (revision : ℕ) (running : Bool) :
    Caches revision 0 [] (Store.empty revision true running) :=
  ⟨List.Perm.refl _, List.Pairwise.nil, by simp, by simp, rfl, rfl⟩

/-- The cache has no two reports for one id. -/
theorem nodup_ids (h : Caches revision n l s) : (l.map fun x => x.1.id).Nodup := by
  have hkeys := (h.entries.map Prod.fst).nodup_iff.mp s.records.keys_nodup
  rwa [List.map_map] at hkeys

/-- There are as many records as cached reports. -/
theorem size_eq (h : Caches revision n l s) : s.records.size = l.length := by
  rw [OrdMap.size, h.entries.length_eq, List.length_map]

/-- An id is stored exactly when the cache has it. -/
theorem find?_eq_none_iff (h : Caches revision n l s) (id : WString) :
    s.records.find? id = none ↔ id ∉ l.map fun x => x.1.id := by
  rw [OrdMap.find?_eq_none_iff]
  constructor
  · rintro hne hin
    obtain ⟨x, hx, rfl⟩ := List.mem_map.mp hin
    exact hne _ (h.entries.mem_iff.mpr (List.mem_map_of_mem hx)) rfl
  · rintro hni e he rfl
    obtain ⟨x, hx, rfl⟩ := List.mem_map.mp (h.entries.mem_iff.mp he)
    exact hni (List.mem_map.mpr ⟨x, hx, rfl⟩)

/-- The evicted record is the first one of the cache. -/
theorem oldest_eq {x : Report × ℕ} (h : Caches revision n (x :: l) s) :
    oldest s.records.entries = some (entryAt revision x) := by
  have hfirst : entryAt revision x ∈ s.records.entries := h.entries.mem_iff.mpr List.mem_cons_self
  cases ho : oldest s.records.entries with
  | none =>
      have : s.records.entries = [] := by
        cases hr : s.records.entries with
        | nil => rfl
        | cons a rest => rw [hr] at ho; cases ho
      rw [this] at hfirst
      cases hfirst
  | some e =>
      obtain ⟨y, hy, rfl⟩ := List.mem_map.mp (h.entries.mem_iff.mp (oldest_mem ho))
      have hle : revision + y.2 + 1 ≤ revision + x.2 + 1 := oldest_le ho _ hfirst
      rcases List.mem_cons.mp hy with rfl | hy
      · rfl
      · have := (List.pairwise_cons.mp h.places).1 y hy
        omega

/-- Erasing a key from the store filters the cache by id. -/
theorem perm_erase {records : Records} {k : List (Report × ℕ)}
    (h : records.entries.Perm (k.map (entryAt revision))) (id : WString) :
    (records.erase id).entries.Perm ((k.filter fun x => x.1.id ≠ id).map (entryAt revision)) := by
  have herase : (records.erase id).entries = records.entries.filter fun e => e.1 ≠ id := by
    simp [OrdMap.erase]
  rw [herase]
  refine (h.filter _).trans ?_
  rw [List.filter_map]
  exact List.Perm.refl _

/-- Making room for an id and dropping its old record leaves what one use of the cache leaves. -/
theorem makeRoom_entries (h : Caches revision n l s) (r : Report) :
    ∃ k, lruStep (fun x => x.1.id) maxRecords l (r, n) = k ++ [(r, n)] ∧ k.Sublist l ∧
      k.length < maxRecords ∧
      ((makeRoom s.records r.id).erase r.id).entries.Perm (k.map (entryAt revision)) := by
  unfold lruStep makeRoom
  by_cases hin : r.id ∈ l.map fun x => x.1.id
  · -- the id is stored: nothing is evicted
    refine ⟨l.filter fun x => x.1.id ≠ r.id, if_pos hin, List.filter_sublist, ?_, ?_⟩
    · have := length_filter_key h.nodup_ids hin
      have := h.length_le
      omega
    · rw [if_neg fun hc => (h.find?_eq_none_iff r.id).mp hc.1 hin]
      exact perm_erase h.entries r.id
  have hnone := (h.find?_eq_none_iff r.id).mpr hin
  rw [if_neg hin]
  by_cases hfull : s.records.size ≥ maxRecords
  · cases l with
    | nil =>
        -- a full store is not empty
        rw [h.size_eq] at hfull
        exact absurd hfull (by decide)
    | cons x t =>
        rw [if_pos ⟨hnone, hfull⟩, h.oldest_eq]
        have hlen : t.length + 1 = maxRecords :=
          le_antisymm h.length_le (hfull.trans_eq h.size_eq)
        have hx : x.1.id ∉ t.map fun x => x.1.id := (List.nodup_cons.mp h.nodup_ids).1
        have ht : r.id ∉ t.map fun x => x.1.id := fun ht => hin (List.mem_cons_of_mem _ ht)
        refine ⟨t, ?_, List.sublist_cons_self x t, by omega, ?_⟩
        · rw [← hlen, List.rtake_concat_succ, ← List.singleton_append (l := t),
            rtake_append_of_le_length le_rfl, rtake_of_length_le le_rfl]
        · have hperm := perm_erase h.entries x.1.id
          rw [List.filter_cons_of_neg (by simp), filter_key_eq_self hx] at hperm
          have hperm' := perm_erase hperm r.id
          rwa [filter_key_eq_self ht] at hperm'
  · have hlt : l.length < maxRecords := by
      rw [← h.size_eq]
      exact not_le.mp hfull
    refine ⟨l, rtake_of_length_le (by simpa using hlt), List.Sublist.refl l, hlt, ?_⟩
    rw [if_neg fun hc => hfull hc.2]
    have hperm := perm_erase h.entries r.id
    rwa [filter_key_eq_self hin] at hperm

/-- The step lemma: a report is one use of the cache. -/
theorem report (h : Caches revision n l s) {r : Report} (hr : r.state ≠ .clear) (skipped : ℕ) :
    Caches revision (n + 1) (lruStep (fun x => x.1.id) maxRecords l (r, n))
      (s.programStatusReport (.report r skipped)) := by
  obtain ⟨k, hk, hsub, hlen, hperm⟩ := h.makeRoom_entries r
  have hrun : s.programStatusReport (.report r skipped) = (s.write r).notify := by
    simp [Store.programStatusReport, h.enabled, hr]
  have happlied : ∀ x ∈ k, x.2 < n := fun x hx => h.applied x (hsub.subset hx)
  rw [hk, hrun]
  constructor
  · have hnew : entryAt revision (r, n) = (r.id, recordOf r (s.revision + 1)) := by
      rw [h.counter]
      rfl
    rw [List.map_append, List.map_singleton, hnew]
    refine (OrdMap.perm_insert _ _ _).trans ((hperm.cons _).trans ?_)
    exact (List.perm_append_singleton _ _).symm
  · refine List.pairwise_append.mpr ⟨h.places.sublist hsub, List.pairwise_singleton _ _, ?_⟩
    intro x hx y hy
    rw [List.mem_singleton.mp hy]
    exact happlied x hx
  · intro x hx
    rcases List.mem_append.mp hx with hx | hx
    · exact (happlied x hx).trans (Nat.lt_succ_self n)
    · rw [List.mem_singleton.mp hx]
      exact Nat.lt_succ_self n
  · simpa using hlen
  · show s.revision + 1 = revision + (n + 1)
    rw [h.counter]
    omega
  · exact h.enabled

end Caches

/-- The run lemma. -/
theorem caches_reportAll (revision : ℕ) (running : Bool) {rs : List (Report × ℕ)}
    (h : ∀ r ∈ rs, r.1.state ≠ .clear) :
    Caches revision rs.length ((lastReports rs).rtake maxRecords)
      (reportAll (Store.empty revision true running) rs) := by
  have hcache : (lastReports rs).rtake maxRecords =
      (placed rs).foldl (lruStep (fun x => x.1.id) maxRecords) [] :=
    (foldl_lruStep (by decide) (placed rs)).symm
  rw [hcache]
  clear hcache
  induction rs using List.reverseRecOn with
  | nil => exact Caches.empty revision running
  | append_singleton rs r ih =>
      have hrs := ih fun r' hr' => h r' (List.mem_append_left _ hr')
      rw [placed_concat, List.foldl_append, reportAll, List.foldl_append, List.length_append]
      exact hrs.report (h r (by simp)) r.2

/-- A last report stands at its place, and no report after it is for its id. -/
theorem mem_lastReports {rs : List (Report × ℕ)} {x : Report × ℕ} (h : x ∈ lastReports rs) :
    (∃ n, rs[x.2]? = some (x.1, n)) ∧
      ∀ j r, x.2 < j → rs[j]? = some r → r.1.id ≠ x.1.id := by
  obtain ⟨a, b, hsplit, hb⟩ := exists_split_of_mem_lasts h
  refine ⟨mem_placed_iff.mp (hsplit ▸ List.mem_append_right a List.mem_cons_self), ?_⟩
  intro j r hj hr
  have hplaces := pairwise_placed rs
  have hmem : (r.1, j) ∈ placed rs := mem_placed_iff.mpr ⟨r.2, hr⟩
  rw [hsplit] at hplaces hmem
  rcases List.mem_append.mp hmem with hmem | hmem
  · -- what stands before it has a lower place
    have : j < x.2 := (List.pairwise_append.mp hplaces).2.2 _ hmem x List.mem_cons_self
    omega
  · rcases List.mem_cons.mp hmem with heq | hmem
    · have : j = x.2 := congrArg Prod.snd heq
      omega
    · exact hb (r.1, j) hmem

/-- There are as many last reports as distinct ids. -/
theorem length_lastReports (rs : List (Report × ℕ)) :
    (lastReports rs).length = (rs.map fun r => r.1.id).dedup.length := by
  have hids : (placed rs).map (fun x => x.1.id) = rs.map fun r => r.1.id := by
    have hfst : (placed rs).map Prod.fst = rs.map Prod.fst := List.zipIdx_map_fst 0 _
    have := congrArg (List.map Report.id) hfst
    rwa [List.map_map, List.map_map] at this
  rw [← hids, ← map_lasts, List.length_map]
  rfl

/-- **The store after any sequence of accepted reports**: one record for each of the last
`maxRecords` ids in the order of their last reports, equal to that report in every field, and the
revisions follow that order.
Source: `program-status-osc-7501.md` section 3 -/
theorem reportAll_entries (revision : ℕ) (running : Bool) (rs : List (Report × ℕ))
    (h : ∀ r ∈ rs, r.1.state ≠ .clear) :
    let kept := (lastReports rs).rtake maxRecords
    (reportAll (Store.empty revision true running) rs).records.entries.Perm
        (kept.map fun x => (x.1.id, recordOf x.1 (revision + x.2 + 1))) ∧
      kept.length = min maxRecords (rs.map fun r => r.1.id).dedup.length ∧
      (kept.Pairwise fun a b => a.2 < b.2) ∧
      (∀ x ∈ kept, ∀ y ∈ lastReports rs, y ∉ kept → y.2 < x.2) ∧
      (∀ x ∈ lastReports rs, (∃ n, rs[x.2]? = some (x.1, n)) ∧
        ∀ j r, x.2 < j → rs[j]? = some r → r.1.id ≠ x.1.id) ∧
      (∀ r ∈ rs, ∃ x ∈ lastReports rs, x.1.id = r.1.id) := by
  intro kept
  have hcaches := caches_reportAll revision running h
  have hplaces : (lastReports rs).Pairwise fun a b => a.2 < b.2 :=
    (pairwise_placed rs).sublist (lasts_sublist _)
  refine ⟨hcaches.entries, ?_, hcaches.places, ?_, fun x => mem_lastReports, ?_⟩
  · rw [length_rtake, length_lastReports]
  · intro x hx y hy hyk
    obtain ⟨a, hsplit, -⟩ := exists_append_rtake maxRecords (lastReports rs)
    rw [hsplit] at hplaces hy
    refine (List.pairwise_append.mp hplaces).2.2 y ?_ x hx
    exact (List.mem_append.mp hy).resolve_right hyk
  · intro r hr
    have hid : r.1.id ∈ ((placed rs).map fun x => x.1.id).dedup := by
      obtain ⟨j, hj⟩ := List.mem_iff_getElem?.mp hr
      rw [List.mem_dedup]
      exact List.mem_map.mpr ⟨(r.1, j), mem_placed_iff.mpr ⟨r.2, hj⟩, rfl⟩
    rw [← map_lasts] at hid
    exact List.mem_map.mp hid

/-- Two ids, the first reported again. -/
def repeated : List (Report × ℕ) :=
  [({ id := L "a", state := .working, msg := L "m" }, 0), ({ id := L "b" }, 0),
    ({ id := L "a", state := .done }, 0)]

theorem reportAll_entries_repeated :
    let kept := (lastReports repeated).rtake maxRecords
    (reportAll (Store.empty 0 true false) repeated).records.entries.Perm
        (kept.map fun x => (x.1.id, recordOf x.1 (0 + x.2 + 1))) ∧
      kept.length = min maxRecords (repeated.map fun r => r.1.id).dedup.length ∧
      (kept.Pairwise fun a b => a.2 < b.2) ∧
      (∀ x ∈ kept, ∀ y ∈ lastReports repeated, y ∉ kept → y.2 < x.2) ∧
      (∀ x ∈ lastReports repeated, (∃ n, repeated[x.2]? = some (x.1, n)) ∧
        ∀ j r, x.2 < j → repeated[j]? = some r → r.1.id ≠ x.1.id) ∧
      (∀ r ∈ repeated, ∃ x ∈ lastReports repeated, x.1.id = r.1.id) :=
  reportAll_entries 0 false repeated (by decide)

end Axan.ProgramStatus
