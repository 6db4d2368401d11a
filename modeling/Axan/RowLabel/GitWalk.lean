import Axan.Base.Ascend
import Axan.Base.Utf8

/-!
# The git walk of the label variables

`$branch` and `$repo` look for the directory with a `.git` entry, from the directory of the shell
upwards. The walk steps with `g_path_get_dirname`, which has a fixed point beside the root: a
string without a separator has the directory `.`, and so has `.` itself.

* `gPathGetDirname`, `gBuildFilename` — the two GLib functions on byte strings.
* `expandTildeDir`, `terminalScreenGetCurrentDir` — where the start of the walk comes from.
* `sidebarFindGitToplevel` — the walk, for a number of rounds.
* `sidebarFindGitToplevel_meets_iff` — it ends with the nearest directory exactly when the start is
  empty or absolute, or some directory on the way has an entry.

The file system is the predicate that `g_file_test` answers.
-/

namespace Axan.RowLabel

open Axan.Base

/-! ### Paths -/

/-- A path up to its last separator. -/
def throughSlash (path : ByteString) : ByteString := path.rdropWhile (· ≠ byte '/')

/-- A path without the separators at its end. -/
def trimSlashes (path : ByteString) : ByteString := path.rdropWhile (· = byte '/')

/-- The directory part: what stands before the last component and the separators in front of it,
`.` when there is no separator, and the root when nothing else is left.
Source: `g_path_get_dirname` -/
def gPathGetDirname (fileName : ByteString) : ByteString :=
  if throughSlash fileName = [] then B "."
  else if trimSlashes (throughSlash fileName) = [] then B "/"
  else trimSlashes (throughSlash fileName)

/-- An entry of a directory, with one separator between. Source: `g_build_filename` -/
def gBuildFilename (dir entry : ByteString) : ByteString :=
  if trimSlashes dir = [] then dir ++ entry else trimSlashes dir ++ byte '/' :: entry

/-! ### The directory of a shell -/

/-- The working directory of a startup entry; only a leading `~` is expanded.
Source: `expand_tilde_dir` -/
def expandTildeDir (home path : ByteString) : Option ByteString :=
  if path = [] then none
  else if path.head? = some (byte '~') && (path.tail = [] || path.tail.head? = some (byte '/')) then
    some (home ++ path.tail)
  else some path

/-- The directory the shell reported, as a file name, or else the one it was started in.
Source: `terminal_screen_get_current_dir` -/
def terminalScreenGetCurrentDir (reported : Option (Option ByteString))
    (execCwd : Option ByteString) : Option ByteString :=
  match reported with
  | some fileName => fileName
  | none => execCwd

/-- A directory of an entry without a `~` in front is the directory of its shell, until the shell
reports one. -/
theorem terminalScreenGetCurrentDir_expandTildeDir (home : ByteString) {path : ByteString}
    (hne : path ≠ []) (h : path.head? ≠ some (byte '~')) :
    terminalScreenGetCurrentDir none (expandTildeDir home path) = some path := by
  unfold terminalScreenGetCurrentDir expandTildeDir
  rw [if_neg hne, if_neg (by simp [h])]

/-! ### The walk -/

/-- Is there a `.git` in the directory? -/
def hasGitEntry (fileTest : ByteString → Bool) (cur : ByteString) : Bool :=
  fileTest (gBuildFilename cur (B ".git"))

/-- The strings at which the walk gives up. -/
def isTop (cur : ByteString) : Bool := cur = [] || cur = B "/"

/-- The walk, for a number of rounds; no result while it is still going.
Source: `sidebar_find_git_toplevel` -/
def sidebarFindGitToplevel (fileTest : ByteString → Bool) (rounds : ℕ) (startDir : ByteString) :
    Option (Option ByteString) :=
  if startDir = [] then some none
  else searchUp isTop (hasGitEntry fileTest) gPathGetDirname rounds startDir

/-- A directory on the way up: the start or an ancestor of it, below the root. -/
def OnTheWay (startDir : ByteString) (dir : ByteString) : Prop :=
  ∃ k, Visited isTop gPathGetDirname startDir k dir

/-! ### Directory parts -/

/-- A string that starts with a separator. -/
def IsAbsolute (path : ByteString) : Prop := path.head? = some (byte '/')

/-- A front has the same first byte. -/
theorem head?_of_isPrefix {p s : ByteString} (h : p <+: s) (hp : p ≠ []) : p.head? = s.head? := by
  obtain ⟨t, rfl⟩ := h
  exact (List.head?_append_of_ne_nil p hp).symm

/-- What is up to the separator is a front of the path. -/
theorem throughSlash_isPrefix (s : ByteString) : throughSlash s <+: s := List.rdropWhile_prefix _ _

/-- So is the path without its trailing separators. -/
theorem trimSlashes_isPrefix (s : ByteString) : trimSlashes s <+: s := List.rdropWhile_prefix _ _

/-- It is empty iff there is no separator. -/
theorem throughSlash_eq_nil_iff {s : ByteString} : throughSlash s = [] ↔ byte '/' ∉ s := by
  unfold throughSlash
  rw [List.rdropWhile_eq_nil_iff]
  constructor
  · intro hall hmem
    exact of_decide_eq_true (hall (byte '/') hmem) rfl
  · intro h b hb
    refine decide_eq_true ?_
    rintro rfl
    exact h hb

example : gPathGetDirname (B "/home//me/") = B "/home//me" := by decide

/-- The directory part of an absolute path is one. -/
theorem IsAbsolute.dirname {s : ByteString} (h : IsAbsolute s) : IsAbsolute (gPathGetDirname s) := by
  unfold IsAbsolute at h ⊢
  unfold gPathGetDirname
  split_ifs with hbase hdir
  · -- a separator is left when one is there
    exact absurd (List.mem_of_mem_head? h) (throughSlash_eq_nil_iff.mp hbase)
  · decide
  · rw [head?_of_isPrefix (trimSlashes_isPrefix _) hdir, head?_of_isPrefix (throughSlash_isPrefix _) hbase,
      h]

/-- Only the root has no shorter directory part among the absolute paths. -/
theorem IsAbsolute.length_dirname_lt {s : ByteString} (h : IsAbsolute s) (hs : s ≠ B "/") :
    (gPathGetDirname s).length < s.length := by
  have hlen : 1 < s.length := by
    obtain ⟨t, rfl⟩ := List.head?_eq_some_iff.mp h
    cases t with
    | nil => exact absurd rfl hs
    | cons b t => simp
  unfold gPathGetDirname
  split_ifs with hbase hdir
  · exact hlen
  · exact hlen
  · -- the separator at the end is dropped
    refine lt_of_lt_of_le ?_ (throughSlash_isPrefix s).length_le
    refine lt_of_le_of_ne (trimSlashes_isPrefix _).length_le fun heq => ?_
    have hself := (trimSlashes_isPrefix (throughSlash s)).eq_of_length heq
    have hlast : (throughSlash s).getLast hbase = byte '/' := by
      simpa [throughSlash] using List.rdropWhile_last_not (fun b => decide (b ≠ byte '/')) s hbase
    have hkept := List.rdropWhile_eq_self_iff.mp hself hbase
    rw [hlast] at hkept
    exact hkept (decide_eq_true rfl)

/-- The directory part of a relative path is one, and never empty. -/
theorem dirname_of_not_isAbsolute {s : ByteString} (h : ¬ IsAbsolute s) :
    ¬ IsAbsolute (gPathGetDirname s) ∧ gPathGetDirname s ≠ [] := by
  unfold IsAbsolute at h ⊢
  unfold gPathGetDirname
  split_ifs with hbase hdir
  · decide
  · -- only separators in front of the last component: the path would be absolute
    obtain ⟨b, t, hbt⟩ := List.exists_cons_of_ne_nil hbase
    have hb : b = byte '/' := by
      refine of_decide_eq_true (List.rdropWhile_eq_nil_iff.mp hdir b ?_)
      rw [hbt]
      exact List.mem_cons_self
    refine absurd ?_ h
    rw [← head?_of_isPrefix (throughSlash_isPrefix s) hbase, hbt, hb]
    rfl
  · refine ⟨?_, hdir⟩
    rwa [head?_of_isPrefix (trimSlashes_isPrefix _) hdir,
      head?_of_isPrefix (throughSlash_isPrefix _) hbase]

/-! ### Where the walk ends -/

/-- From an absolute path the walk comes to the root. -/
theorem IsAbsolute.exists_isTop {s : ByteString} (h : IsAbsolute s) :
    ∃ k, isTop (gPathGetDirname^[k] s) = true := by
  induction hn : s.length using Nat.strong_induction_on generalizing s with
  | _ n ih =>
      by_cases hs : s = B "/"
      · exact ⟨0, by rw [hs]; decide⟩
      · obtain ⟨k, hk⟩ := ih _ (hn ▸ h.length_dirname_lt hs) h.dirname rfl
        exact ⟨k + 1, hk⟩

/-- From a relative path it never does. -/
theorem isTop_iterate_of_not_isAbsolute {s : ByteString} (h : ¬ IsAbsolute s) (hs : s ≠ [])
    (k : ℕ) : isTop (gPathGetDirname^[k] s) = false := by
  induction k generalizing s with
  | zero =>
      unfold isTop
      rw [Bool.or_eq_false_iff, decide_eq_false_iff_not, decide_eq_false_iff_not]
      refine ⟨hs, ?_⟩
      rintro rfl
      exact h rfl
  | succ k ih =>
      obtain ⟨hrel, hne⟩ := dirname_of_not_isAbsolute h
      exact ih hrel hne

/-- From the empty directory nothing is found. -/
theorem isNearest_of_eq_nil (found : ByteString → Bool) :
    IsNearest isTop found gPathGetDirname [] none := by
  intro k x hx
  exact absurd hx.start (by decide)

/-- The walk ends, with the nearest directory that has an entry, exactly from an empty or absolute
path and from a path with such a directory on the way: the way up from a relative path ends at `.`
and stays there. -/
theorem sidebarFindGitToplevel_meets_iff (fileTest : ByteString → Bool) (startDir : ByteString) :
    (∃ rounds r, sidebarFindGitToplevel fileTest rounds startDir = some r ∧
        IsNearest isTop (hasGitEntry fileTest) gPathGetDirname startDir r) ↔
      startDir = [] ∨ IsAbsolute startDir ∨
        ∃ dir, OnTheWay startDir dir ∧ hasGitEntry fileTest dir = true := by
  unfold sidebarFindGitToplevel
  by_cases hempty : startDir = []
  · subst hempty
    exact ⟨fun _ => Or.inl rfl, fun _ => ⟨0, none, by rw [if_pos rfl], isNearest_of_eq_nil _⟩⟩
  simp only [hempty, if_false, false_or]
  constructor
  · rintro ⟨rounds, r, hr, -⟩
    obtain ⟨k, hk⟩ | ⟨k, x, hx, hfound⟩ := exists_searchUp_iff.mp ⟨rounds, r, hr⟩
    · left
      by_contra hrel
      rw [isTop_iterate_of_not_isAbsolute hrel hempty] at hk
      exact Bool.false_ne_true hk
    · exact Or.inr ⟨x, ⟨k, hx⟩, hfound⟩
  · intro h
    have hend : ∃ rounds r, searchUp isTop (hasGitEntry fileTest) gPathGetDirname rounds startDir =
        some r := by
      apply exists_searchUp_iff.mpr
      obtain habs | ⟨dir, ⟨k, hk⟩, hfound⟩ := h
      · exact Or.inl habs.exists_isTop
      · exact Or.inr ⟨k, dir, hk, hfound⟩
    obtain ⟨rounds, r, hr⟩ := hend
    exact ⟨rounds, r, hr, isNearest_of_searchUp hr⟩

/-- The shell of an entry with the directory `proj`, and no repository: the walk is still going
after any number of rounds. -/
theorem not_sidebarFindGitToplevel_proj :
    terminalScreenGetCurrentDir none (expandTildeDir (B "/home/me") (B "proj")) =
        some (B "proj") ∧
      ¬ ∃ rounds r, sidebarFindGitToplevel (fun _ => false) rounds (B "proj") = some r := by
  refine ⟨terminalScreenGetCurrentDir_expandTildeDir _ (by decide) (by decide), ?_⟩
  rintro ⟨rounds, r, hr⟩
  unfold sidebarFindGitToplevel at hr
  rw [if_neg (by decide)] at hr
  obtain ⟨k, hk⟩ | ⟨k, x, -, hfound⟩ := exists_searchUp_iff.mp ⟨rounds, r, hr⟩
  · rw [isTop_iterate_of_not_isAbsolute (by unfold IsAbsolute; decide) (by decide)] at hk
    exact Bool.false_ne_true hk
  · exact Bool.false_ne_true hfound

end Axan.RowLabel
