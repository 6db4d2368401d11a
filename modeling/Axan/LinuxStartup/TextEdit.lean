import Axan.LinuxStartup.Load

/-!
# The edit of a text field

Every keystroke writes all fields of all entries from the widgets. The texts and the icon are kept
on the row as they were loaded; the colour and what it is for are read back from combo boxes, which
show only what is offered.

* `reread` — an entry as it comes back from the widgets.
* `keepsOthers_iff` — **which arrays a text edit leaves alone** but for the field.
-/

namespace Axan.LinuxStartup

open Axan.Base Axan.Base.Forest Axan.Base.Settings
open Axan.LinuxSidebar (LaunchEntry)

/-! ### What the widgets keep -/

/-- What the combo box shows for a colour target. -/
def bothIfEmpty (colorTarget : Text) : Text :=
  if colorTarget.isEmpty then "both".toList else colorTarget

/-- The combo boxes have an item for the colour and for its target. -/
def Offered (e : LaunchEntry) : Prop :=
  e.color ∈ StartupColor.all.map StartupColor.id ∧
    bothIfEmpty e.colorTarget ∈ StartupColorTarget.all.map StartupColorTarget.id

instance (e : LaunchEntry) : Decidable (Offered e) := inferInstanceAs (Decidable (_ ∧ _))

/-- The id of the active item. -/
def activeId (ids : List Text) (id : Text) : Text := if id ∈ ids then id else []

/-- An entry as its row gives it back. -/
def reread (e : LaunchEntry) : LaunchEntry :=
  { e with
    color := activeId (StartupColor.all.map StartupColor.id) e.color
    colorTarget := activeId (StartupColorTarget.all.map StartupColorTarget.id)
      (bothIfEmpty e.colorTarget) }

/-- What a combo box shows is the id of an item, or nothing. -/
theorem getD_find?_id {α : Type} (id : α → Text) (items : List α) (t : Text) :
    ((items.find? fun a => id a = t).map id).getD [] = activeId (items.map id) t := by
  rw [activeId]
  split_ifs with hmem
  · obtain ⟨a, ha, rfl⟩ := List.mem_map.mp hmem
    have hfound : (items.find? fun b => id b = id a).isSome :=
      List.find?_isSome.mpr ⟨a, ha, by simp⟩
    obtain ⟨b, hb⟩ := Option.isSome_iff_exists.mp hfound
    have hid := List.find?_some hb
    rw [decide_eq_true_iff] at hid
    rw [hb, Option.map_some, Option.getD_some, hid]
  · have hnone : (items.find? fun a => id a = t) = none := by
      rw [List.find?_eq_none]
      intro a ha heq
      rw [decide_eq_true_iff] at heq
      exact hmem (heq ▸ List.mem_map_of_mem ha)
    rw [hnone]
    rfl

/-- An id is shown when there is an item of it. -/
theorem activeId_eq_self_iff {ids : List Text} {id : Text} (hne : id = [] → [] ∈ ids) :
    activeId ids id = id ↔ id ∈ ids := by
  rw [activeId]
  split_ifs with hmem
  · exact ⟨fun _ => hmem, fun _ => rfl⟩
  · exact ⟨fun heq => absurd (heq ▸ hne heq.symm) hmem, fun h => absurd h hmem⟩

/-- A target that is set stays. -/
theorem bothIfEmpty_eq_self {t : Text} (hne : t ≠ []) : bothIfEmpty t = t :=
  if_neg (by simpa using hne)

theorem bothIfEmpty_ne_nil (t : Text) : bothIfEmpty t ≠ [] := by
  rw [bothIfEmpty]
  split_ifs with hempty
  · decide
  · simpa using hempty

/-- A target that is not offered comes back as none, which is both. -/
theorem bothIfEmpty_activeId_iff (t : Text) :
    bothIfEmpty (activeId (StartupColorTarget.all.map StartupColorTarget.id) (bothIfEmpty t)) =
        bothIfEmpty t ↔
      bothIfEmpty t ∈ StartupColorTarget.all.map StartupColorTarget.id := by
  rw [activeId]
  split_ifs with hmem
  · exact iff_of_true (bothIfEmpty_eq_self (bothIfEmpty_ne_nil t)) hmem
  · refine iff_of_false (fun heq => hmem ?_) hmem
    rw [← heq]
    decide

/-- The widgets keep the colour and the target exactly when both are offered. -/
theorem reread_eq_iff (e : LaunchEntry) :
    { reread e with colorTarget := bothIfEmpty (reread e).colorTarget } =
      ({ e with colorTarget := bothIfEmpty e.colorTarget } : LaunchEntry) ↔ Offered e := by
  have hcolor : activeId (StartupColor.all.map StartupColor.id) e.color = e.color ↔
      e.color ∈ StartupColor.all.map StartupColor.id :=
    activeId_eq_self_iff fun _ => by decide
  rw [LaunchEntry.mk.injEq, Offered, ← hcolor, ← bothIfEmpty_activeId_iff]
  constructor
  · rintro ⟨-, -, -, -, -, -, hc, ht⟩
    exact ⟨hc, ht⟩
  · rintro ⟨hc, ht⟩
    exact ⟨rfl, rfl, rfl, rfl, rfl, rfl, hc, ht⟩

/-- The rows of entries are written as the entries that are read again. -/
theorem startupSaveEntries_created {entries : List LaunchEntry} (h : InPreOrder entries) :
    startupSaveEntries (entries.map startupCreateRow) = entries.map reread := by
  rw [startupSaveEntries_eq h.rows_nonempty, List.map_map]
  apply List.map_congr_left
  intro e he
  rw [Function.comp_apply, entryOf, reread, LaunchEntry.mk.injEq]
  exact ⟨rfl, h.promote_eq he, rfl, rfl, rfl, rfl, getD_find?_id _ _ _, getD_find?_id _ _ _⟩

/-! ### One edit -/

/-- The fields that are texts. -/
def FieldEdit.IsText : FieldEdit → Prop
  | .name _ | .directory _ | .command _ => True
  | .icon _ | .color _ | .colorTarget _ => False

/-- The entry with another text. -/
def editEntry (e : LaunchEntry) : FieldEdit → LaunchEntry
  | .name text => { e with name := text }
  | .directory text => { e with directory := text }
  | .command text => { e with command := text }
  | _ => e

/-- The array with another text in one entry. -/
def editedEntries (entries : List LaunchEntry) (id : Text) (field : FieldEdit) : List LaunchEntry :=
  entries.map fun e => if e.id = id then editEntry e field else e

/-- Only the field of the entry changes; no target is as good as both. -/
def KeepsOthers (uuid : ℕ → Text) (entries : List LaunchEntry) (id : Text) (field : FieldEdit) :
    Prop :=
  ∃ s s', startupLoadEntries uuid entries = some s ∧ s.step (.edit id field) = some s' ∧
    s'.defaultLaunchEntries.map (fun e => { e with colorTarget := bothIfEmpty e.colorTarget }) =
      (editedEntries entries id field).map fun e =>
        { e with colorTarget := bothIfEmpty e.colorTarget }

section Edit

variable {entries : List LaunchEntry} {field : FieldEdit}

/-- Editing a text keeps the line. -/
theorem entryLine_edit (e : LaunchEntry) (id : Text) (field : FieldEdit) :
    entryLine (if e.id = id then editEntry e field else e) = entryLine e := by
  split_ifs
  · cases field <;> rfl
  · rfl

/-- And what the combo boxes offer. -/
theorem offered_edit_iff (e : LaunchEntry) (id : Text) (field : FieldEdit) :
    Offered (if e.id = id then editEntry e field else e) ↔ Offered e := by
  split_ifs
  · cases field <;> exact Iff.rfl
  · exact Iff.rfl

/-- Edited entries are in pre-order. -/
theorem InPreOrder.edited (h : InPreOrder entries) (id : Text) (field : FieldEdit) :
    InPreOrder (editedEntries entries id field) := by
  constructor
  · intro e he
    obtain ⟨e', he', rfl⟩ := List.mem_map.mp he
    have hkey := congrArg Line.key (entryLine_edit e' id field)
    rw [entryLine, entryLine] at hkey
    simp only at hkey
    rw [hkey]
    exact h.nonempty e' he'
  · rw [editedEntries, List.map_map]
    have hlines : entries.map (entryLine ∘ fun e => if e.id = id then editEntry e field else e) =
        entries.map entryLine := List.map_congr_left fun e _ => entryLine_edit e id field
    rw [hlines]
    exact h.preOrder

/-- The row of an edited entry is the edited row. -/
theorem editField_created (htext : field.IsText) (e : LaunchEntry) :
    editField (startupCreateRow e) field = startupCreateRow (editEntry e field) := by
  cases field with
  | name | directory | command => rfl
  | icon | color | colorTarget => exact absurd htext id

/-- The row is edited, and everything is written. -/
theorem step_edit (h : InPreOrder entries) {e : LaunchEntry} (he : e ∈ entries)
    (htext : field.IsText) :
    Editor.step ⟨entries.map startupCreateRow, entries⟩ (.edit e.id field) =
      some ⟨(editedEntries entries e.id field).map startupCreateRow,
        (editedEntries entries e.id field).map reread⟩ := by
  obtain ⟨A, Z, rfl⟩ := List.append_of_mem he
  let s : Editor := ⟨(A ++ e :: Z).map startupCreateRow, A ++ e :: Z⟩
  have hrows : s.rows = A.map startupCreateRow ++ startupCreateRow e :: Z.map startupCreateRow := by
    rw [← List.map_cons, ← List.map_append]
  have hnodup := h.tree.nodup
  rw [InPreOrder.map_id, List.map_append, List.map_cons, List.nodup_append, List.nodup_cons]
    at hnodup
  -- the other entries have other ids
  have hother : ∀ X : List LaunchEntry, (∀ x ∈ X, x.id ≠ e.id) →
      X.map (fun x => if x.id = e.id then editEntry x field else x) = X := by
    intro X hX
    conv_rhs => rw [← List.map_id X]
    exact List.map_congr_left fun x hx => if_neg (hX x hx)
  have hedited : editedEntries (A ++ e :: Z) e.id field = A ++ editEntry e field :: Z := by
    rw [editedEntries, List.map_append, List.map_cons, if_pos rfl, hother A, hother Z]
    · intro x hx heq
      exact hnodup.2.1.1 (heq ▸ List.mem_map_of_mem hx)
    · intro x hx heq
      exact hnodup.2.2 _ (List.mem_map_of_mem hx) e.id List.mem_cons_self heq
  have hset : s.rows.set (A.map startupCreateRow).length (editField (startupCreateRow e) field) =
      (editedEntries (A ++ e :: Z) e.id field).map startupCreateRow := by
    rw [hrows, List.set_append_right _ _ le_rfl, Nat.sub_self, List.set_cons_zero, hedited,
      editField_created htext, List.map_append, List.map_cons]
  have hstep := onRow_eq (s := s) h.tree hrows fun idx row =>
    some { s with rows := s.rows.set idx (editField row field) }.save
  refine hstep.trans ?_
  rw [hset, Editor.save]
  simp only
  rw [startupSaveEntries_created (h.edited e.id field)]

/-- **A text edit changes its field only, exactly when the combo boxes offer every stored colour and
every stored target.** -/
theorem keepsOthers_iff (h : InPreOrder entries) (uuid : ℕ → Text) {id : Text}
    (hid : id ∈ entries.map LaunchEntry.id) (htext : field.IsText) :
    KeepsOthers uuid entries id field ↔ ∀ e ∈ entries, Offered e := by
  obtain ⟨e, he, rfl⟩ := List.mem_map.mp hid
  have hstep := step_edit h he htext
  have hwritten : KeepsOthers uuid entries e.id field ↔
      ∀ x ∈ editedEntries entries e.id field, Offered x := by
    rw [KeepsOthers, h.load]
    constructor
    · rintro ⟨s, s', hs, hs', hsame⟩
      obtain rfl := Option.some.inj hs
      obtain rfl := Option.some.inj (hstep.symm.trans hs')
      rw [List.map_map, List.map_inj_left] at hsame
      exact fun x hx => (reread_eq_iff x).mp (hsame x hx)
    · intro hall
      refine ⟨_, _, rfl, hstep, ?_⟩
      rw [List.map_map]
      exact List.map_congr_left fun x hx => (reread_eq_iff x).mpr (hall x hx)
  rw [hwritten, editedEntries, List.forall_mem_map]
  exact forall₂_congr fun x _ => offered_edit_iff x e.id field

/-- A coloured root and its child. -/
def colouredRoot : List LaunchEntry :=
  [{ id := "a".toList, color := "red".toList, colorTarget := "icon".toList },
    { id := "b".toList, parentId := "a".toList }]

theorem colouredRoot_kept :
    KeepsOthers (fun _ => []) colouredRoot "b".toList (.name "build".toList) := by
  have hpre : InPreOrder colouredRoot :=
    ⟨by decide, .node "a".toList (.node "b".toList .nil .nil) .nil, by decide, rfl⟩
  have htext : FieldEdit.IsText (.name "build".toList) := trivial
  exact (keepsOthers_iff hpre _ (by decide) htext).mpr (by decide)

/-- A colour that the schema allows, in hexadecimal, is gone when the name of the other entry is
edited. -/
def hexColour : List LaunchEntry :=
  [{ id := "a".toList, color := "#ff0000".toList }, { id := "b".toList }]

/-- One that is not in the list is lost. -/
theorem hexColour_lost :
    InPreOrder hexColour ∧
      (startupLoadEntries (fun _ => []) hexColour).bind
          (·.step (.edit "b".toList (.name "x".toList))) =
        some ⟨[{ id := "a".toList, colorCombo := none }, { id := "b".toList, nameEntry := "x".toList }],
          [{ id := "a".toList, colorTarget := "both".toList },
            { id := "b".toList, name := "x".toList, colorTarget := "both".toList }]⟩ ∧
      ¬ KeepsOthers (fun _ => []) hexColour "b".toList (.name "x".toList) := by
  have hpre : InPreOrder hexColour :=
    ⟨by decide, .node "a".toList .nil (.node "b".toList .nil .nil), by decide, rfl⟩
  have hrun : (startupLoadEntries (fun _ => []) hexColour).bind
      (·.step (.edit "b".toList (.name "x".toList))) =
        some ⟨[{ id := "a".toList, colorCombo := none }, { id := "b".toList, nameEntry := "x".toList }],
          [{ id := "a".toList, colorTarget := "both".toList },
            { id := "b".toList, name := "x".toList, colorTarget := "both".toList }]⟩ := by decide
  refine ⟨hpre, hrun, ?_⟩
  rintro ⟨s, s', hs, hs', hsame⟩
  rw [hs, Option.bind_some, hs'] at hrun
  obtain rfl := Option.some.inj hrun
  exact absurd hsame (by decide)

end Edit

end Axan.LinuxStartup
