import Axan.RowLabel.Expanders

/-!
# The file variable and valid labels

`${file:path}` puts the first line of a file into a Linux label. At most 128 bytes of the file are
looked at, and they are cut off wherever they end: inside a character too.

* `sidebarReadFileVar` — the value of the variable.
* `CutsWhole` — the files whose 128 bytes do not end inside a character, or not before the line.
* `validUtf8_firstLine_iff` — the value is valid exactly for these files.
* `validUtf8_expand_iff` — a label is valid exactly when all the files it names are such.
-/

namespace Axan.RowLabel

open Axan.Base Axan.Base.Template

/-! ### The variable -/

/-- A leading `~` is the home directory. -/
def resolveFile (homeDir path : ByteString) : ByteString :=
  if path.head? = some (byte '~') && (path.tail.head? = some (byte '/') || path.tail = []) then
    homeDir ++ path.tail
  else path

/-- The contents of the file of a path, if there is a path and such a file. -/
def mappedFile (homeDir : ByteString) (files : ByteString → Option ByteString)
    (path : ByteString) : Option ByteString :=
  if path = [] then none else files (resolveFile homeDir path)

/-- The blanks that are trimmed at the end of the line. -/
def isTrailingBlank (b : ℕ) : Bool := b = byte ' ' || b = byte '\t' || b = byte '\r'

/-- The first line in the first 128 bytes, without blanks at its end; a C string ends at a zero
byte. -/
def firstLine (data : ByteString) : ByteString :=
  let head := data.take 128
  let line := head.takeWhile (· ≠ byte '\n')
  let trimmed := line.rdropWhile isTrailingBlank
  trimmed.takeWhile (· ≠ 0)

/-- Source: `sidebar_read_file_var` -/
def sidebarReadFileVar (homeDir : ByteString) (files : ByteString → Option ByteString)
    (path : ByteString) : ByteString :=
  match mappedFile homeDir files path with
  | none => []
  | some data => firstLine data

/-- The values with the files of a file system. -/
def LabelValues.withFiles (v : LabelValues ℕ) (homeDir : ByteString)
    (files : ByteString → Option ByteString) : LabelValues ℕ :=
  { v with fileLine := sidebarReadFileVar homeDir files }

/-- The first 128 bytes have the end of the line in them, or end between two characters. -/
def CutsWhole (data : ByteString) : Prop :=
  byte '\n' ∈ data.take 128 ∨ 0 ∈ data.take 128 ∨ ValidUtf8 (data.take 128)

/-! ### Its value -/

/-- A text is cut at the first of a byte. -/
theorem takeWhile_ne_append {x : ℕ} {s : ByteString} (h : x ∈ s) :
    ∃ r, s = s.takeWhile (· ≠ x) ++ x :: r := by
  induction s with
  | nil => cases h
  | cons a s ih =>
      by_cases ha : a = x
      · exact ⟨s, by simp [ha]⟩
      · obtain ⟨r, hr⟩ := ih (List.mem_of_ne_of_mem (Ne.symm ha) h)
        refine ⟨r, ?_⟩
        rw [List.takeWhile_cons_of_pos (by simpa using ha), List.cons_append, ← hr]

/-- Without the byte nothing is cut. -/
theorem takeWhile_ne_eq_self {x : ℕ} {s : ByteString} (h : x ∉ s) : s.takeWhile (· ≠ x) = s := by
  refine List.takeWhile_eq_self_iff.mpr fun a ha => decide_eq_true ?_
  rintro rfl
  exact h ha

/-- What stands before an ASCII byte in the beginning of a valid string is valid. -/
theorem validUtf8_takeWhile {data s : ByteString} (hdata : ValidUtf8 data) (hs : s <+: data)
    {x : ℕ} (hx : x < 0x80) (h : x ∈ s) : ValidUtf8 (s.takeWhile (· ≠ x)) := by
  obtain ⟨r, hr⟩ := takeWhile_ne_append h
  obtain ⟨t, rfl⟩ := hs
  rw [hr, List.append_assoc, List.cons_append] at hdata
  exact hdata.of_append_ascii hx

/-- A cut at a NUL keeps the characters whole. -/
theorem validUtf8_takeWhile_zero {s : ByteString} (h : ValidUtf8 s) :
    ValidUtf8 (s.takeWhile (· ≠ 0)) := by
  by_cases hzero : 0 ∈ s
  · exact validUtf8_takeWhile h List.prefix_rfl (by decide) hzero
  · rwa [takeWhile_ne_eq_self hzero]

/-- A blank at the end is ASCII. -/
theorem isTrailingBlank_ascii {b : ℕ} (h : isTrailingBlank b = true) :
    b < 0x80 ∧ ValidUtf8 [b] := by
  unfold isTrailingBlank at h
  simp only [Bool.or_eq_true, decide_eq_true_eq] at h
  obtain (rfl | rfl) | rfl := h
  · exact ⟨by decide, [' '], by decide⟩
  · exact ⟨by decide, ['\t'], by decide⟩
  · exact ⟨by decide, ['\r'], by decide⟩

/-- Trimming neither makes nor breaks a valid string. -/
theorem validUtf8_rdropWhile_iff {s : ByteString} :
    ValidUtf8 (s.rdropWhile isTrailingBlank) ↔ ValidUtf8 s := by
  induction s using List.reverseRecOn with
  | nil => rfl
  | append_singleton s b ih =>
      cases hb : isTrailingBlank b with
      | false => rw [List.rdropWhile_concat_neg _ _ _ (ne_true_of_eq_false hb)]
      | true =>
          obtain ⟨hlt, hvalid⟩ := isTrailingBlank_ascii hb
          rw [List.rdropWhile_concat_pos _ _ _ hb, ih]
          exact ⟨fun h => h.append hvalid, fun h => h.of_append_ascii hlt⟩

/-- The value is valid exactly when the bytes that are looked at are cut off between two
characters, or behind the end of the line. -/
theorem validUtf8_firstLine_iff {data : ByteString} (hdata : ValidUtf8 data) :
    ValidUtf8 (firstLine data) ↔ CutsWhole data := by
  have hpre : data.take 128 <+: data := List.take_prefix _ _
  unfold firstLine CutsWhole
  dsimp only
  by_cases hline : byte '\n' ∈ data.take 128
  · have hvalid := validUtf8_takeWhile hdata hpre (by decide) hline
    exact ⟨fun _ => Or.inl hline,
      fun _ => validUtf8_takeWhile_zero (validUtf8_rdropWhile_iff.mpr hvalid)⟩
  rw [takeWhile_ne_eq_self hline]
  have htrim := List.rdropWhile_prefix isTrailingBlank (data.take 128)
  by_cases hzero : 0 ∈ data.take 128
  · -- a zero byte is never trimmed
    have hkept : 0 ∈ (data.take 128).rdropWhile isTrailingBlank := by
      rw [← List.rdropWhile_append_rtakeWhile (p := isTrailingBlank) (l := data.take 128)] at hzero
      refine (List.mem_append.mp hzero).resolve_right fun h => ?_
      exact absurd (List.mem_rtakeWhile_imp h) (by decide)
    exact ⟨fun _ => Or.inr (Or.inl hzero),
      fun _ => validUtf8_takeWhile hdata (htrim.trans hpre) (by decide) hkept⟩
  rw [takeWhile_ne_eq_self (fun h => hzero (htrim.subset h)), validUtf8_rdropWhile_iff]
  exact ⟨fun h => Or.inr (Or.inr h), fun h => (h.resolve_left hline).resolve_left hzero⟩

/-! ### Labels -/

/-- The first line is the front of the data. -/
theorem firstLine_prefix (data : ByteString) : firstLine data <+: data :=
  ((List.takeWhile_prefix _).trans (List.rdropWhile_prefix _ _)).trans
    ((List.takeWhile_prefix _).trans (List.take_prefix _ _))

/-- The known names have values of the variables. -/
theorem lookupKey_mem {α : Type} [DecidableEq α] {lits : String → List α} {v : LabelValues α}
    {key val : List α} (h : lookupKey lits v key = some val) : ∃ x, v.var x = val := by
  unfold lookupKey at h
  split_ifs at h <;> exact ⟨_, Option.some.inj h⟩

/-- A name stands for something valid. -/
theorem validUtf8_renderBytes_var {v : LabelValues ℕ} (hhome : ValidUtf8 v.home)
    (hvar : ∀ x, ValidUtf8 (v.var x)) (name : List Char) :
    ValidUtf8 (renderBytes v (.var (octets name))) := by
  unfold renderBytes renderWith
  dsimp only
  cases hlookup : sidebarLookupTemplateVar v (octets name) with
  | none => exact ⟨'$' :: name, rfl⟩
  | some val =>
      unfold sidebarLookupTemplateVar at hlookup
      split_ifs at hlookup
      · cases hlookup
        exact hhome
      · obtain ⟨x, rfl⟩ := lookupKey_mem hlookup
        exact hvar x

section labels

variable {v : LabelValues ℕ} {homeDir : ByteString} {files : ByteString → Option ByteString}

/-- A file stands for something valid exactly when its bytes are cut off between characters. -/
theorem validUtf8_sidebarReadFileVar_iff
    (hfiles : ∀ path data, files path = some data → ValidUtf8 data) (path : ByteString) :
    ValidUtf8 (sidebarReadFileVar homeDir files path) ↔
      ∀ data, mappedFile homeDir files path = some data → CutsWhole data := by
  unfold sidebarReadFileVar
  cases hmapped : mappedFile homeDir files path with
  | none => exact ⟨fun _ data h => (by cases h), fun _ => validUtf8_nil⟩
  | some data =>
      have hdata : ValidUtf8 data := by
        unfold mappedFile at hmapped
        split_ifs at hmapped
        exact hfiles _ _ hmapped
      rw [validUtf8_firstLine_iff hdata]
      exact ⟨fun h d hd => Option.some.inj hd ▸ h, fun h => h data rfl⟩

/-- What a piece stands for is the beginning of something valid. -/
theorem exists_prefix_renderBytes (hhome : ValidUtf8 v.home) (hvar : ∀ x, ValidUtf8 (v.var x))
    (hfiles : ∀ path data, files path = some data → ValidUtf8 data) (p : Piece Char) :
    ∃ cs, renderBytes (v.withFiles homeDir files) (p.encode utf8Char) <+: octets cs := by
  cases p with
  | text s => exact ⟨s, List.prefix_rfl⟩
  | file path =>
      change ∃ cs, sidebarReadFileVar homeDir files (octets path) <+: octets cs
      unfold sidebarReadFileVar
      cases hmapped : mappedFile homeDir files (octets path) with
      | none => exact ⟨[], List.prefix_rfl⟩
      | some data =>
          unfold mappedFile at hmapped
          split_ifs at hmapped
          obtain ⟨cs, rfl⟩ := hfiles _ _ hmapped
          exact ⟨cs, firstLine_prefix _⟩
  | home =>
      obtain ⟨cs, hcs⟩ := hhome
      exact ⟨cs, by rw [hcs]; exact List.prefix_rfl⟩
  | var name =>
      obtain ⟨cs, hcs⟩ := validUtf8_renderBytes_var (v := v.withFiles homeDir files) hhome hvar name
      exact ⟨cs, by rw [hcs]; exact List.prefix_rfl⟩

/-- A label is valid exactly when every file the template names is cut off between two characters,
or behind the end of its first line. -/
theorem validUtf8_expand_iff (hhome : ValidUtf8 v.home) (hvar : ∀ x, ValidUtf8 (v.var x))
    (hfiles : ∀ path data, files path = some data → ValidUtf8 data) (tmpl : List Char) :
    ValidUtf8 (sidebarExpandNameTemplate (v.withFiles homeDir files) (some (octets tmpl))) ↔
      ∀ path, Piece.file path ∈ pieces chars tmpl →
        ∀ data, mappedFile homeDir files (octets path) = some data → CutsWhole data := by
  have hflat : sidebarExpandNameTemplate (v.withFiles homeDir files) (some (octets tmpl)) =
      ((pieces chars tmpl).map fun p =>
        renderBytes (v.withFiles homeDir files) (p.encode utf8Char)).flatten := by
    rw [sidebarExpandNameTemplate_eq, ← List.flatMap_def]
    exact flatMap_pieces_encode utf8_encoding (fun _ => rfl) tmpl
  rw [hflat, valid_flatten_iff, List.forall_mem_map]
  · constructor
    · intro h path hpath
      exact (validUtf8_sidebarReadFileVar_iff hfiles (octets path)).mp (h _ hpath)
    · intro h p hp
      cases p with
      | text s => exact ⟨s, rfl⟩
      | file path =>
          exact (validUtf8_sidebarReadFileVar_iff hfiles (octets path)).mpr (h path hp)
      | home => exact hhome
      | var name => exact validUtf8_renderBytes_var (v := v.withFiles homeDir files) hhome hvar name
  · intro b hb
    obtain ⟨p, -, rfl⟩ := List.mem_map.mp hb
    exact exists_prefix_renderBytes hhome hvar hfiles p

end labels

/-- A file of 127 letters and a letter of two bytes. -/
def longLineFiles (path : ByteString) : Option ByteString :=
  if path = B "x" then some (octets (List.replicate 127 'a' ++ ['é'])) else none

/-- The file of the witness is valid UTF-8. -/
theorem validUtf8_longLineFiles (path data : ByteString) (h : longLineFiles path = some data) :
    ValidUtf8 data := by
  unfold longLineFiles at h
  split_ifs at h
  exact ⟨_, Option.some.inj h⟩

theorem validUtf8_expand_iff_sample :
    ValidUtf8 (sidebarExpandNameTemplate ((sampleValues B).withFiles (B "/home/me") longLineFiles)
        (some (octets "$dir $\x7bfile:x\x7d".toList))) ↔
      ∀ path, Piece.file path ∈ pieces chars "$dir $\x7bfile:x\x7d".toList →
        ∀ data, mappedFile (B "/home/me") longLineFiles (octets path) = some data →
          CutsWhole data :=
  validUtf8_expand_iff ⟨_, rfl⟩ (fun _ => ⟨_, rfl⟩) validUtf8_longLineFiles _

/-- The label `${file:x}` ends in the first of the two bytes. -/
theorem not_validUtf8_expand :
    ¬ ValidUtf8 (sidebarExpandNameTemplate
      ((sampleValues B).withFiles (B "/home/me") longLineFiles)
      (some (octets "$\x7bfile:x\x7d".toList))) := by
  have hlabel : sidebarExpandNameTemplate
      ((sampleValues B).withFiles (B "/home/me") longLineFiles)
      (some (octets "$\x7bfile:x\x7d".toList)) = octets (List.replicate 127 'a') ++ [0xC3] := by
    decide +kernel
  rw [hlabel]
  intro h
  exact absurd (h.of_octets _).announced_le (by decide)

end Axan.RowLabel
