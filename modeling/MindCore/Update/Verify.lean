import MindCore.Libmind.Parse

/-!
# The version of a boot manifest

The bootloader reads the `version` line of a manifest by its fields (`verify.rs`), the updater by the
line's start (`plan::manifest_version`). In a manifest of the release format the updater never reads a
higher version than the bootloader does; in other signed texts it can.
-/

namespace MindCore.Update

open List
open MindCore.Release

def field (line : Bytes) (index : Nat) : Option Bytes := (line.splitOn blank)[index]?

/-- `str::parse::<u64>`: decimal digits after an optional plus sign. -/
def parseU64 (text : Bytes) : Option Nat :=
  let number := if text.head? = some 0x2b then text.tail else text
  if number = [] ∨ number.all digit = false then none else number.foldlM decimalStep 0

def manifestLines (text : Bytes) : List Bytes := (text.splitOn newline).filter (· ≠ [])

def versionKey : Bytes := ascii "version"

/-- The version the bootloader reads, 0 without one. -/
def version (text : Bytes) : Nat :=
  let line := ((manifestLines text).takeWhile fun l => field l 0 ≠ some fileKey).find?
    fun l => field l 0 = some versionKey
  ((line.bind fun l => field l 1).bind parseU64).getD 0

/-- The version the updater reads, 0 without one. -/
def manifestVersion (text : Bytes) : Nat :=
  let line := ((text.splitOn newline).takeWhile fun l => !isFile l).find?
    fun l => (ascii "version ").isPrefixOf l
  ((line.map fun l => l.drop 8).bind parseU64).getD 0

/-! ### In the release format -/

theorem fields_cases (line : Bytes) : line.splitOn blank = [line] ∨
      ∃ key rest, line = key ++ blank :: rest ∧ line.splitOn blank = key :: rest.splitOn blank := by
  by_cases hb : blank ∈ line
  · obtain ⟨key, rest, rfl, hk⟩ := eq_append_cons_of_mem hb
    refine .inr ⟨key, rest, rfl, ?_⟩
    rw [List.splitOn, splitOnP_append_cons _ _ (by simp), ← List.splitOn, ← List.splitOn,
      splitOn_eq_singleton hk]
    rfl
  · exact .inl (splitOn_eq_singleton hb)

theorem splitOn_version (rest : Bytes) :
    (ascii "version " ++ rest).splitOn blank = versionKey :: rest.splitOn blank := by
  rfl

theorem headerForm_parted {line : Bytes} (h : headerForm line = true) :
    ∃ key rest, line = key ++ blank :: rest ∧ line.splitOn blank = key :: rest.splitOn blank := by
  rcases fields_cases line with hone | hmore
  · rw [headerForm, hone] at h
    simp at h
  · exact hmore

section Lines
variable {line : Bytes}

theorem header_not_file (h : isHeader line = true) : field line 0 ≠ some fileKey := by
  rw [isHeader, Bool.and_eq_true] at h
  obtain ⟨key, rest, hline, hsplit⟩ := headerForm_parted h.2
  rw [field, hsplit]
  intro hk
  have hkey : key = fileKey := Option.some.inj hk
  have hfile : isFile line = true := by
    rw [hline, hkey]
    exact isPrefixOf_iff_prefix.mpr ⟨rest, rfl⟩
  rw [hfile] at h
  cases h.1

theorem header_version (h : isHeader line = true) :
    field line 0 = some versionKey ↔ (ascii "version ").isPrefixOf line = true := by
  rw [isHeader, Bool.and_eq_true] at h
  obtain ⟨key, rest, hline, hsplit⟩ := headerForm_parted h.2
  constructor
  · intro hk
    rw [field, hsplit] at hk
    have hkey : key = versionKey := Option.some.inj hk
    rw [hline, hkey]
    exact isPrefixOf_iff_prefix.mpr ⟨rest, rfl⟩
  · intro hp
    obtain ⟨tail, rfl⟩ := isPrefixOf_iff_prefix.mp hp
    rfl

theorem header_ne_nil (h : isHeader line = true) : line ≠ [] := by
  rintro rfl
  revert h
  decide

theorem file_field (h : (parseFile line).isSome = true) : field line 0 = some fileKey := by
  unfold parseFile at h
  split at h
  · rename_i key path size digest flags mib hsplit
    split at h
    · cases h
    · rename_i hc
      rw [not_or, not_not] at hc
      rw [field, hsplit, hc.1]
      rfl
  · cases h

end Lines

variable {text : Bytes} {m : Manifest}

theorem not_digit_of_blank (h : blank ∈ text) : parseU64 text = none := by
  have hall : ∀ t : Bytes, blank ∈ t → t.all digit = false := by
    intro t ht
    rw [Bool.eq_false_iff]
    intro ha
    exact not_mem_of_all ha (by decide) ht
  rw [parseU64]
  split
  · rename_i hp
    have htail : blank ∈ text.tail := by
      obtain ⟨t, rfl⟩ := head?_eq_some_iff.mp hp
      exact (mem_cons.mp h).resolve_left (by decide)
    rw [if_pos (.inr (hall _ htail))]
  · rw [if_pos (.inr (hall _ h))]

theorem rest_le_field (rest : Bytes) : ((some rest).bind parseU64).getD 0 ≤
      ((field (ascii "version " ++ rest) 1).bind parseU64).getD 0 := by
  rw [field, splitOn_version]
  by_cases hb : blank ∈ rest
  · rw [Option.bind_some, not_digit_of_blank hb]
    exact Nat.zero_le _
  · rw [splitOn_eq_singleton hb]
    exact Nat.le_refl _

variable {ls : List Bytes} {p : Bytes → Bool} {n : Nat}

theorem find_eq {q : Bytes → Bool} (h : ∀ l ∈ ls, p l = q l) : ls.find? p = ls.find? q := by
  induction ls with
  | nil => rfl
  | cons l rest ih =>
    rw [find?_cons, find?_cons, h l mem_cons_self,
      ih fun l' hl => h l' (mem_cons_of_mem _ hl)]

theorem takeWhile_heads {hs fs : List Bytes} (hh : ∀ l ∈ hs, p l = true)
    (hf : ∀ l ∈ fs, p l = false) : (hs ++ fs).takeWhile p = hs := by
  rw [takeWhile_append_of_pos hh]
  cases fs with
  | nil => rw [takeWhile_nil, append_nil]
  | cons l rest =>
    rw [takeWhile_cons_of_neg (by rw [hf l mem_cons_self]; simp), append_nil]

theorem filterMap_range {α β : Type} (l : List α) (g : α → Option β) :
    (List.range l.length).filterMap (fun i => l[i]?.bind g) = l.filterMap g := by
  have hmap : (List.range l.length).map (fun i => l[i]?) = l.map some := by
    refine ext_getElem (by simp) ?_
    intro i h₁ h₂
    simp
  have hcomp : (List.range l.length).filterMap (fun i => l[i]?.bind g) =
      ((List.range l.length).map fun i => l[i]?).filterMap fun x => x.bind g := by
    rw [filterMap_map]
    rfl
  rw [hcomp, hmap, filterMap_map]
  rfl

theorem parse_files (h : Manifest.parse text = some m) :
    ∃ hs fs, text.splitOn newline = hs ++ fs ++ [[]] ∧ Heads hs ∧ FileLines none fs ∧
      (List.range m.files).filterMap m.file = fs.filterMap parseFile := by
  unfold Manifest.parse at h
  split at h
  · cases h
  · rename_i hc
    rw [not_or, not_not] at hc
    obtain ⟨s, hs, h⟩ := Option.bind_eq_some_iff.mp h
    cases h
    obtain ⟨heads, files, heq, hheads, hfiles, ha, hb⟩ :=
      (foldlM_lines (splitOn_ne_nil _ _)).mp ⟨s, hs, rfl, rfl⟩
    refine ⟨heads, files, ?_, hheads, hfiles, ?_⟩
    · obtain ⟨body, rfl⟩ := getLast?_eq_some_iff.mp hc.2
      rw [← heq, dropLast_concat, List.splitOn, splitOnP_append_cons _ _ (by simp)]
      rfl
    · rw [← filterMap_range files parseFile, ← hb]
      refine filterMap_congr ?_
      intro i hi
      rw [Manifest.file]
      dsimp only
      rw [if_pos (mem_range.mp hi), lines, heq, ha, getElem?_append_right (by omega),
        Nat.add_sub_cancel_left]

theorem parse_lines (h : Manifest.parse text = some m) :
    ∃ hs fs, text.splitOn newline = hs ++ fs ++ [[]] ∧ Heads hs ∧ FileLines none fs := by
  obtain ⟨hs, fs, htext, hheads, hfiles, -⟩ := parse_files h
  exact ⟨hs, fs, htext, hheads, hfiles⟩

section Format
variable {hs fs : List Bytes}

theorem heads_version (hh : Heads hs) : ∀ l ∈ hs, isFile l = false ∧ l ≠ [] ∧ field l 0 ≠ some fileKey ∧
    (field l 0 = some versionKey ↔ (ascii "version ").isPrefixOf l = true) := by
  intro l hl
  obtain ⟨rest, rfl⟩ := head?_eq_some_iff.mp hh.first
  rcases mem_cons.mp hl with rfl | hl
  · decide
  · have hform := hh.form l hl
    refine ⟨?_, header_ne_nil hform, header_not_file hform, header_version hform⟩
    rw [isHeader, Bool.and_eq_true, Bool.not_eq_true'] at hform
    exact hform.1

theorem manifestLines_eq
    (ht : text.splitOn newline = hs ++ fs ++ [[]]) (hh : Heads hs) (hf : FileLines none fs) :
    manifestLines text = hs ++ fs := by
  have hall : ∀ l ∈ hs ++ fs, (decide (l ≠ [])) = true := by
    intro l hl
    rw [decide_eq_true_eq]
    rcases mem_append.mp hl with hl | hl
    · exact (heads_version hh l hl).2.1
    · rintro rfl
      exact absurd (hf.form [] hl).1 (by decide)
  have hlast : ([[]] : List Bytes).filter (· ≠ []) = [] := by decide
  rw [manifestLines, ht, filter_append, filter_eq_self.mpr hall, hlast, append_nil]

theorem bootloader_lines (hh : Heads hs) (hf : FileLines none fs) :
    ((hs ++ fs).takeWhile fun l => field l 0 ≠ some fileKey) = hs := by
  refine takeWhile_heads ?_ ?_
  · intro l hl
    exact decide_eq_true (heads_version hh l hl).2.2.1
  · intro l hl
    exact decide_eq_false (not_not.mpr (file_field (hf.form l hl).2))

theorem updater_find (hh : Heads hs) (hf : FileLines none fs) :
    ((hs ++ fs ++ [[]]).takeWhile fun l => !isFile l).find? (fun l => (ascii "version ").isPrefixOf l) =
      hs.find? fun l => (ascii "version ").isPrefixOf l := by
  have hheads : ∀ l ∈ hs, (!isFile l) = true := by
    intro l hl
    rw [(heads_version hh l hl).1]
    rfl
  cases fs with
  | nil =>
    rw [append_nil, takeWhile_append_of_pos hheads]
    have hnil : (([[]] : List Bytes).takeWhile fun l => !isFile l) = [[]] := by decide
    rw [hnil, find?_append]
    have hnone : ([[]] : List Bytes).find? (fun l => (ascii "version ").isPrefixOf l) = none := by decide
    rw [hnone, Option.or_none]
  | cons f rest =>
    have hfile := (hf.form f mem_cons_self).1
    rw [append_assoc, takeWhile_append_of_pos hheads, cons_append,
      takeWhile_cons_of_neg (by rw [hfile]; simp), append_nil]

end Format

theorem manifestVersion_le (h : Manifest.parse text = some m) : manifestVersion text ≤ version text := by
  obtain ⟨hs, fs, htext, hheads, hfiles⟩ := parse_lines h
  have hfind : hs.find? (fun l => field l 0 = some versionKey) =
      hs.find? fun l => (ascii "version ").isPrefixOf l := by
    refine find_eq ?_
    intro l hl
    rw [Bool.eq_iff_iff, decide_eq_true_eq]
    exact (heads_version hheads l hl).2.2.2
  rw [manifestVersion, version, manifestLines_eq htext hheads hfiles, htext]
  rw [bootloader_lines hheads hfiles, updater_find hheads hfiles, hfind]
  cases hl : hs.find? fun l => (ascii "version ").isPrefixOf l with
  | none => exact Nat.le_refl _
  | some l =>
    have hp : (ascii "version ").isPrefixOf l = true := find?_some hl
    obtain ⟨rest, rfl⟩ := isPrefixOf_iff_prefix.mp hp
    exact rest_le_field rest

/-! ### Every version is named by some manifest -/

/-- The files no slot is without. -/
def bootLines : List Bytes := [lineOf "init.elf", kernelLine]

theorem bootLines_form : FileLines none bootLines where
  form := by decide +kernel
  order := ⟨nofun, by rintro q ⟨⟩; decide +kernel, trivial⟩

def versionText (n : Nat) : Bytes := unlines ([formatLine, ascii "version " ++ decimalOf n] ++ bootLines)

theorem parseU64_decimalOf (h : n < 2 ^ 64) : parseU64 (decimalOf n) = some n := by
  have hval : value 0 (decimalOf n) = n := value_digitsOf 19 n [] (by omega)
  have hplus : ¬ (decimalOf n).head? = some 0x2b := by
    intro hp
    have hm : (0x2b : UInt8) ∈ decimalOf n := mem_of_head? hp
    exact not_mem_of_all (decimalOf_all n) (by decide) hm
  rw [parseU64, if_neg hplus, if_neg, foldlM_decimalStep (by rw [hval]; exact h), hval]
  rintro (hn | hn)
  · exact decimalOf_ne_nil n hn
  · rw [decimalOf_all] at hn
    cases hn

theorem versionLine_header (n : Nat) : isHeader (ascii "version " ++ decimalOf n) = true := by
  have hlen : (decimalOf n).length ≤ 20 := length_digitsOf 20 n []
  have hform : (decimalOf n).all (fun b => b == blank || graphic b) = true := by
    rw [all_eq_true]
    intro b hb
    have hd : ∀ b : UInt8, digit b = true → (b == blank || graphic b) = true :=
      forall_byte (by decide +kernel)
    exact hd b (all_eq_true.mp (decimalOf_all n) b hb)
  have hlead : (ascii "version ").length = 8 := by decide
  have hkey : versionKey.length = 7 := by decide
  have hfile : isFile (ascii "version " ++ decimalOf n) = false := rfl
  have hhead : (ascii "version ").all (fun b => b == blank || graphic b) = true := by decide
  have hword : versionKey.all wordByte = true := by decide
  have hne : versionKey ≠ [] := by decide
  rw [isHeader, hfile, headerForm, splitOn_version]
  simp only [headD_cons, length_append, all_append, hlead, hkey, hform, hhead, hword,
    headerMax, Bool.not_false, Bool.true_and, Bool.and_true, Bool.and_eq_true, decide_eq_true_eq]
  exact ⟨⟨by omega, decide_eq_true hne⟩, by omega⟩

theorem splitOn_unlines (hne : ls ≠ []) (hno : ∀ l ∈ ls, newline ∉ l) :
    (unlines ls).splitOn newline = ls ++ [[]] := by
  rw [unlines_eq hne, List.splitOn, splitOnP_append_cons _ _ (by simp), ← List.splitOn,
    splitOn_intercalate newline hno hne]
  rfl

theorem version_versionText (h : n < 2 ^ 64) : version (versionText n) = n := by
  have hheads : Heads [formatLine, ascii "version " ++ decimalOf n] := by
    refine ⟨rfl, ?_, by rw [headersMax]; simp⟩
    intro l hl
    rw [tail_cons, mem_singleton] at hl
    rw [hl]
    exact versionLine_header n
  have hno : ∀ l ∈ [formatLine, ascii "version " ++ decimalOf n] ++ bootLines, newline ∉ l := by
    intro l hl
    rcases mem_cons.mp hl with rfl | hl
    · decide
    rcases mem_cons.mp hl with rfl | hl
    · rw [mem_append, not_or]
      exact ⟨by decide, not_mem_of_all (decimalOf_all n) (by decide)⟩
    · have hboot : ∀ l ∈ bootLines, newline ∉ l := by decide +kernel
      exact hboot l hl
  have hfirst : decide (field formatLine 0 = some versionKey) = false := by decide
  have hsecond : decide (field (ascii "version " ++ decimalOf n) 0 = some versionKey) = true := by
    exact decide_eq_true rfl
  have hvalue : field (ascii "version " ++ decimalOf n) 1 = some (decimalOf n) := by
    rw [field, splitOn_version, splitOn_eq_singleton (not_mem_of_all (decimalOf_all n) (by decide))]
    rfl
  have hfiles := bootLines_form
  have htext : (versionText n).splitOn newline =
      [formatLine, ascii "version " ++ decimalOf n] ++ bootLines ++ [[]] :=
    splitOn_unlines (cons_ne_nil _ _) hno
  rw [version, manifestLines_eq htext hheads hfiles, bootloader_lines hheads hfiles,
    find?_cons_of_neg (by rw [hfirst]; simp), find?_cons, hsecond]
  rw [Option.bind_some, hvalue, Option.bind_some, parseU64_decimalOf h, Option.getD_some]

/-- A `version` line without a value: the bootloader reads no version, the updater the next line's. -/
def twoVersions : Bytes := unlines ([formatLine, versionKey, ascii "version 7"] ++ bootLines)

example : version twoVersions = 0 ∧ manifestVersion twoVersions = 7 := by decide +kernel

end MindCore.Update
