import MindCore.Libmind.ReleaseChannel

/-!
# What the updater takes from the parser service

`read_channel` and `read_manifest` (`parse.rs`) over every sequence of answers of the service. What is
taken makes exactly the bytes; it is what `parse_channel` and `Manifest::parse` find there exactly
when the answered fields have their form and the answered header lines are header lines.
-/

namespace MindCore.Release

open List

/-! ### The answers -/

def pageMax : Nat := 8

structure RefRecord where
  arch : Bytes
  digest : Bytes

structure ChannelRecord where
  name : Bytes
  version : UInt64
  minimum : UInt64
  expires : Bytes
  manifests : List RefRecord
  signed : UInt32
  signature : Bytes

structure FileRecord where
  path : Bytes
  size : UInt64
  digest : Bytes
  flags : UInt32
  mib : UInt32

structure Page where
  headers : List Bytes
  files : UInt32
  page : List FileRecord

inductive Answer (α : Type) where
  | record (a : α)
  | malformed
  | service

inductive Refused where
  | service
  | malformed
  | lied
  deriving DecidableEq

def refFrom (m : RefRecord) : Option (Text archMax × Fixed 32) := do
  return (← Text.new m.arch, ← fixed 32 m.digest)

def channelFrom (r : ChannelRecord) : Option (Channel × Signed) := do
  let manifests ← r.manifests.mapM refFrom
  let name ← Text.new r.name
  let expires ← fixed 20 r.expires
  let signature ← fixed 64 r.signature
  return ({ name, version := r.version, minimum := r.minimum, expires, manifests },
    { body := r.signed.toNat, signature })

def fileFrom (r : FileRecord) : Option File := do
  let path ← Text.new r.path
  let digest ← fixed 32 r.digest
  return { path, size := r.size, digest, flags := r.flags, mib := r.mib }

def readChannel (file : Bytes) : Answer ChannelRecord → Except Refused (Channel × Signed)
  | .service => .error .service
  | .malformed => .error .malformed
  | .record r =>
    match channelFrom r with
    | none => .error .lied
    | some (channel, signed) =>
      if channelIs file channel signed then .ok (channel, signed) else .error .lied

def Rebuild.lines : Rebuild → List Bytes → Bool × Rebuild
  | r, [] => (true, r)
  | r, line :: rest =>
    match r.line line with
    | (true, r) => r.lines rest
    | (false, r) => (false, r)

/-- The files of a page, handed on one by one; none when one is not taken. -/
def Rebuild.files : Rebuild → List FileRecord → Option (Rebuild × List File)
  | r, [] => some (r, [])
  | r, record :: rest => do
    let file ← fileFrom record
    match r.file file with
    | (true, r) =>
      let (r, files) ← r.files rest
      return (r, file :: files)
    | (false, _) => none

/-- The loop of `read_manifest` over the answers that come: the header lines counted, the number of
files the first answer gave, the next file asked for and those handed on. -/
def readPages (r : Rebuild) (headers : Nat) (total : Option Nat) (start : Nat) (handed : List File) :
    List (Answer Page) → Except Refused ((Nat × Nat) × List File)
  | [] => .error .service
  | .service :: _ => .error .service
  | .malformed :: _ => .error .malformed
  | .record page :: rest =>
    let total := total.getD page.files.toNat
    let expected := min (total - start) pageMax
    if page.files.toNat ≠ total ∨ page.page.length ≠ expected then .error .lied
    else
      let headers := if start = 0 then page.headers.length else headers
      match if start = 0 then r.lines page.headers else (true, r) with
      | (false, _) => .error .lied
      | (true, r) =>
        match r.files page.page with
        | none => .error .lied
        | some (r, files) =>
          if expected < pageMax ∨ start + expected = total then
            if r.done then .ok ((headers, total), handed ++ files) else .error .lied
          else readPages r headers (some total) (start + expected) (handed ++ files) rest

def readManifest (text : Bytes) (answers : List (Answer Page)) : Except Refused ((Nat × Nat) × List File) :=
  readPages (Rebuild.new text) 0 none 0 [] answers

/-! ### The text is rebuilt -/

def unlines (ls : List Bytes) : Bytes := ls.flatMap (· ++ [newline])

@[simp] theorem unlines_append (ls ls' : List Bytes) : unlines (ls ++ ls') = unlines ls ++ unlines ls' :=
  flatMap_append

structure Rebuilt (text : Bytes) (ls : List Bytes) (r : Rebuild) : Prop where
  same : r.text = text
  whole : r.broken = false
  start : text.take r.pos = unlines ls
  within : r.pos ≤ text.length

def Encodes (files : List File) (ls : List Bytes) : Prop :=
  files.map (fun f => encodeFile f fileLineMax) = ls.map some

variable {more headers : List Bytes} {answers : List (Answer Page)} {k : Nat}

section Rebuilding
variable {text : Bytes} {ls : List Bytes} {r r' : Rebuild}

theorem Rebuilt.line (h : Rebuilt text ls r) {l : Bytes} (hl : r.line l = (true, r')) :
    Rebuilt text (ls ++ [l]) r' := by
  unfold Rebuild.line at hl
  dsimp only at hl
  split at hl
  · cases hl
  · rename_i hc
    simp only [not_or, not_not] at hc
    obtain ⟨-, -, hslice, hnl⟩ := hc
    cases hl
    rw [h.same] at hslice hnl
    obtain ⟨hlt, hat⟩ := List.getElem?_eq_some_iff.mp hnl
    refine ⟨h.same, h.whole, ?_, hlt⟩
    have hfirst : text.take (r.pos + l.length) = unlines ls ++ l := by
      rw [Bytes.slice, Nat.add_sub_cancel_left] at hslice
      rw [take_add, h.start, hslice]
    rw [take_add_one, hfirst, hnl, unlines_append, append_assoc]
    simp [unlines]

theorem Rebuilt.lines (h : Rebuilt text ls r) (hl : r.lines more = (true, r')) :
    Rebuilt text (ls ++ more) r' := by
  induction more generalizing ls r with
  | nil =>
    cases hl
    rwa [append_nil]
  | cons l rest ih =>
    rw [Rebuild.lines] at hl
    split at hl
    · rename_i r1 hline
      have h1 := ih (h.line hline) hl
      rwa [append_assoc] at h1
    · cases hl

theorem Rebuilt.files (h : Rebuilt text ls r) {records : List FileRecord} {files : List File}
    (hf : r.files records = some (r', files)) :
    files.length = records.length ∧ ∃ more, Encodes files more ∧ Rebuilt text (ls ++ more) r' := by
  induction records generalizing ls r files with
  | nil =>
    cases hf
    exact ⟨rfl, [], rfl, by rwa [append_nil]⟩
  | cons record rest ih =>
    obtain ⟨file, -, hf⟩ := Option.bind_eq_some_iff.mp hf
    split at hf
    · rename_i r1 hfile
      obtain ⟨⟨r2, files'⟩, hrest, hf⟩ := Option.bind_eq_some_iff.mp hf
      cases hf
      unfold Rebuild.file at hfile
      split at hfile
      · rename_i line henc
        obtain ⟨hlen, more, hmore, h2⟩ := ih (h.line hfile) hrest
        rw [append_assoc] at h2
        refine ⟨by simp [hlen], line :: more, ?_, h2⟩
        rw [Encodes, map_cons, map_cons, henc, hmore]
      · cases hfile
    · cases hf

theorem Rebuilt.done (h : Rebuilt text ls r) (hd : r.done = true) : text = unlines ls := by
  simp only [Rebuild.done, h.whole, h.same, Bool.not_false, Bool.true_and, beq_iff_eq] at hd
  rw [← h.start, hd, take_length]

end Rebuilding

def answeredHeaders : List (Answer Page) → List Bytes
  | .record page :: _ => page.headers
  | _ => []

theorem readPages_rebuilt {text : Bytes} {r : Rebuild}
    {headers start n : Nat} {total : Option Nat} {handed files : List File} {hs : List Bytes}
    (h : readPages r headers total start handed answers = .ok ((n, k), files))
    (hr : Rebuilt text (hs ++ more) r) (hm : Encodes handed more) (hstart : 0 < start)
    (hlen : handed.length = start) (htotal : ∃ t, total = some t ∧ start ≤ t) :
    k = files.length ∧ ∃ ls, Encodes files ls ∧ text = unlines (hs ++ ls) := by
  induction answers generalizing r headers start total handed more with
  | nil => cases h
  | cons a rest ih =>
    cases a with
    | service => cases h
    | malformed => cases h
    | record page =>
      obtain ⟨t, rfl, ht⟩ := htotal
      rw [readPages] at h
      simp only [Option.getD_some, Nat.ne_of_gt hstart, if_false] at h
      split at h
      · cases h
      · rename_i hc
        simp only [not_or, not_not] at hc
        split at h
        · cases h
        · rename_i r1 files' hfiles
          obtain ⟨hflen, more', hmore', hr'⟩ := hr.files hfiles
          rw [append_assoc] at hr'
          have hall : Encodes (handed ++ files') (more ++ more') := by
            rw [Encodes, map_append, map_append, hm, hmore']
          rw [hc.2] at hflen
          split at h
          · split at h
            · cases h
              refine ⟨?_, _, hall, hr'.done ‹_›⟩
              rw [length_append, hlen, hflen]
              omega
            · cases h
          · refine ih h hr' hall (by omega) ?_ ⟨t, rfl, ?_⟩
            · rw [length_append, hlen, hflen]
            · omega

theorem readManifest_rebuilt {text : Bytes} {n : Nat}
    {files : List File} (h : readManifest text answers = .ok ((n, k), files)) :
    k = files.length ∧
      ∃ ls, Encodes files ls ∧ text = unlines (answeredHeaders answers ++ ls) := by
  have hnew : Rebuilt text [] (Rebuild.new text) := ⟨rfl, rfl, rfl, Nat.zero_le _⟩
  unfold readManifest at h
  cases answers with
  | nil => cases h
  | cons a rest =>
    cases a with
    | service => cases h
    | malformed => cases h
    | record page =>
      rw [readPages] at h
      simp only [Option.getD_none, if_true] at h
      split at h
      · cases h
      · rename_i hc
        simp only [not_or, not_not] at hc
        split at h
        · cases h
        · rename_i r1 hlines
          have h1 : Rebuilt text page.headers r1 := hnew.lines hlines
          split at h
          · cases h
          · rename_i r2 files' hfiles
            obtain ⟨hflen, more, hmore, h2⟩ := h1.files hfiles
            rw [hc.2] at hflen
            split at h
            · split at h
              · cases h
                refine ⟨?_, _, hmore, h2.done ‹_›⟩
                rw [nil_append, hflen]
                omega
              · cases h
            · have hmax : pageMax = 8 := rfl
              refine readPages_rebuilt h h2 hmore ?_ ?_ ⟨_, rfl, ?_⟩
              · omega
              · rw [nil_append, hflen, Nat.zero_add]
              · omega

/-! ### The lines of a manifest -/

def Ascending : Option Bytes → List Bytes → Prop
  | _, [] => True
  | last, p :: rest => (∀ q, last = some q → parts q < parts p) ∧ Ascending (some p) rest

def isHeader (line : Bytes) : Bool := !isFile line && headerForm line

structure FileLines (last : Option Bytes) (ls : List Bytes) : Prop where
  form : ∀ l ∈ ls, isFile l = true ∧ (parseFile l).isSome = true
  order : Ascending last (ls.map filePath)

structure Heads (hs : List Bytes) : Prop where
  first : hs.head? = some formatLine
  form : ∀ l ∈ hs.tail, isHeader l = true
  few : hs.length ≤ headersMax

section Seeing
variable {h n a b : Nat} {last : Option Bytes} {l : Bytes} {ls : List Bytes}

theorem seen_file (hh : 0 < h) (hl : isFile l = true) (s : Seen) :
    Seen.line ⟨h, n, last⟩ l = some s ↔ ((parseFile l).isSome = true ∧
      (∀ q, last = some q → parts q < parts (filePath l))) ∧ s = ⟨h, n + 1, some (filePath l)⟩ := by
  rw [Seen.line, if_neg (by dsimp only; omega), if_pos hl]
  cases hp : parseFile l with
  | none => simp
  | some f =>
    cases last with
    | none => simp [eq_comm]
    | some q =>
      by_cases hq : parts q < parts (filePath l)
      · simp [hq, eq_comm]
      · simp [hq]

theorem seen_header (hh : 0 < h) (hl : isFile l = false) (s : Seen) : Seen.line ⟨h, n, last⟩ l = some s ↔
      (n = 0 ∧ h ≠ headersMax ∧ headerForm l = true) ∧ s = ⟨h + 1, n, last⟩ := by
  rw [Seen.line, if_neg (by dsimp only; omega), if_neg (by rw [hl]; simp)]
  split
  · rename_i hc
    simp only [false_iff, reduceCtorEq]
    rintro ⟨⟨h0, hm, hf⟩, -⟩
    rcases hc with hc | hc | hc
    · dsimp only at hc
      omega
    · exact hm hc
    · rw [hf] at hc
      cases hc
  · rename_i hc
    simp only [not_or, Bool.not_eq_false, Nat.not_lt, Nat.le_zero_eq] at hc
    simp [hc.1, hc.2.1, hc.2.2, eq_comm]

theorem foldlM_file {rest : List Bytes} (hh : 0 < h) (hl : isFile l = true)
    (hrest : ∀ last, (∃ s, rest.foldlM Seen.line ⟨h, n + 1, last⟩ = some s ∧ s.headers = a ∧ s.files = b) ↔
      FileLines last rest ∧ a = h ∧ b = n + 1 + rest.length) :
    (∃ s, (l :: rest).foldlM Seen.line ⟨h, n, last⟩ = some s ∧ s.headers = a ∧ s.files = b) ↔
      FileLines last (l :: rest) ∧ a = h ∧ b = n + (l :: rest).length := by
  rw [foldlM_cons, length_cons, Nat.add_comm rest.length, ← Nat.add_assoc]
  constructor
  · rintro ⟨s, hs, ha, hb⟩
    obtain ⟨s', hs', hs⟩ := Option.bind_eq_some_iff.mp hs
    obtain ⟨⟨hp, hq⟩, rfl⟩ := (seen_file hh hl _).mp hs'
    obtain ⟨hf, ha, hb⟩ := (hrest _).mp ⟨s, hs, ha, hb⟩
    exact ⟨⟨forall_mem_cons.mpr ⟨⟨hl, hp⟩, hf.form⟩, hq, hf.order⟩, ha, hb⟩
  · rintro ⟨hf, ha, hb⟩
    obtain ⟨⟨-, hp⟩, hform⟩ := forall_mem_cons.mp hf.form
    rw [(seen_file (n := n) hh hl _).mpr ⟨⟨hp, hf.order.1⟩, rfl⟩]
    exact (hrest _).mpr ⟨⟨hform, hf.order.2⟩, ha, hb⟩

theorem foldlM_files (hh : 0 < h) (hn : 0 < n) :
    (∃ s, ls.foldlM Seen.line ⟨h, n, last⟩ = some s ∧ s.headers = a ∧ s.files = b) ↔
      FileLines last ls ∧ a = h ∧ b = n + ls.length := by
  induction ls generalizing n last with
  | nil =>
    constructor
    · rintro ⟨s, hs, rfl, rfl⟩
      cases hs
      exact ⟨⟨by simp, trivial⟩, rfl, rfl⟩
    · rintro ⟨-, rfl, rfl⟩
      exact ⟨_, rfl, rfl, rfl⟩
  | cons l rest ih =>
    cases hl : isFile l with
    | false =>
      constructor
      · rintro ⟨s, hs, -⟩
        obtain ⟨s', hs', -⟩ := Option.bind_eq_some_iff.mp hs
        rw [seen_header hh hl] at hs'
        omega
      · rintro ⟨hf, -⟩
        have := (hf.form l mem_cons_self).1
        rw [hl] at this
        cases this
    | true => exact foldlM_file hh hl fun _ => ih (Nat.succ_pos n)

theorem foldlM_headers (hh : 0 < h) (hm : h ≤ headersMax) :
    (∃ s, ls.foldlM Seen.line ⟨h, 0, none⟩ = some s ∧ s.headers = a ∧ s.files = b) ↔
      ∃ hs fs, ls = hs ++ fs ∧ (∀ l ∈ hs, isHeader l = true) ∧ h + hs.length ≤ headersMax ∧
        FileLines none fs ∧ a = h + hs.length ∧ b = fs.length := by
  induction ls generalizing h with
  | nil =>
    constructor
    · rintro ⟨s, hs, rfl, rfl⟩
      cases hs
      exact ⟨[], [], rfl, by simp, hm, ⟨by simp, trivial⟩, rfl, rfl⟩
    · rintro ⟨hs, fs, hnil, -, -, -, rfl, rfl⟩
      obtain ⟨rfl, rfl⟩ := append_eq_nil_iff.mp hnil.symm
      exact ⟨_, rfl, rfl, rfl⟩
  | cons l rest ih =>
    cases hl : isFile l with
    | true =>
      have hsplit : (∃ hs fs, l :: rest = hs ++ fs ∧ (∀ l ∈ hs, isHeader l = true) ∧
          h + hs.length ≤ headersMax ∧ FileLines none fs ∧ a = h + hs.length ∧ b = fs.length) ↔
          FileLines none (l :: rest) ∧ a = h ∧ b = 0 + (l :: rest).length := by
        constructor
        · rintro ⟨hs, fs, heq, hhs, -, hfs, ha, hb⟩
          cases hs with
          | nil =>
            rw [heq, Nat.zero_add]
            exact ⟨hfs, ha, hb⟩
          | cons l' hs =>
            obtain ⟨rfl, -⟩ := List.cons.inj heq
            have := hhs l mem_cons_self
            rw [isHeader, hl] at this
            cases this
        · rintro ⟨hf, rfl, rfl⟩
          exact ⟨[], l :: rest, rfl, by simp, hm, hf, rfl, Nat.zero_add _⟩
      rw [hsplit]
      exact foldlM_file hh hl fun _ => foldlM_files hh Nat.one_pos
    | false =>
      rw [foldlM_cons]
      constructor
      · rintro ⟨s, hfold, ha, hb⟩
        obtain ⟨s', hs', hfold⟩ := Option.bind_eq_some_iff.mp hfold
        obtain ⟨⟨-, hne, hform⟩, rfl⟩ := (seen_header hh hl _).mp hs'
        obtain ⟨hs, fs, rfl, hhs, hlen, hfs, ha, hb⟩ := (ih (Nat.succ_pos h) (by omega)).mp ⟨s, hfold, ha, hb⟩
        refine ⟨l :: hs, fs, rfl, forall_mem_cons.mpr ⟨?_, hhs⟩, by rw [length_cons]; omega, hfs,
          by rw [length_cons]; omega, hb⟩
        rw [isHeader, hl, hform]
        rfl
      · rintro ⟨hs, fs, heq, hhs, hlen, hfs, ha, hb⟩
        cases hs with
        | nil =>
          rw [nil_append] at heq
          have := (hfs.form l (heq ▸ mem_cons_self)).1
          rw [hl] at this
          cases this
        | cons l' hs =>
          obtain ⟨rfl, rfl⟩ := List.cons.inj heq
          rw [length_cons] at hlen ha
          have hform := hhs l mem_cons_self
          rw [isHeader, hl] at hform
          have hstep : Seen.line ⟨h, 0, none⟩ l = some ⟨h + 1, 0, none⟩ :=
            (seen_header hh hl _).mpr ⟨⟨rfl, by omega, by simpa using hform⟩, rfl⟩
          rw [hstep]
          exact (ih (Nat.succ_pos h) (by omega)).mpr ⟨hs, fs, rfl,
            fun l' hmem => hhs l' (mem_cons_of_mem _ hmem), by omega, hfs, by omega, hb⟩

end Seeing

variable {ls : List Bytes}

theorem foldlM_lines {a b : Nat} (hne : ls ≠ []) :
    (∃ s, ls.foldlM Seen.line ⟨0, 0, none⟩ = some s ∧ s.headers = a ∧ s.files = b) ↔
      ∃ hs fs, ls = hs ++ fs ∧ Heads hs ∧ FileLines none fs ∧ a = hs.length ∧ b = fs.length := by
  obtain ⟨l, rest, rfl⟩ := exists_cons_of_ne_nil hne
  have hfirst : Seen.line ⟨0, 0, none⟩ l = if l ≠ formatLine then none else some ⟨1, 0, none⟩ := rfl
  rw [foldlM_cons, hfirst]
  by_cases hl : l = formatLine
  · rw [if_neg (not_not.mpr hl)]
    refine (foldlM_headers Nat.one_pos (by decide)).trans ⟨?_, ?_⟩
    · rintro ⟨hs, fs, rfl, hhs, hlen, hfs, ha, hb⟩
      exact ⟨l :: hs, fs, rfl, ⟨by rw [hl]; rfl, hhs, by rw [length_cons]; omega⟩, hfs,
        by rw [length_cons]; omega, hb⟩
    · rintro ⟨hs, fs, heq, hhs, hfs, ha, hb⟩
      cases hs with
      | nil => cases hhs.first
      | cons l' hs =>
        obtain ⟨rfl, rfl⟩ := List.cons.inj heq
        have hfew := hhs.few
        rw [length_cons] at ha hfew
        exact ⟨hs, fs, rfl, hhs.form, by omega, hfs, by omega, hb⟩
  · rw [if_pos hl]
    constructor
    · rintro ⟨s, hs, -⟩
      cases hs
    · rintro ⟨hs, fs, heq, hhs, -⟩
      cases hs with
      | nil => cases hhs.first
      | cons l' hs =>
        obtain ⟨rfl, -⟩ := List.cons.inj heq
        exact absurd (Option.some.inj hhs.first) hl

/-! ### Lines and their text -/

theorem unlines_eq (hne : ls ≠ []) : unlines ls = [newline].intercalate ls ++ [newline] := by
  induction ls with
  | nil => exact absurd rfl hne
  | cons l rest ih =>
    cases rest with
    | nil => simp [unlines, List.intercalate]
    | cons l' rest =>
      have hcons : unlines (l :: l' :: rest) = l ++ ([newline] ++ unlines (l' :: rest)) := by
        simp [unlines]
      rw [hcons, ih (cons_ne_nil _ _)]
      simp [List.intercalate, List.intersperse]

def headerLines (headers : List Bytes) : List Bytes := headers.flatMap fun h => h.splitOn newline

theorem unlines_headerLines (headers : List Bytes) : unlines (headerLines headers) = unlines headers := by
  induction headers with
  | nil => rfl
  | cons h rest ih =>
    have hsplit : unlines (h.splitOn newline) = h ++ [newline] := by
      rw [unlines_eq (splitOn_ne_nil _ _), intercalate_splitOn]
    have hcons : headerLines (h :: rest) = h.splitOn newline ++ headerLines rest := rfl
    rw [hcons, unlines_append, hsplit, ih]
    rfl

theorem headerLines_newline (headers : List Bytes) : ∀ l ∈ headerLines headers, newline ∉ l := by
  intro l hl
  obtain ⟨h, -, hl⟩ := mem_flatMap.mp hl
  exact not_mem_of_mem_splitOn hl

theorem Encodes.mem {files : List File} (h : Encodes files ls) :
    ∀ l ∈ ls, ∃ f ∈ files, encodeFile f fileLineMax = some l := by
  intro l hl
  have hm : some l ∈ ls.map some := mem_map_of_mem hl
  rw [← h] at hm
  exact mem_map.mp hm

theorem lines_unlines (hne : ls ≠ []) (hno : ∀ l ∈ ls, newline ∉ l) : lines (unlines ls) = ls := by
  rw [lines, unlines_eq hne, dropLast_concat]
  exact splitOn_intercalate newline hno hne

/-! ### What is taken -/

/-- The answered header lines and files have the form and order of a manifest's. -/
structure AnswerForm (text : Bytes) (headers : List Bytes) (files : List File) : Prop where
  size : text.length ≤ manifestMax
  heads : Heads (headerLines headers)
  paths : ∀ f ∈ files, pathForm f.path.bytes = true
  order : Ascending none (files.map fun f => f.path.bytes)

def Listed (text : Bytes) (files : List File) : Prop :=
  ∃ m, Manifest.parse text = some m ∧ m.files = files.length ∧ ∀ i, m.file i = files[i]?

theorem Encodes.paths {files : List File} (h : Encodes files ls) :
    ls.map filePath = files.map fun f => f.path.bytes := by
  induction files generalizing ls with
  | nil =>
    have hnil : ls = [] := map_eq_nil_iff.mp h.symm
    rw [hnil]
    rfl
  | cons f rest ih =>
    cases ls with
    | nil => cases h
    | cons l ls =>
      obtain ⟨hl, hrest⟩ := List.cons.inj h
      rw [map_cons, map_cons, filePath_encode hl, ih hrest]

theorem Encodes.length {files : List File} (h : Encodes files ls) : ls.length = files.length := by
  have hlen := congrArg List.length h
  rw [length_map, length_map] at hlen
  exact hlen.symm

theorem Encodes.getElem {files : List File} (h : Encodes files ls) (i : Nat) :
    ls[i]?.map some = files[i]?.map fun f => encodeFile f fileLineMax := by
  rw [← getElem?_map, ← getElem?_map, h]

theorem fileLines_iff {files : List File} (h : Encodes files ls) :
    FileLines none ls ↔ (∀ f ∈ files, pathForm f.path.bytes = true) ∧
      Ascending none (files.map fun f => f.path.bytes) := by
  rw [← h.paths]
  constructor
  · intro hf
    refine ⟨?_, hf.order⟩
    intro f hm
    obtain ⟨l, hl, he⟩ : ∃ l ∈ ls, some l = encodeFile f fileLineMax := by
      have hmem : encodeFile f fileLineMax ∈ ls.map some := h ▸ mem_map_of_mem hm
      obtain ⟨l, hl, he⟩ := mem_map.mp hmem
      exact ⟨l, hl, he⟩
    have hp := (hf.form l hl).2
    rw [parseFile_encode he.symm] at hp
    by_contra hn
    rw [if_neg hn] at hp
    cases hp
  · rintro ⟨hp, ho⟩
    refine ⟨?_, ho⟩
    intro l hl
    obtain ⟨f, hf, he⟩ := h.mem l hl
    rw [parseFile_encode he, if_pos (hp f hf)]
    exact ⟨isFile_encode he, rfl⟩

theorem lines_answered {files : List File} (h : Encodes files ls) (hne : headerLines headers ++ ls ≠ []) :
    lines (unlines (headers ++ ls)) = headerLines headers ++ ls := by
  have htext : unlines (headers ++ ls) = unlines (headerLines headers ++ ls) := by
    rw [unlines_append, unlines_append, unlines_headerLines]
  rw [htext]
  refine lines_unlines hne ?_
  intro l hl
  rcases mem_append.mp hl with hl | hl
  · exact headerLines_newline headers l hl
  · obtain ⟨f, -, he⟩ := h.mem l hl
    exact newline_not_mem he

theorem unlines_getLast (hne : ls ≠ []) : (unlines ls).getLast? = some newline := by
  rw [unlines_eq hne, getLast?_concat]

theorem listed_iff {files : List File} (h : Encodes files ls) : Listed (unlines (headers ++ ls)) files ↔
      AnswerForm (unlines (headers ++ ls)) headers files := by
  by_cases hne : headerLines headers ++ ls = []
  · obtain ⟨hh, rfl⟩ := append_eq_nil_iff.mp hne
    have hnil : unlines (headers ++ []) = [] := by
      rw [append_nil, ← unlines_headerLines, hh]
      rfl
    rw [hnil]
    constructor
    · rintro ⟨m, hm, -⟩
      cases hm
    · intro hf
      have hfirst := hf.heads.first
      rw [hh] at hfirst
      cases hfirst
  · have hlines := lines_answered h hne
    have hlast : (unlines (headers ++ ls)).getLast? = some newline := by
      rw [unlines_append, ← unlines_headerLines, ← unlines_append, unlines_getLast hne]
    constructor
    · rintro ⟨m, hm, hfiles, -⟩
      unfold Manifest.parse at hm
      split at hm
      · cases hm
      · obtain ⟨s, hs, hm⟩ := Option.bind_eq_some_iff.mp hm
        cases hm
        rw [hlines] at hs
        obtain ⟨hs', fs, heq, hheads, hfl, -, hb⟩ := (foldlM_lines hne).mp ⟨s, hs, rfl, rfl⟩
        have hlen : ls.length = fs.length := by rw [h.length, ← hb, ← hfiles]
        obtain ⟨rfl, rfl⟩ := append_inj' heq hlen
        obtain ⟨hp, ho⟩ := (fileLines_iff h).mp hfl
        exact ⟨by omega, hheads, hp, ho⟩
    · intro hf
      obtain ⟨s, hs, hhead, hfile⟩ := (foldlM_lines hne).mpr
        ⟨_, ls, rfl, hf.heads, (fileLines_iff h).mpr ⟨hf.paths, hf.order⟩, rfl, rfl⟩
      refine ⟨⟨unlines (headers ++ ls), s.headers, s.files⟩, ?_, hfile.trans h.length, ?_⟩
      · rw [Manifest.parse, if_neg, hlines, hs]
        · rfl
        · rintro (hlt | hnl)
          · exact absurd hf.size (by omega)
          · exact hnl hlast
      · intro i
        rw [Manifest.file]
        dsimp only
        rw [hlines, hhead, hfile, getElem?_append_right (by omega), Nat.add_sub_cancel_left]
        have hi := h.getElem i
        cases hget : files[i]? with
        | none =>
          have hle := getElem?_eq_none_iff.mp hget
          rw [if_neg (by rw [h.length]; omega)]
        | some f =>
          obtain ⟨hlt, -⟩ := List.getElem?_eq_some_iff.mp hget
          rw [hget] at hi
          obtain ⟨l, hl, he⟩ := Option.map_eq_some_iff.mp hi
          rw [if_pos (by rw [h.length]; exact hlt), hl, Option.bind_some, parseFile_encode he.symm,
            if_pos (hf.paths f (mem_of_getElem? hget))]

/-- What the updater takes from the parser service, whatever it answers, is what the honest parser
finds, exactly when the answers have the form the honest parser demands: the lines within the header
lines are header lines, and the fields are of their form and in order. Nothing else of the answers is
checked. -/
theorem taken_iff_form (text : Bytes) (answers : List (Answer Page)) (headers count : Nat)
    (files : List File) (file : Bytes) (answer : Answer ChannelRecord) (channel : Channel)
    (signed : Signed) :
    (readManifest text answers = .ok ((headers, count), files) →
      (Listed text files ↔ AnswerForm text (answeredHeaders answers) files)) ∧
    (readChannel file answer = .ok (channel, signed) →
      (parseChannel file = some (channel, signed) ↔ ChannelForm channel)) := by
  constructor
  · intro h
    obtain ⟨-, ls, henc, rfl⟩ := readManifest_rebuilt h
    exact listed_iff henc
  · intro h
    cases answer with
    | service => cases h
    | malformed => cases h
    | record r =>
      rw [readChannel] at h
      split at h
      · cases h
      · split at h
        · cases h
          exact parseChannel_iff ‹_›
        · cases h

theorem stable_valid : (ascii "stable").length ≤ nameMax ∧ (ascii "stable").all graphic = true := by
  decide

theorem expiry_length : (ascii "2026-12-01T00:00:00Z").length = 20 := by decide

theorem x86_valid : (ascii "x86_64").length ≤ archMax ∧ (ascii "x86_64").all graphic = true := by
  decide

theorem zeros_length : (List.replicate 32 (0 : UInt8)).length = 32 := rfl

def stableChannel : Channel where
  name := ⟨ascii "stable", stable_valid⟩
  version := 2
  minimum := 1
  expires := ⟨ascii "2026-12-01T00:00:00Z", expiry_length⟩
  manifests := [(⟨ascii "x86_64", x86_valid⟩, ⟨List.replicate 32 0, zeros_length⟩)]

def stableSigned : Signed := ⟨168, ⟨List.replicate 64 0, by decide⟩⟩

def stableRecord : ChannelRecord where
  name := ascii "stable"
  version := 2
  minimum := 1
  expires := ascii "2026-12-01T00:00:00Z"
  manifests := [⟨ascii "x86_64", List.replicate 32 0⟩]
  signed := 168
  signature := List.replicate 64 0

def channelFile (c : Channel) (s : Signed) : Bytes :=
  (channelParts c).flatten ++ (ascii "ed25519 " ++ (hexOf s.signature.1 ++ [newline]))

/-- The line of a file of one byte. -/
def lineOf (name : String) : Bytes :=
  ascii "file " ++ (ascii name ++ (ascii " 1 " ++ (List.replicate 64 0x61 ++ ascii " 00000000 1")))

def kernelLine : Bytes := lineOf "kernel.elf"

theorem kernel_valid : (ascii "kernel.elf").length ≤ pathMax ∧ (ascii "kernel.elf").all graphic = true := by
  decide

def kernelFile : File where
  path := ⟨ascii "kernel.elf", kernel_valid⟩
  size := 1
  digest := ⟨List.replicate 32 0xaa, rfl⟩
  flags := 0
  mib := 1

def kernelRecord : FileRecord := ⟨ascii "kernel.elf", 1, List.replicate 32 0xaa, 0, 1⟩

def kernelManifest : Bytes := unlines [formatLine, kernelLine]

/-- Honest answers are taken: a manifest of one file, and a channel. -/
theorem honest_answers_taken : Listed kernelManifest [kernelFile] ∧
      parseChannel (channelFile stableChannel stableSigned) = some (stableChannel, stableSigned) := by
  have h := taken_iff_form kernelManifest [.record ⟨[formatLine], 1, [kernelRecord]⟩] 1 1 [kernelFile]
    (channelFile stableChannel stableSigned) (.record stableRecord) stableChannel stableSigned
  have hheads : Heads (headerLines [formatLine]) := ⟨by decide, by decide, by decide⟩
  have hpaths : ∀ f ∈ [kernelFile], pathForm f.path.bytes = true := by decide +kernel
  refine ⟨(h.1 (by decide +kernel)).mpr ⟨by decide +kernel, hheads, hpaths, nofun, trivial⟩, ?_⟩
  refine (h.2 (by decide +kernel)).mpr ⟨by decide +kernel, by decide +kernel, by decide +kernel,
    by decide, ⟨by decide, by decide, trivial⟩, by decide, by decide⟩

def lateChannel : ChannelRecord where
  name := ascii "stable"
  version := 1
  minimum := 2
  expires := ascii "2026-13-01T00:00:00Z"
  manifests := [⟨ascii "x86_64", List.replicate 32 0⟩]
  signed := 168
  signature := List.replicate 64 0

def lateFile : Bytes := ((channelFrom lateChannel).map fun c => channelFile c.1 c.2).getD []

/-- Asked for a manifest of one file, the service gives its line as a header line: the manifest is
taken with no file. Asked for a channel that no month has, it gives the fields: the channel is taken. -/
theorem file_line_taken_as_header :
    (readManifest kernelManifest [.record ⟨[formatLine, kernelLine], 0, []⟩]).toOption =
        some ((2, 0), []) ∧
      (Manifest.parse kernelManifest).map (fun m => m.files) = some 1 ∧
      (readChannel lateFile (.record lateChannel)).toOption.isSome = true ∧
      parseChannel lateFile = none := by
  decide +kernel

end MindCore.Release
