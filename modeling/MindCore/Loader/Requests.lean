import MindCore.Lib.Ascii

/-!
# What a program's file asks for

`request_flags` of `loader/src/main.rs` looks for a program's note in the sections its header names. A launch
runs it over the image in memory and inspection over the file, and the two do not end alike past the end.
-/

namespace MindCore.Loader

/-! ### Programs that read by offset

A reader is given an offset and a length and answers with the bytes it got. It may panic, and so may the program:
a range of a buffer has to lie inside it. -/

abbrev Reader := Nat → Nat → Option Bytes

inductive Asking (α : Type) where
  | done (a : α)
  | panics
  | read (at' len : Nat) (next : Bytes → Asking α)

namespace Asking
variable {α β : Type}

def bind : Asking α → (α → Asking β) → Asking β
  | done a, f => f a
  | panics, _ => panics
  | read at' len next, f => read at' len fun b => (next b).bind f

instance : Monad Asking where
  pure := done
  bind := bind

def run (reader : Reader) : Asking α → Option α
  | done a => some a
  | panics => none
  | read at' len next => (reader at' len).bind fun b => (next b).run reader

@[simp] theorem run_pure (reader : Reader) (a : α) : (pure a : Asking α).run reader = some a := rfl

@[simp] theorem run_bind (reader : Reader) (p : Asking α) (f : α → Asking β) :
    (p >>= f).run reader = (p.run reader).bind fun a => (f a).run reader := by
  change (p.bind f).run reader = _
  induction p with
  | done a => rfl
  | panics => rfl
  | read at' len next ih =>
    rw [bind, run, run, Option.bind_assoc]
    exact congrArg _ (funext ih)

end Asking

/-- `&b[start..stop]`. -/
def range (b : Bytes) (start stop : Nat) : Asking Bytes :=
  if start ≤ stop ∧ stop ≤ b.length then pure (Bytes.slice start stop b) else .panics

def number (n : Nat) (b : Bytes) (at' : Nat) : Asking Nat := do return Bytes.ofLe (← range b at' (at' + n))

/-- A read into the first `len` bytes of a buffer of `size`. -/
def readInto (size at' len : Nat) : Asking Bytes := if len ≤ size then .read at' len pure else .panics

def elfMagic : Bytes := 0x7f :: ascii "ELF"

def noteName : Bytes := ascii ".mind_request" ++ [0]

def readNote (s : Bytes) : Asking (Nat × Nat) := do
  if (← number 8 s 0x20) < 16 then return (0, 0)
  else
    let note ← readInto 16 (← number 8 s 0x18) 16
    if note.length < 16 then return (0, 0)
    else if (← range note 0 8) = ascii "MINDREQ1" then return (← number 4 note 8, ← number 4 note 12)
    else return (0, 0)

def findNote (sections names : Bytes) (strSize : Nat) : List Nat → Asking (Nat × Nat)
  | [] => return (0, 0)
  | index :: rest => do
    let s ← range sections (index * 64) (index * 64 + 64)
    let name ← number 4 s 0
    if strSize ≤ name then findNote sections names strSize rest
    else if noteName.isPrefixOf (← range names name strSize) then readNote s
    else findNote sections names strSize rest

def readSections (shoff shnum shstrndx : Nat) : Asking (Nat × Nat) := do
  let sections ← readInto 4096 shoff (shnum * 64)
  if sections.length < shnum * 64 then return (0, 0)
  else
    let strtab ← range sections (shstrndx * 64) (shstrndx * 64 + 64)
    let strOffset ← number 8 strtab 0x18
    let strSize := min (← number 8 strtab 0x20) 4096
    let names ← readInto 4096 strOffset strSize
    if names.length < strSize then return (0, 0)
    else findNote sections names strSize (List.range shnum)

def requestFlags : Asking (Nat × Nat) := do
  let header ← readInto 64 0 64
  if header.length < 64 then return (0, 0)
  else if (← range header 0 4) ≠ elfMagic then return (0, 0)
  else
    let shoff ← number 8 header 0x28
    let shentsize ← number 2 header 0x3a
    let shnum ← number 2 header 0x3c
    let shstrndx ← number 2 header 0x3e
    if shentsize ≠ 64 ∨ shnum = 0 ∨ 64 < shnum ∨ shnum ≤ shstrndx then return (0, 0)
    else readSections shoff shnum shstrndx

/-- The launch's reader. The range starts at the offset even when it is empty. -/
def imageRead (bytes : Bytes) (at' len : Nat) : Option Bytes :=
  if at' ≤ bytes.length then some ((bytes.drop at').take len) else none

/-- Inspection's reader: the file service takes 32 bits of the offset, and a drive that does not answer reads
as the end of the file. -/
def fileRead (answers : Nat → Bool) (bytes : Bytes) (at' len : Nat) : Option Bytes :=
  some (if answers at' then (bytes.drop (at' % 2 ^ 32)).take len else [])

/-! ### Launch and inspection -/

inductive LoadError where
  | notFound | io | invalid | rights | noMemory | limit
  deriving DecidableEq

inductive InspectError where
  | notFound | unreadable | invalid
  deriving DecidableEq

def maxImage : Nat := 4 * 1024 * 1024

/-- `memory` and `whole` say whether there is room for the image and whether the drive answers its read. -/
def readImage (memory whole : Bool) (file : Bytes) : Except LoadError Bytes :=
  if file.length < 64 ∨ maxImage < file.length then .error .invalid
  else if memory = false then .error .noMemory
  else if whole = false then .error .io
  else if file.take 4 ≠ elfMagic then .error .invalid
  else .ok file

def launchFlags (memory whole : Bool) (file : Except LoadError Bytes) : Option (Except LoadError (Nat × Nat)) :=
  match file.bind (readImage memory whole) with
  | .error e => some (.error e)
  | .ok image => (requestFlags.run (imageRead image)).map .ok

def load (memory whole : Bool) (start : Nat × Nat → Except LoadError Nat) (file : Except LoadError Bytes) :
    Option (Except LoadError Nat) :=
  (launchFlags memory whole file).map (·.bind start)

def requests (answers : Nat → Bool) (file : Except LoadError Bytes) : Option (Except InspectError Nat) :=
  match file with
  | .error .notFound => some (.error .notFound)
  | .error .io => some (.error .unreadable)
  | .error _ => some (.error .invalid)
  | .ok bytes => (requestFlags.run (fileRead answers bytes)).map fun flags => .ok flags.1

structure Needs where
  console : Bool
  sysinfo : Bool
  file : Bool
  lifecycle : Bool
  log : Bool
  files : Bool
  deriving DecidableEq

def needs (flags : Nat) : Needs :=
  ⟨flags.testBit 0, flags.testBit 1, flags.testBit 2, flags.testBit 3, flags.testBit 4, flags.testBit 5⟩

def inspect (answers : Nat → Bool) (file : Except LoadError Bytes) : Option (Except InspectError Needs) :=
  (requests answers file).map (·.map needs)

/-! ### Where an image's numbers send the parser -/

def word (n : Nat) (image : Bytes) (at' : Nat) : Nat := Bytes.ofLe (Bytes.slice at' (at' + n) image)

structure Header where
  shoff : Nat
  shnum : Nat
  shstrndx : Nat

def headerOf (image : Bytes) : Header := ⟨word 8 image 0x28, word 2 image 0x3c, word 2 image 0x3e⟩

namespace Header
variable (h : Header) (image : Bytes)

/-- Where the `i`th section's header lies. -/
def place (i : Nat) : Nat := h.shoff + i * 64

def strOffset : Nat := word 8 image (h.place h.shstrndx + 0x18)

def strSize : Nat := min (word 8 image (h.place h.shstrndx + 0x20)) 4096

def nameOf (i : Nat) : Nat := word 4 image (h.place i)

def Noted (i : Nat) : Prop :=
  h.nameOf image i < h.strSize image ∧
    noteName <+: Bytes.slice (h.strOffset image + h.nameOf image i) (h.strOffset image + h.strSize image) image

instance (i : Nat) : Decidable (h.Noted image i) := inferInstanceAs (Decidable (_ ∧ _))

/-- The section table starts inside the image; if it is whole, so does the string table; if that is whole, so does
the first section with the note's name that has room for a note. -/
structure Inside : Prop where
  table : h.shoff ≤ image.length
  strings : h.shoff + h.shnum * 64 ≤ image.length → h.strOffset image ≤ image.length
  note : h.shoff + h.shnum * 64 ≤ image.length → h.strOffset image + h.strSize image ≤ image.length →
    ∀ i, (List.range h.shnum).find? (h.Noted image) = some i → 16 ≤ word 8 image (h.place i + 0x20) →
      word 8 image (h.place i + 0x18) ≤ image.length

end Header

/-- An ELF whose header gives a table of sections the parser goes on with. -/
structure Sectioned (image : Bytes) : Prop where
  size : 64 ≤ image.length
  magic : image.take 4 = elfMagic
  shentsize : word 2 image 0x3a = 64
  shnum : 0 < (headerOf image).shnum ∧ (headerOf image).shnum ≤ 64
  shstrndx : (headerOf image).shstrndx < (headerOf image).shnum

variable {α : Type} {bytes image : Bytes} {p : Asking α} {h : Header} {reader : Reader}

section Ranges
variable {b : Bytes} {i j n off len at' : Nat}

theorem range_run (hij : i ≤ j) (hj : j ≤ b.length) : (range b i j).run reader = some (Bytes.slice i j b) := by
  rw [range, if_pos ⟨hij, hj⟩]
  rfl

theorem number_run (hb : at' + n ≤ b.length) : (number n b at').run reader = some (word n b at') := by
  rw [number, Asking.run_bind, range_run (Nat.le_add_right ..) hb]
  rfl

theorem slice_slice (hj : j ≤ len) :
    Bytes.slice i j (Bytes.slice off (off + len) b) = Bytes.slice (off + i) (off + j) b := by
  simp only [Bytes.slice, List.drop_take, List.drop_drop, List.take_take]
  congr 1
  omega

theorem length_slice (hb : off + len ≤ b.length) : (Bytes.slice off (off + len) b).length = len := by
  simp [Bytes.slice]
  omega

theorem word_slice (hn : at' + n ≤ len) : word n (Bytes.slice off (off + len) b) at' = word n b (off + at') := by
  rw [word, word, slice_slice hn, Nat.add_assoc]

theorem readInto_run {size : Nat} (hsize : len ≤ size) : (readInto size at' len).run (imageRead b) =
    if at' ≤ b.length then some (Bytes.slice at' (at' + len) b) else none := by
  rw [readInto, if_pos hsize, Asking.run, imageRead, Bytes.slice, Nat.add_sub_cancel_left]
  split <;> rfl

end Ranges

theorem readNote_ends {i : Nat} (hi : h.place i + 64 ≤ image.length) :
    ((readNote (Bytes.slice (h.place i) (h.place i + 64) image)).run (imageRead image)).isSome ↔
      (16 ≤ word 8 image (h.place i + 0x20) → word 8 image (h.place i + 0x18) ≤ image.length) := by
  have hlen := length_slice hi
  rw [readNote, Asking.run_bind, number_run (by omega), Option.bind_some, word_slice (by omega)]
  by_cases hroom : word 8 image (h.place i + 0x20) < 16
  · rw [if_pos hroom]
    exact iff_of_true rfl fun h => absurd h (by omega)
  · rw [if_neg hroom, Asking.run_bind, number_run (by omega), Option.bind_some, word_slice (by omega), Asking.run_bind,
      readInto_run (Nat.le_refl _)]
    by_cases hin : word 8 image (h.place i + 0x18) ≤ image.length
    · rw [if_pos hin, Option.bind_some]
      refine iff_of_true ?_ fun _ => hin
      split
      · rfl
      · next hnote =>
        rw [Asking.run_bind, range_run (by omega) (by omega), Option.bind_some]
        split
        · rw [Asking.run_bind, number_run (by omega), Option.bind_some, Asking.run_bind, number_run (by omega)]
          rfl
        · rfl
    · simp [hin]
      omega

/-- Over whole tables only the note's own offset can stop the search. -/
theorem findNote_ends (htable : h.shoff + h.shnum * 64 ≤ image.length)
    (hstrings : h.strOffset image + h.strSize image ≤ image.length) (l : List Nat) (hl : ∀ i ∈ l, i < h.shnum) :
    ((findNote (Bytes.slice h.shoff (h.shoff + h.shnum * 64) image)
        (Bytes.slice (h.strOffset image) (h.strOffset image + h.strSize image) image) (h.strSize image) l).run
        (imageRead image)).isSome ↔
      ∀ i, l.find? (h.Noted image) = some i → 16 ≤ word 8 image (h.place i + 0x20) →
        word 8 image (h.place i + 0x18) ≤ image.length := by
  induction l with
  | nil => simp [findNote, Asking.run_pure]
  | cons i rest ih =>
    obtain ⟨hi, hrest⟩ := List.forall_mem_cons.mp hl
    have hplace : h.place i + 64 ≤ image.length := by unfold Header.place; omega
    have hs : Bytes.slice (i * 64) (i * 64 + 64) (Bytes.slice h.shoff (h.shoff + h.shnum * 64) image) =
        Bytes.slice (h.place i) (h.place i + 64) image := by
      rw [slice_slice (by omega), ← Nat.add_assoc]
      rfl
    have hname : word 4 (Bytes.slice (h.place i) (h.place i + 64) image) 0 = h.nameOf image i := word_slice (by omega)
    have hlen := length_slice hplace
    rw [findNote, Asking.run_bind, range_run (by omega) (by rw [length_slice htable]; omega), Option.bind_some, hs,
      Asking.run_bind, number_run (by omega), Option.bind_some, hname]
    by_cases hout : h.strSize image ≤ h.nameOf image i
    · have hnot : ¬h.Noted image i := fun hn => absurd hn.1 (by omega)
      rw [if_pos hout, ih hrest, List.find?_cons_of_neg (by simpa using hnot)]
    · rw [if_neg hout, Asking.run_bind, range_run (by omega) (Nat.le_of_eq (length_slice hstrings).symm), Option.bind_some,
        slice_slice (Nat.le_refl _)]
      split
      · next hprefix =>
        have hnoted : h.Noted image i := ⟨by omega, List.isPrefixOf_iff_prefix.mp hprefix⟩
        rw [readNote_ends hplace, List.find?_cons_of_pos (by simpa using hnoted)]
        simp
      · next hprefix =>
        have hnot : ¬h.Noted image i := fun hn => hprefix (List.isPrefixOf_iff_prefix.mpr hn.2)
        rw [ih hrest, List.find?_cons_of_neg (by simpa using hnot)]

theorem readSections_ends (hnum : h.shnum ≤ 64) (hstr : h.shstrndx < h.shnum) :
    ((readSections h.shoff h.shnum h.shstrndx).run (imageRead image)).isSome ↔ h.Inside image := by
  rw [readSections, Asking.run_bind, readInto_run (by omega)]
  by_cases hin : h.shoff ≤ image.length
  · rw [if_pos hin, Option.bind_some]
    by_cases htable : h.shoff + h.shnum * 64 ≤ image.length
    · have hplace : h.place h.shstrndx + 64 ≤ image.length := by unfold Header.place; omega
      have hs : Bytes.slice (h.shstrndx * 64) (h.shstrndx * 64 + 64)
          (Bytes.slice h.shoff (h.shoff + h.shnum * 64) image) =
          Bytes.slice (h.place h.shstrndx) (h.place h.shstrndx + 64) image := by
        rw [slice_slice (by omega), ← Nat.add_assoc]
        rfl
      have hlen := length_slice hplace
      have hsize : min (word 8 image (h.place h.shstrndx + 0x20)) 4096 = h.strSize image := rfl
      have hmax : h.strSize image ≤ 4096 := Nat.min_le_right ..
      have hoffset : word 8 image (h.place h.shstrndx + 0x18) = h.strOffset image := rfl
      rw [if_neg (by rw [length_slice htable]; omega), Asking.run_bind,
        range_run (by omega) (by rw [length_slice htable]; omega), Option.bind_some, hs, Asking.run_bind,
        number_run (by omega), Option.bind_some, word_slice (by omega), hoffset, Asking.run_bind,
        number_run (by omega), Option.bind_some, word_slice (by omega)]
      dsimp only
      rw [hsize, Asking.run_bind, readInto_run hmax]
      by_cases hstart : h.strOffset image ≤ image.length
      · rw [if_pos hstart, Option.bind_some]
        by_cases hstrings : h.strOffset image + h.strSize image ≤ image.length
        · rw [if_neg (by rw [length_slice hstrings]; omega),
            findNote_ends htable hstrings _ fun i hi => List.mem_range.mp hi]
          exact ⟨fun hn => ⟨hin, fun _ => hstart, fun _ _ => hn⟩, fun hi => hi.note htable hstrings⟩
        · have hshort : (Bytes.slice (h.strOffset image) (h.strOffset image + h.strSize image) image).length <
              h.strSize image := by
            simp [Bytes.slice]
            omega
          rw [if_pos hshort]
          exact iff_of_true rfl ⟨hin, fun _ => hstart, fun _ hwhole => absurd hwhole hstrings⟩
      · rw [if_neg hstart, Option.bind_none]
        exact iff_of_false (by simp) fun hi => hstart (hi.strings htable)
    · have hshort : (Bytes.slice h.shoff (h.shoff + h.shnum * 64) image).length < h.shnum * 64 := by
        simp [Bytes.slice]
        omega
      rw [if_pos hshort]
      exact iff_of_true rfl
        ⟨hin, fun hwhole => absurd hwhole htable, fun hwhole => absurd hwhole htable⟩
  · rw [if_neg hin, Option.bind_none]
    exact iff_of_false (by simp) fun hi => hin hi.table

theorem requestFlags_ends :
    (requestFlags.run (imageRead image)).isSome ↔ (Sectioned image → (headerOf image).Inside image) := by
  rw [requestFlags, Asking.run_bind, readInto_run (Nat.le_refl _), if_pos (Nat.zero_le _), Option.bind_some]
  by_cases hsize : 64 ≤ image.length
  · have hlen : (Bytes.slice 0 (0 + 64) image).length = 64 := length_slice (by omega)
    have hmagic : Bytes.slice 0 4 (Bytes.slice 0 (0 + 64) image) = image.take 4 := slice_slice (by omega)
    have hword : ∀ n at', at' + n ≤ 64 → word n (Bytes.slice 0 (0 + 64) image) at' = word n image at' := by
      intro n at' hn
      rw [word_slice hn, Nat.zero_add]
    rw [if_neg (by omega), Asking.run_bind, range_run (by omega) (by omega), Option.bind_some, hmagic]
    by_cases helf : image.take 4 = elfMagic
    · rw [if_neg (by simpa using helf)]
      simp only [Asking.run_bind, hlen, number_run, hword, Nat.reduceAdd, Nat.reduceLeDiff, Option.bind_some]
      split
      · next hno =>
        refine iff_of_true rfl fun hs => ?_
        obtain ⟨-, -, hentry, ⟨hpos, hmax⟩, hstr⟩ := hs
        simp only [headerOf] at hpos hmax hstr
        omega
      · next hyes =>
        simp only [not_or, ne_eq, not_not] at hyes
        obtain ⟨hentry, hpos, hmax, hstr⟩ := hyes
        refine (readSections_ends (h := headerOf image) (Nat.le_of_not_lt hmax) (Nat.lt_of_not_le hstr)).trans
          ⟨fun hi _ => hi, fun hi => hi ?_⟩
        exact ⟨hsize, helf, hentry, ⟨Nat.pos_of_ne_zero hpos, Nat.le_of_not_lt hmax⟩, Nat.lt_of_not_le hstr⟩
    · rw [if_pos helf]
      exact iff_of_true rfl fun hs => absurd hs.magic helf
  · have hshort : (Bytes.slice 0 (0 + 64) image).length < 64 := by
      simp [Bytes.slice]
      omega
    rw [if_pos hshort]
    exact iff_of_true rfl fun hs => absurd hs.size hsize

/-! ### Two readers -/

def Agrees (read read' : Reader) : Prop := ∀ at' len b, read at' len = some b → read' at' len = some b

theorem Agrees.run {read read' : Reader} (ha : Agrees read read') {a : α} (h : p.run read = some a) :
    p.run read' = some a := by
  induction p with
  | done b => exact h
  | panics => cases h
  | read at' len next ih =>
    obtain ⟨b, hb, hnext⟩ := Option.bind_eq_some_iff.mp h
    exact Option.bind_eq_some_iff.mpr ⟨b, ha _ _ _ hb, ih b hnext⟩

/-- An offset within an image has all its bits in the file service's 32. -/
theorem imageRead_agrees {answers : Nat → Bool} (hlen : bytes.length ≤ maxImage) (ha : ∀ p, answers p) :
    Agrees (imageRead bytes) (fileRead answers bytes) := by
  intro at' len b hb
  unfold imageRead at hb
  split at hb
  · next hle =>
    have h32 : at' % 2 ^ 32 = at' := Nat.mod_eq_of_lt (by unfold maxImage at hlen; omega)
    rw [fileRead, if_pos (ha at'), h32, hb]
  · cases hb

theorem readImage_ok {memory whole : Bool} {file image : Bytes} (hr : readImage memory whole file = .ok image) :
    image = file ∧ file.length ≤ maxImage := by
  unfold readImage at hr
  split at hr
  · cases hr
  · next hsize =>
    split at hr
    · cases hr
    split at hr
    · cases hr
    split at hr
    · cases hr
    · exact ⟨(Except.ok.inj hr).symm, by omega⟩

/-- A launch ends, with a task or an error, exactly when no offset of a readable image lies past its end; and
what it acts on is what inspection of the same file reports. -/
theorem load_ends_iff (memory whole : Bool) (start : Nat × Nat → Except LoadError Nat)
    (file : Except LoadError Bytes) :
    ((load memory whole start file).isSome ↔
      ∀ image, file.bind (readImage memory whole) = .ok image → Sectioned image →
        (headerOf image).Inside image) ∧
    ∀ flags answers, launchFlags memory whole file = some (.ok flags) → (∀ p, answers p) →
      requests answers file = some (.ok flags.1) ∧ inspect answers file = some (.ok (needs flags.1)) := by
  unfold load launchFlags
  cases hi : file.bind (readImage memory whole) with
  | error e => simp
  | ok image =>
    constructor
    · simp [requestFlags_ends]
    · intro flags answers hf ha
      cases file with
      | error e => cases hi
      | ok bytes =>
        obtain ⟨rfl, hlen⟩ := readImage_ok hi
        have hflags : requestFlags.run (imageRead image) = some flags := by simpa using hf
        have hrun := (imageRead_agrees hlen ha).run hflags
        simp [inspect, requests, hrun, Except.map]

def elfWith (shoff shnum : Nat) : Bytes :=
  elfMagic ++ List.replicate 36 0 ++ Bytes.le 8 shoff ++ List.replicate 10 0 ++ Bytes.le 2 64 ++
    Bytes.le 2 shnum ++ Bytes.le 2 0

def sectionOf (name offset size : Nat) : Bytes :=
  Bytes.le 4 name ++ List.replicate 20 0 ++ Bytes.le 8 offset ++ Bytes.le 8 size ++ List.replicate 24 0

def noted : Bytes :=
  elfWith 64 2 ++ sectionOf 255 192 14 ++ sectionOf 0 206 16 ++ ascii ".mind_request" ++ [0] ++
    ascii "MINDREQ1" ++ Bytes.le 4 33 ++ Bytes.le 4 8

theorem load_ends_noted : launchFlags true true (.ok noted) = some (.ok (33, 8)) ∧
      inspect (fun _ => true) (.ok noted) = some (.ok (needs 33)) :=
  have hflags : launchFlags true true (.ok noted) = some (.ok (33, 8)) := by decide +kernel
  ⟨hflags, ((load_ends_iff true true (fun _ => .ok 1) (.ok noted)).2 _ _ hflags fun _ => rfl).2⟩

/-- The section table starts past the end. -/
theorem load_stops : ∃ file start, load true true start (.ok file) = none ∧
      requests (fun _ => true) (.ok file) = some (.ok 0) :=
  ⟨elfWith 65 1, fun _ => .ok 1, by decide⟩

end MindCore.Loader
