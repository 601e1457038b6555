import MindCore.Lib.Utf8
import MindCore.Libmind.Dag

/-!
# Directories as objects

`libmind/src/tree.rs`: a directory is one node, its entries sorted by the bytes of their
names, each naming a file or another directory. A tour goes through every block under a
root within a number of steps; the directories on the way down are a stack, each read again
on the way back.
-/

namespace MindCore

structure Counted (B : Type) where
  blocks : B
  left : Nat

namespace Counted

variable {B α : Type}

def lift (x : Proc Dag.Error B α) : Proc Dag.Error (Counted B) α :=
  ⟨fun s => match x.run s.blocks with
    | .ok a b => .ok a { s with blocks := b }
    | .error e b => .error e { s with blocks := b }⟩

instance [Dag.BlockSource B] : Dag.BlockSource (Counted B) where
  get cid len := lift (Dag.BlockSource.get cid len)
  has cid := lift (Dag.BlockSource.has cid)

def step : Proc Dag.Error (Counted B) PUnit := do
  let s ← get
  ensure (0 < s.left) .tooLarge
  set { s with left := s.left - 1 }

def within (steps : Nat) (x : Proc Dag.Error (Counted B) α) : Proc Dag.Error B α :=
  ⟨fun s => match x.run ⟨s, steps⟩ with
    | .ok a t => .ok a t.blocks
    | .error e t => .error e t.blocks⟩

theorem run_lift (x : Proc Dag.Error B α) (s : Counted B) : (lift x).run s = match x.run s.blocks with
      | .ok a b => .ok a { s with blocks := b }
      | .error e b => .error e { s with blocks := b } := rfl

variable {s t : Counted B} {a : α} {x : Proc Dag.Error B α} {e : Dag.Error}

theorem lift_ok (h : (lift x).run s = .ok a t) :
    ∃ b, x.run s.blocks = .ok a b ∧ t = { s with blocks := b } := by
  rw [run_lift] at h
  cases hx : x.run s.blocks with
  | ok a' b =>
    rw [hx] at h
    cases h
    exact ⟨b, rfl, rfl⟩
  | error e b =>
    rw [hx] at h
    exact nomatch h

theorem lift_error (h : (lift x).run s = .error e t) :
    ∃ b, x.run s.blocks = .error e b ∧ t = { s with blocks := b } := by
  rw [run_lift] at h
  cases hx : x.run s.blocks with
  | ok a b =>
    rw [hx] at h
    exact nomatch h
  | error e' b =>
    rw [hx] at h
    cases h
    exact ⟨b, rfl, rfl⟩

theorem step_pos (h : 0 < s.left) : step.run s = .ok ⟨⟩ { s with left := s.left - 1 } := by
  unfold step
  rw [Proc.bind_ok (Proc.run_get s), Proc.ensure_pos h]
  rfl

theorem step_zero (h : ¬0 < s.left) : step.run s = .error .tooLarge s := by
  unfold step
  rw [Proc.bind_ok (Proc.run_get s), Proc.ensure_neg h]
  rfl

theorem step_ok {u : PUnit} (h : step.run s = .ok u t) : 0 < s.left ∧ t = { s with left := s.left - 1 } := by
  by_cases hs : 0 < s.left
  · rw [step_pos hs] at h
    cases h
    exact ⟨hs, rfl⟩
  · rw [step_zero hs] at h
    exact nomatch h

theorem step_error (h : step.run s = .error e t) : t = s := by
  by_cases hs : 0 < s.left
  · rw [step_pos hs] at h
    exact nomatch h
  · rw [step_zero hs] at h
    cases h
    rfl

theorem within_ok {steps : Nat} {x : Proc Dag.Error (Counted B) α} {s t : B}
    (h : (within steps x).run s = .ok a t) : ∃ left, x.run ⟨s, steps⟩ = .ok a ⟨t, left⟩ := by
  change (match x.run ⟨s, steps⟩ with
    | .ok a t => .ok a t.blocks
    | .error e t => .error e t.blocks) = Outcome.ok a t at h
  cases hx : x.run ⟨s, steps⟩ with
  | ok a' m =>
    rw [hx] at h
    cases h
    exact ⟨m.left, rfl⟩
  | error e m =>
    rw [hx] at h
    exact nomatch h

theorem state_within (steps : Nat) (x : Proc Dag.Error (Counted B) α) (s : B) :
    ((within steps x).run s).state = (x.run ⟨s, steps⟩).state.blocks := by
  change (match x.run ⟨s, steps⟩ with
    | .ok a t => Outcome.ok a t.blocks
    | .error e t => .error e t.blocks).state = _
  cases x.run ⟨s, steps⟩ <;> rfl

end Counted

namespace Tree

open Dag (Error BlockSource chunk)

def version : Nat := 1
def nameMax : Nat := 255
def entryMin : Nat := 1 + 2 + 1 + 1 + Dag.linkBytes
def maxEntries : Nat := chunk / entryMin
def depth : Nat := 32

inductive Kind where
  | file
  | directory
deriving DecidableEq, Repr

namespace Kind

def code : Kind → Nat
  | .file => 0
  | .directory => 1

def fromCode (code : Nat) : Option Kind :=
  if code = 0 then some .file else if code = 1 then some .directory else none

end Kind

structure Entry where
  name : Bytes
  kind : Kind
  size : Nat
  cid : Cid
deriving DecidableEq

/-- Whether `name` may name an entry: neither empty nor too long, UTF-8 without `/` or NUL,
neither `.` nor `..`. -/
def validName (name : Bytes) : Bool :=
  1 ≤ name.length && name.length ≤ nameMax && utf8 name && name.all (fun b => b ≠ 0x2f && b ≠ 0) &&
    name ≠ [0x2e] && name ≠ [0x2e, 0x2e]

def Entry.valid (e : Entry) : Bool := validName e.name && (e.kind = .file || e.cid.codec = .dagCbor)

def keyV : Bytes := [0x76]
def keyEntries : Bytes := [0x65, 0x6e, 0x74, 0x72, 0x69, 0x65, 0x73]

def encodeEntry (e : Entry) : Bytes :=
  Sink.head 4 4 ++ Sink.head 3 e.name.length ++ e.name ++ Sink.head 0 e.kind.code ++
    Sink.head 0 e.size ++ Sink.link e.cid

def encodeWith (entries : List Entry) : Bytes :=
  Sink.head 5 2 ++ Sink.text keyV ++ Sink.head 0 version ++ Sink.text keyEntries ++
    Sink.head 4 entries.length ++ entries.flatMap encodeEntry

/-- Whether the names of `entries` go up from `last`, each name once. -/
def ascending (last : Bytes) : List Entry → Bool
  | [] => true
  | e :: es => last < e.name && ascending e.name es

def sorted : List Entry → Bool
  | [] => true
  | e :: es => ascending e.name es

/-- Encodes a directory; entries that make no valid one are refused, and so is a directory over
a block. -/
def encode (entries : List Entry) : Except Error Bytes := do
  ensure (entries.all Entry.valid ∧ sorted entries) .format
  ensure ((encodeWith entries).length ≤ chunk) .tooLarge
  .ok (encodeWith entries)

def entry (i : Bytes) : Except Error (Entry × Bytes) := do
  let (fields, i) ← In.expect 4 i
  ensure (fields = 4) .format
  let (len, i) ← In.expect 3 i
  let (name, i) ← In.take len i
  let (code, i) ← In.expect 0 i
  let kind ← orError (Kind.fromCode code) .format
  let (size, i) ← In.expect 0 i
  let (cid, i) ← In.link i
  ensure (Entry.valid ⟨name, kind, size, cid⟩) .format
  .ok (⟨name, kind, size, cid⟩, i)

/-- Reads `count` entries, sorted by their names' bytes, each name once. -/
def readEntries : Nat → Bytes → Bytes → Except Error (List Entry × Bytes)
  | 0, _, i => .ok ([], i)
  | count + 1, last, i => do
    let (e, i) ← entry i
    ensure (last < e.name) .format
    let (es, i) ← readEntries count e.name i
    .ok (e :: es, i)

/-- Decodes a directory, only if it is exactly the canonical encoding of this schema. -/
def decode (bytes : Bytes) : Except Error (List Entry) := do
  ensure (bytes.length ≤ chunk) .tooLarge
  let (keys, i) ← In.expect 5 bytes
  let i ← In.key keyV i
  let (v, i) ← In.expect 0 i
  ensure (v = version) .version
  ensure (keys = 2) .format
  let i ← In.key keyEntries i
  let (count, i) ← In.expect 4 i
  ensure (count ≤ maxEntries) .format
  let (entries, rest) ← readEntries count [] i
  ensure (rest = []) .format
  ensure (encodeWith entries = bytes) .format
  .ok entries

def empty : Bytes := [0xa2, 0x61, 0x76, 0x01, 0x67, 0x65, 0x6e, 0x74, 0x72, 0x69, 0x65, 0x73, 0x80]

section Tours
variable [Sha256] {B : Type} [BlockSource B]

def entries (cid : Cid) : Proc Error B (Option Nat) :=
  if cid.codec = .dagCbor then do
    let data ← Dag.fetch cid
    match decode data with
    | .ok dir => return some dir.length
    | .error _ => return none
  else pure none

def file (whole : Bool) (visit : Cid → Proc Error B PUnit) (cid : Cid) : Proc Error B Nat :=
  if whole then Dag.walk cid visit else Dag.size cid

/-- A file an entry names. A directory where a file belongs is out of shape. -/
def fileAt (whole : Bool) (visit : Cid → Proc Error B PUnit) (cid : Cid) : Proc Error B Nat := do
  let held ← Proc.attempt (file whole visit cid)
  match held with
  | .ok held => return held
  | .error e =>
    if e = .format then do
      let dir ← Proc.attempt (entries cid)
      match dir with
      | .ok (some _) => throw .shape
      | _ => throw e
    else throw e

/-- A directory on the way down. A file's node where a directory belongs is out of shape. -/
def directory (data : Bytes) : Except Error (List Entry) :=
  match decode data with
  | .error e =>
    if e = .format then
      match Dag.decode data with
      | .ok _ => .error .shape
      | .error _ => .error e
    else .error e
  | .ok dir => .ok dir

/-- The loop of `tour` over the directories from the root down, the lowest first: each one's
CID, the entries its parent says it has, the next entry. A round takes a step or leaves a
directory, so twice the steps and the depth are enough rounds. -/
def tourFrom (whole : Bool) (visit : Cid → Proc Error (Counted B) PUnit) :
    Nat → List (Cid × Nat × Nat) → Nat → Proc Error (Counted B) Nat
  | 0, _, _ => throw .tooLarge
  | _ + 1, [], total => pure total
  | rounds + 1, (cid, count, next) :: above, total => do
    let data ← Dag.fetch cid
    let dir ← Proc.ofExcept (directory data)
    ensure (dir.length = count) .shape
    match dir[next]? with
    | none => tourFrom whole visit rounds above total
    | some e => do
      Counted.step
      match e.kind with
      | .file => do
        let held ← fileAt whole visit e.cid
        ensure (held = e.size) .shape
        ensure (total + e.size < 2 ^ 64) .tooLarge
        tourFrom whole visit rounds ((cid, count, next + 1) :: above) (total + e.size)
      | .directory => do
        ensure (above.length + 1 < depth) .shape
        visit e.cid
        tourFrom whole visit rounds ((e.cid, e.size, 0) :: (cid, count, next + 1) :: above) total

def stepped (visit : Cid → Proc Error B PUnit) (cid : Cid) : Proc Error (Counted B) PUnit := do
  Counted.step
  Counted.lift (visit cid)

def tour (whole : Bool) (root : Cid) (visit : Cid → Proc Error B PUnit) : Proc Error (Counted B) Nat := do
  let count ← entries root
  match count with
  | none => file whole (stepped visit) root
  | some count => do
    stepped visit root
    let s ← get
    tourFrom whole (stepped visit) (2 * s.left + 3) [(root, count, 0)] 0

/-- Visits every block under `root`, a file or a directory, within the steps left: the bytes
of the files under it. -/
def walkFrom (root : Cid) (visit : Cid → Proc Error B PUnit) : Proc Error (Counted B) Nat :=
  tour true root visit

def walk (root : Cid) (steps : Nat) (visit : Cid → Proc Error B PUnit) : Proc Error B Nat :=
  Counted.within steps (walkFrom root visit)

end Tours

end Tree

end MindCore
