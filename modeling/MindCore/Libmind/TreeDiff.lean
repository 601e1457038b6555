import MindCore.Libmind.Tree

/-!
# Comparing two directory trees

`libmind/src/tree.rs`, `diff`: two trees are gone through side by side, the directories gone
into a stack of pairs, and each path where they differ is visited. Both directories of a pair
are read again on the way back up.
-/

namespace MindCore.Tree

open Dag (Error BlockSource)

def pathMax : Nat := depth * (nameMax + 1)

structure Side where
  kind : Kind
  size : Nat
  cid : Cid
deriving DecidableEq

def Entry.side (e : Entry) : Side := ⟨e.kind, e.size, e.cid⟩

inductive Change where
  | added (side : Side)
  | removed (side : Side)
  | changed (before after : Side)
deriving DecidableEq

/-- A directory being compared: its CID on each side, the entries its parent says it has, the
next entry of each side, and the length of its path. -/
structure Pair where
  cid : Option Cid × Option Cid
  count : Option Nat × Option Nat
  next : Nat × Nat
  path : Nat

/-- What a comparison works on: the store and the steps left, the path buffer, and whatever
`visit` keeps. -/
structure Comparing (B V : Type) where
  store : Counted B
  path : Bytes
  seen : V

namespace Comparing

variable {B V α : Type}

def onStore (x : Proc Error (Counted B) α) : Proc Error (Comparing B V) α :=
  ⟨fun s => match x.run s.store with
    | .ok a t => .ok a { s with store := t }
    | .error e t => .error e { s with store := t }⟩

theorem run_onStore (x : Proc Error (Counted B) α) (s : Comparing B V) :
    (onStore x).run s = match x.run s.store with
      | .ok a t => .ok a { s with store := t }
      | .error e t => .error e { s with store := t } := rfl

def onSeen (x : Proc Error V α) : Proc Error (Comparing B V) α :=
  ⟨fun s => match x.run s.seen with
    | .ok a t => .ok a { s with seen := t }
    | .error e t => .error e { s with seen := t }⟩

end Comparing

/-- `buffer[at..at + data.len()].copy_from_slice(data)`, within the buffer. -/
def write (buffer : Bytes) (at_ : Nat) (data : Bytes) : Bytes :=
  buffer.take at_ ++ data ++ buffer.drop (at_ + data.length)

/-- Where the name of an entry of the directory whose path ends at `path` starts. -/
def Pair.start (pair : Pair) : Nat := pair.path + if 0 < pair.path then 1 else 0

section Diff
variable [Sha256] {B V : Type} [BlockSource B]

/-- The directory `cid` names, the empty tree for none; a read is a step. -/
def side (cid : Option Cid) (count : Option Nat) : Proc Error (Counted B) (List Entry) :=
  match cid with
  | none => Proc.ofExcept (decode empty)
  | some cid => do
    Counted.step
    ensure (cid.codec = .dagCbor) .shape
    let data ← Dag.fetch cid
    let dir ← Proc.ofExcept (directory data)
    ensure (∀ n ∈ count, n = dir.length) .shape
    return dir

/-- The path of the entry `name` of `pair` into the buffer; where it ends. -/
def enter (pair : Pair) (name : Bytes) : Proc Error (Comparing B V) Nat := do
  let s ← get
  let end_ := pair.start + name.length
  ensure (end_ ≤ s.path.length) .tooLarge
  let path := if 0 < pair.path then write s.path pair.path [0x2f] else s.path
  set { s with path := write path pair.start name }
  return end_

def visitAt (visit : Bytes → Change → Proc Error V PUnit) (pair : Pair) (name : Bytes)
    (change : Change) : Proc Error (Comparing B V) PUnit := do
  let end_ ← enter pair name
  let s ← get
  Comparing.onSeen (visit (s.path.take end_) change)

/-- The inner loop of `diff` over the entries of a pair from `i` and `j` on, until two
directories are to be gone into: those, with the end of their path. Each round takes an entry,
so as many rounds as entries are enough. -/
def compareFrom (visit : Bytes → Change → Proc Error V PUnit) (pair : Pair) (level : Nat)
    (one two : List Entry) : Nat → Nat → Nat → Nat →
    Proc Error (Comparing B V) (Option (Entry × Entry × Nat) × Nat × Nat × Nat)
  | 0, i, j, changes => pure (none, i, j, changes)
  | rounds + 1, i, j, changes =>
    match one[i]?, two[j]? with
    | none, none => pure (none, i, j, changes)
    | some x, some y => do
      Comparing.onStore Counted.step
      if x.name = y.name then
        if x.side = y.side then compareFrom visit pair level one two rounds (i + 1) (j + 1) changes
        else if x.kind = .directory ∧ y.kind = .directory then do
          let end_ ← enter pair x.name
          ensure (level < depth) .shape
          return (some (x, y, end_), i + 1, j + 1, changes)
        else do
          visitAt visit pair x.name (.changed x.side y.side)
          compareFrom visit pair level one two rounds (i + 1) (j + 1) (changes + 1)
      else if y.name < x.name then do
        visitAt visit pair y.name (.added y.side)
        compareFrom visit pair level one two rounds i (j + 1) (changes + 1)
      else do
        visitAt visit pair x.name (.removed x.side)
        compareFrom visit pair level one two rounds (i + 1) j (changes + 1)
    | some x, none => do
      Comparing.onStore Counted.step
      visitAt visit pair x.name (.removed x.side)
      compareFrom visit pair level one two rounds (i + 1) j (changes + 1)
    | none, some y => do
      Comparing.onStore Counted.step
      visitAt visit pair y.name (.added y.side)
      compareFrom visit pair level one two rounds i (j + 1) (changes + 1)

/-- After the inner loop: down into two directories of `pair`, or up. -/
def turn (next : List Pair → Nat → Proc Error (Comparing B V) Nat) (pair : Pair) (above : List Pair) :
    Option (Entry × Entry × Nat) × Nat × Nat × Nat → Proc Error (Comparing B V) Nat
  | (none, _, _, changes) => next above changes
  | (some (x, y, end_), i, j, changes) =>
    next (⟨(some x.cid, some y.cid), (some x.size, some y.size), (0, 0), end_⟩ ::
      { pair with next := (i, j) } :: above) changes

/-- The loop of `diff` over the pairs from the roots down, the lowest first. A round reads a
directory, so a round more than the steps are enough. -/
def diffFrom (visit : Bytes → Change → Proc Error V PUnit) :
    Nat → List Pair → Nat → Proc Error (Comparing B V) Nat
  | _, [], changes => pure changes
  | 0, _ :: _, _ => throw .tooLarge
  | rounds + 1, pair :: above, changes => do
    let one ← Comparing.onStore (side pair.cid.1 pair.count.1)
    let two ← Comparing.onStore (side pair.cid.2 pair.count.2)
    let stopped ← compareFrom visit pair (above.length + 1) one two (one.length + two.length)
      pair.next.1 pair.next.2 changes
    turn (diffFrom visit rounds) pair above stopped

/-- Compares the trees under `a` and `b`, each a directory or none, and visits each path where
they differ. Returns the changes visited; an error of `visit` ends it. -/
def diff (a b : Option Cid) (visit : Bytes → Change → Proc Error V PUnit) : Proc Error (Comparing B V) Nat :=
  if a = b then pure 0
  else do
    let s ← get
    diffFrom visit (s.store.left + 1) [⟨(a, b), (none, none), (0, 0), 0⟩] 0

end Diff

end MindCore.Tree
