import Mathlib.Data.List.Infix
import Mathlib.Logic.Relation

/-!
# Revoking capabilities

The derivation tree of `kernel/src/scheduler/tree.rs`: the index of the nodes, what is derived,
dropped and swept, and revocations that walk the tree in steps with the lock let go between them.
The children of a node are a list, newest first; that a node is held says that it is in a slot of
some task or a copy in a send.
-/

namespace MindCore.Kernel

open List

def deriveDepthMax : Nat := 64
def revokeStepNodes : Nat := 256

/-- A ghost is removed from its place, and kept for what derives from it. -/
structure Entry where
  parent : Nat
  depth : Nat
  ghost : Bool
  kids : List Nat

/-- A revocation in steps: its root, and the nodes whose children are still to remove, the last
pushed first. -/
structure Revocation where
  root : Nat
  stack : List Nat

/-- `born` is what each node was derived from, 0 for none; `mapped` whether a task has memory mapped
through it. -/
@[ext] structure Caps where
  index : Nat → Option Entry
  held : Nat → Bool
  mapped : Nat → Bool
  born : Nat → Nat
  next : Nat
  revoking : List Nat
  jobs : Nat → Option Revocation

inductive Refusal where
  | revoking
  | limit
deriving DecidableEq

namespace Caps

def put (id : Nat) (e : Option Entry) (s : Caps) : Caps :=
  { s with index := fun i => if i = id then e else s.index i }

def letGo (id : Nat) (s : Caps) : Caps := { s with held := fun i => if i = id then false else s.held i }

/-- Whether anything derives from a node: a child, or a mapping made through it. Mappings through a
root are not kept. -/
def Derived (s : Caps) (id : Nat) (e : Entry) : Prop := e.kids ≠ [] ∨ (e.parent ≠ 0 ∧ s.mapped id = true)

instance (s : Caps) (id : Nat) (e : Entry) : Decidable (s.Derived id e) := inferInstanceAs (Decidable (_ ∨ _))

def link (parent id : Nat) (s : Caps) : Caps :=
  match s.index parent with
  | none => s
  | some p => s.put parent (some { p with kids := id :: p.kids })

def unlinkFrom (parent id : Nat) (s : Caps) : Caps :=
  match s.index parent with
  | none => s
  | some p => s.put parent (some { p with kids := p.kids.filter (· ≠ id) })

def unlink (id : Nat) (s : Caps) : Caps :=
  match s.index id with
  | none => s
  | some e => s.unlinkFrom e.parent id

/-- A root's entry, or a ghost, with nothing left under it; `fuel` bounds the way to the root. -/
def letGoOf : Nat → Nat → Caps → Caps
  | 0, _, s => s
  | fuel + 1, id, s =>
    match s.index id with
    | none => s
    | some e =>
      if s.Derived id e then s
      else if e.ghost = true then letGoOf fuel e.parent ((s.unlink id).put id none)
      else if e.parent = 0 then s.put id none
      else s

def forget (id : Nat) (s : Caps) : Caps :=
  match s.index id with
  | none => s
  | some e =>
    if s.Derived id e then s.put id (some { e with ghost := true })
    else letGoOf id e.parent ((s.unlink id).put id none)

def depthUnder (parent : Nat) (s : Caps) : Nat :=
  if parent = 0 then 0 else ((s.index parent).map fun p => p.depth + 1).getD 1

def enter (id parent : Nat) (s : Caps) : Caps :=
  let s' := s.put id (some ⟨parent, s.depthUnder parent, false, []⟩)
  if parent = 0 then s' else s'.link parent id

def enterSource (id : Nat) (s : Caps) : Caps :=
  match s.index id with
  | none => s.enter id (s.born id)
  | some _ => s

def bear (src : Nat) (s : Caps) : Caps :=
  { s.enter s.next src with
    held := fun i => if i = s.next then true else s.held i
    born := fun i => if i = s.next then src else s.born i
    next := s.next + 1 }

/-- Whether a revocation in progress is met on the way up from a node. -/
def covered (s : Caps) : Nat → Nat → Bool
  | 0, _ => false
  | n + 1, at_ =>
    if at_ ∈ s.revoking then true
    else match s.index at_ with
      | none => false
      | some e => if e.parent = 0 then false else s.covered n e.parent

def deriveRefused (s : Caps) (id : Nat) (copy : Bool) : Option Refusal :=
  if s.covered (deriveDepthMax + 1) id = true then some .revoking
  else if copy = true ∧ deriveDepthMax < ((s.index id).map Entry.depth).getD 0 + 1 then some .limit
  else none

/-- A child visited: removed from its place and its mappings, and a ghost until its own are. -/
def visit (kid : Nat) (s : Caps) : Caps :=
  let s' := (s.unlink kid).letGo kid
  let s' := { s' with mapped := fun i => if i = kid then false else s'.mapped i }
  match s'.index kid with
  | none => s'
  | some e => s'.put kid (some { e with ghost := true })

def kidsOf (s : Caps) (id : Nat) : List Nat := ((s.index id).map Entry.kids).getD []

def leave (root top : Nat) (s : Caps) : Caps :=
  if top = root then letGoOf (top + 1) top s else s.put top none

/-- The loop of `revoke_step`, at most `budget` nodes. -/
def walk : Nat → Nat → Revocation → Caps → Revocation × Caps
  | 0, _, j, s => (j, s)
  | fuel + 1, budget, j, s =>
    if budget = 0 then (j, s)
    else match j.stack with
      | [] => (j, s)
      | top :: rest =>
        match s.kidsOf top with
        | [] => walk fuel budget { j with stack := rest } (s.leave j.root top)
        | kid :: _ => walk fuel (budget - 1) { j with stack := kid :: top :: rest } (s.visit kid)

/-- Every node visited is pushed once and popped once. -/
def revokeStep (j : Revocation) (s : Caps) : Revocation × Caps :=
  walk (j.stack.length + 2 * revokeStepNodes) revokeStepNodes j s

def setJob (cpu : Nat) (j : Option Revocation) (s : Caps) : Caps :=
  { s with jobs := fun c => if c = cpu then j else s.jobs c }

def proceed (cpu : Nat) (j : Revocation) (s : Caps) : Caps :=
  let r := s.revokeStep j
  if r.1.stack = [] then { r.2 with revoking := r.2.revoking.erase j.root }.setJob cpu none
  else r.2.setJob cpu (some r.1)

inductive Act where
  | create
  | derive (src : Nat)
  | map (id : Nat)
  | unmap (id : Nat)
  | drop (id : Nat)
  | sweep (ids : List Nat)
  | revoke (cpu root : Nat)
  | step (cpu : Nat)

def isGhost (s : Caps) (id : Nat) : Bool := ((s.index id).map Entry.ghost).getD false

def act (a : Act) (s : Caps) : Caps :=
  match a with
  | .create => { s with
      held := fun i => if i = s.next then true else s.held i
      born := fun i => if i = s.next then 0 else s.born i
      next := s.next + 1 }
  | .derive src =>
    if s.held src = true ∧ s.deriveRefused src true = none then (s.enterSource src).bear src else s
  | .map id =>
    if s.held id = true then { s with mapped := fun i => if i = id then true else s.mapped i } else s
  | .unmap id => { s with mapped := fun i => if i = id then false else s.mapped i }
  | .drop id => if s.held id = true then forget id (s.letGo id) else s
  | .sweep ids => (ids.filter s.isGhost).foldl (fun s id => letGoOf (id + 1) id s) s
  | .revoke cpu root =>
    if s.held root = true ∧ s.jobs cpu = none then
      proceed cpu ⟨root, [root]⟩ { s with revoking := root :: s.revoking }
    else s
  | .step cpu =>
    match s.jobs cpu with
    | none => s
    | some j => proceed cpu j s

def new : Caps := ⟨fun _ => none, fun _ => false, fun _ => false, fun _ => 0, 1, [], fun _ => none⟩

inductive Under (s : Caps) (r : Nat) : Nat → Prop
  | child {d : Nat} : s.born d = r → r ≠ 0 → Under s r d
  | step {d : Nat} : s.born d ≠ 0 → Under s r (s.born d) → Under s r d

/-- A run of the kernel's calls, each admitted by `P` in the state it meets. -/
inductive Reaches (P : Caps → Act → Prop) : Caps → Prop
  | new : Reaches P new
  | act {s : Caps} (a : Act) : Reaches P s → P s a → Reaches P (s.act a)

theorem Reaches.imp {P Q : Caps → Act → Prop} {s : Caps} (h : Reaches P s) (hpq : ∀ s a, P s a → Q s a) :
    Reaches Q s := by
  induction h with
  | new => exact .new
  | act a _ ha ih => exact ih.act a (hpq _ a ha)

/-- No revocation begins above or below one that is between two of its steps. -/
def Unnested (s : Caps) : Act → Prop
  | .revoke _ root => ∀ c j, s.jobs c = some j → j.root ≠ root ∧ ¬Under s j.root root ∧ ¬Under s root j.root
  | _ => True

/-- The parent of `id` is a ghost that only `id` keeps in the index. -/
def KeptFor (s : Caps) (id : Nat) : Prop := ∃ p, s.index (s.born id) = some p ∧ p.ghost = true ∧
  s.mapped (s.born id) = false ∧ ∀ k ∈ p.kids, k = id

/-- No call lets go of a ghost under the root of a revocation in progress: a node dropped is not the
last that its parent is kept for, from each ghost the sweep meets something derives, and no
revocation begins above or below another. -/
def Gentle (s : Caps) : Act → Prop
  | .drop id => ∀ c j, s.jobs c = some j → Under s j.root (s.born id) → ¬s.KeptFor id
  | .sweep ids => ∀ c j, s.jobs c = some j → ∀ id ∈ ids, Under s j.root id →
    ∀ e, s.index id = some e → e.ghost = true → s.Derived id e
  | a => s.Unnested a

theorem Gentle.unnested {s : Caps} {a : Act} (h : s.Gentle a) : s.Unnested a := by
  cases a with
  | drop _ | sweep _ => trivial
  | create | derive _ | map _ | unmap _ | revoke _ _ | step _ => exact h

end Caps

end MindCore.Kernel
