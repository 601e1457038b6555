import MindCore.Kernel.Select

/-!
# Capabilities and messages

The system calls that pass capabilities and messages between tasks: `IPC_SEND`, `IPC_CALL`, `IPC_RECV`,
`IPC_REPLY`, `IPC_SAVE_REPLY`, `CAP_MINT`, `CAP_DROP`, `CAP_REVOKE` node by node, `ENDPOINT_CREATE`, the
grants of a spawn, the memory calls, exits, timeouts and the reaper. A task's table is a list of its
occupied slots; a handle is the index it names. `made`, `origin` and `log` are no fields of the
kernel: they remember what a node was made as, what it was derived from, and what was reported.
-/

namespace MindCore.Kernel.Ipc

open Sched (State newEndpoint)

/-! ### Capabilities -/

/-- The rights of a capability, or a mask of them: `CAP_READ`, `CAP_WRITE`, `CAP_GRANT`, `CAP_KEEP`,
`CAP_BADGE`. -/
structure Rights where
  read : Bool
  write : Bool
  grant : Bool
  keep : Bool
  badge : Bool
  deriving DecidableEq, Repr

def Rights.meet (a b : Rights) : Rights :=
  ⟨a.read && b.read, a.write && b.write, a.grant && b.grant, a.keep && b.keep, a.badge && b.badge⟩

/-- A keeper may mint a child with the read right. -/
def Rights.kept (r : Rights) : Rights := { r with read := r.read || r.keep }

def endpointAll : Rights := ⟨true, true, true, true, true⟩

def memoryAll : Rights := ⟨true, true, true, false, false⟩

inductive Privilege where
  | input
  | display
  | spawn
  | control
  | observe
  | firmware
  deriving DecidableEq, Repr

inductive Capability where
  | endpoint (id : Nat) (rights : Rights) (badge : Nat)
  | memory (base size : Nat) (rights : Rights)
  | dma (base size : Nat)
  | mmio (base size : Nat)
  | ioPorts (base count : Nat)
  | interrupt (line : Nat)
  | privilege (kind : Privilege)
  | escrow (kind : Privilege)
  | platform
  | restart
  | reply (slot pid seq : Nat)
  | text (slot pid : Nat)
  deriving DecidableEq, Repr

def badgeMax : Nat := 0xFFFF

def page : Nat := 4096

/-- The sub-range of `CAP_MINT`: the rest of the range for length 0. -/
def subRange (base size align offset length : Nat) : Option (Nat × Nat) :=
  let length := if length = 0 then size - offset else length
  if offset ≤ size ∧ offset % align = 0 ∧ length % align = 0 ∧ 0 < length ∧ offset + length ≤ size then
    some (base + offset, length)
  else none

def mint (cap : Capability) (mask : Rights) (offset length badge : Nat) : Option Capability :=
  match cap with
  | .endpoint id rights old =>
    if badge ≤ badgeMax ∧ (badge = 0 ∨ old = badge ∨ old = 0 ∧ rights.badge) then
      let badge := if old ≠ 0 then old else badge
      let rights := rights.kept.meet mask
      some (.endpoint id (if badge ≠ 0 then { rights with badge := false } else rights) badge)
    else none
  | .ioPorts base count =>
    (subRange base count 1 offset length).map fun r => .ioPorts r.1 r.2
  | .memory base size rights =>
    -- without grant only a read-only child: the writable owner stays unique
    let allowed := if rights.grant then rights else { rights with write := false }
    (subRange base size page offset length).map fun r => .memory r.1 r.2 (allowed.meet mask)
  | .dma base size => (subRange base size page offset length).map fun r => .dma r.1 r.2
  | .mmio base size => (subRange base size page offset length).map fun r => .mmio r.1 r.2
  | .reply _ _ _ => none
  | other => some other

def moveOnly : Capability → Bool
  | .memory _ _ r => r.write && !r.grant
  | _ => false

def overlaps (cap : Capability) (base size : Nat) : Bool :=
  match cap with
  | .memory p s _ | .dma p s => decide (p < base + size) && decide (base < p + s)
  | _ => false

/-! ### Tasks -/

structure Node where
  id : Nat
  parent : Nat
  deriving DecidableEq, Repr

structure Slot where
  index : Nat
  cap : Capability
  node : Node
  deriving DecidableEq, Repr

structure Pending where
  cap : Capability
  node : Node
  movedFrom : Option Nat
  deriving DecidableEq, Repr

structure Call where
  slot : Nat
  pid : Nat
  seq : Nat
  deriving DecidableEq, Repr

structure Mapping where
  base : Nat
  size : Nat
  writable : Bool
  node : Nat
  deriving DecidableEq, Repr

structure Task where
  pid : Nat
  service : Bool
  state : State
  table : List Slot
  pending : Option Pending
  pendingCall : Bool
  pendingBadge : Nat
  sendSeq : Nat
  replyTo : Option Call
  callSeq : Nat
  /-- The IPC it waits in has a deadline. -/
  timed : Bool
  /-- The slot its mailbox names for a capability that arrives. -/
  receive : Nat
  watch : Option Nat
  maps : List Mapping
  deriving DecidableEq, Repr

def slotDynamic : Nat := 43

/-- A fixed slot, which a message may put a capability into. -/
def fixed (index : Nat) : Bool := decide (1 ≤ index) && decide (index < slotDynamic)

namespace Task

def cap (t : Task) (index : Nat) : Option Slot := t.table.find? fun x => x.index == index

def clear (t : Task) (index : Nat) : Task := { t with table := t.table.filter fun x => x.index != index }

def put (t : Task) (x : Slot) : Task := { t with table := x :: t.table }

def madeFrom (t : Task) (id : Nat) : Bool := t.maps.any fun m => m.node == id

def free (t : Task) (index : Nat) : Bool := decide (slotDynamic ≤ index) && (t.cap index).isNone

def reads (t : Task) (ep : Nat) : Bool :=
  t.state != .exited && t.table.any fun x => match x.cap with
    | .endpoint id rights _ => id == ep && rights.read
    | _ => false

def holds (t : Task) (cap : Capability) : Bool := t.table.any fun x => x.cap == cap

def names (t : Task) (ep : Nat) : Bool :=
  let name (c : Capability) : Bool := match c with
    | .endpoint id _ _ => id == ep
    | _ => false
  t.table.any (fun x => name x.cap) || match t.pending with
    | some p => name p.cap
    | none => false

def waiting (t : Task) : Bool :=
  match t.state with
  | .blockedSend _ | .blockedRecv _ | .blockedReply _ => true
  | _ => false

def calling (t : Task) : Bool :=
  match t.state with
  | .blockedSend _ => t.pendingCall
  | .blockedReply _ => true
  | _ => false

end Task

/-- The task table: no task lies past its end. -/
structure Table where
  get : Nat → Option Task
  len : Nat
  bound : ∀ i, len ≤ i → get i = none

instance : CoeFun Table fun _ => Nat → Option Task := ⟨Table.get⟩

namespace Table

def set (s : Table) (slot : Nat) (t : Task) : Table where
  get := Function.update s.get slot (some t)
  len := max s.len (slot + 1)
  bound i hi := by
    rw [Function.update_of_ne (by omega)]
    exact s.bound i (by omega)

def modify (s : Table) (slot : Nat) (f : Task → Task) : Table where
  get := Function.update s.get slot ((s slot).map f)
  len := s.len
  bound i hi := by
    by_cases h : i = slot
    · subst h
      rw [Function.update_self, s.bound i hi]
      rfl
    · rw [Function.update_of_ne h]
      exact s.bound i hi

def map (s : Table) (f : Task → Task) : Table where
  get i := (s i).map f
  len := s.len
  bound i hi := by rw [s.bound i hi]; rfl

def keep (s : Table) (p : Nat → Task → Bool) : Table where
  get i := (s i).filter (p i)
  len := s.len
  bound i hi := by rw [s.bound i hi]; rfl

def any (s : Table) (p : Task → Bool) : Bool := (List.range s.len).any fun i => (s i).any p

variable {i slot : Nat} {s : Table}

@[simp] theorem set_self (s : Table) (slot : Nat) (t : Task) : s.set slot t slot = some t :=
  Function.update_self ..

theorem set_of_ne (s : Table) (h : i ≠ slot) (t : Task) : s.set slot t i = s i := Function.update_of_ne h ..

@[simp] theorem modify_self (s : Table) (slot : Nat) (f : Task → Task) :
    s.modify slot f slot = (s slot).map f :=
  Function.update_self ..

theorem modify_of_ne (s : Table) (h : i ≠ slot) (f : Task → Task) : s.modify slot f i = s i :=
  Function.update_of_ne h ..

theorem lt_len {t : Task} (h : s i = some t) : i < s.len := by
  by_contra hi
  rw [s.bound i (by omega)] at h
  cases h

theorem any_iff {p : Task → Bool} : s.any p = true ↔ ∃ i t, s i = some t ∧ p t = true := by
  simp only [any, List.any_eq_true, List.mem_range, Option.any_eq_true]
  constructor
  · rintro ⟨i, -, t, ht, hp⟩
    exact ⟨i, t, ht, hp⟩
  · rintro ⟨i, t, ht, hp⟩
    exact ⟨i, lt_len ht, t, ht, hp⟩

end Table

structure Binding where
  line : Nat
  ep : Nat
  slot : Nat
  pid : Nat
  pending : Bool
  deriving DecidableEq, Repr

structure Notice where
  ep : Nat
  pid : Nat
  reason : Nat
  deriving DecidableEq, Repr

inductive Outcome where
  | reply (server : Nat)
  | peer
  | timeout
  deriving DecidableEq, Repr

inductive Event where
  /-- The sender's message came to the receiver, through endpoint `ep`. -/
  | message (sender receiver ep : Nat)
  /-- The task was told that a capability is in its slot `receive`: `msg[0] = 1`. -/
  | arrived (slot receive : Nat) (cap : Capability)
  /-- The task in `slot` made a call: its send `call`. -/
  | called (slot call : Nat)
  /-- The server received the call of the client in `slot`, and may reply to `slot`, `pid`, `seq`. -/
  | received (server slot pid seq call : Nat)
  /-- The call of the client in `slot` ended. -/
  | answer (slot call : Nat) (outcome : Outcome)
  /-- The client ended in its call. -/
  | gone (slot call : Nat)
  deriving DecidableEq, Repr

structure System where
  tasks : Table
  endpoints : Nat → Bool
  endpointsLen : Nat
  bindings : List Binding
  exits : List Notice
  sendSeq : Nat
  nextNode : Nat
  nextPid : Nat
  revoking : List Nat
  /-- The memory objects made by `MEM_DETACH` that are not freed: base, size and root node. -/
  objects : List (Nat × Nat × Nat)
  made : Nat → Option Capability
  origin : Nat → Option (Nat × Capability)
  log : List Event

def exitNoticesMax : Nat := 16

def irqSharers : Nat := 4

namespace System

def set (s : System) (slot : Nat) (t : Task) : System := { s with tasks := s.tasks.set slot t }

def modify (s : System) (slot : Nat) (f : Task → Task) : System := { s with tasks := s.tasks.modify slot f }

section
variable {s : System} {slot i : Nat} {u : Task}

theorem set_some {t : Task} (h : (s.set slot t).tasks i = some u) :
    slot = i ∧ u = t ∨ i ≠ slot ∧ s.tasks i = some u := by
  by_cases hi : i = slot
  · subst hi
    simp only [set, Table.set_self, Option.some.injEq] at h
    exact .inl ⟨rfl, h.symm⟩
  · simp only [set, Table.set_of_ne _ hi] at h
    exact .inr ⟨hi, h⟩

end

def tell (s : System) (e : Event) : System := { s with log := e :: s.log }

def tellIf (s : System) (b : Bool) (e : Event) : System := { s with log := if b then e :: s.log else s.log }

def running (s : System) (slot : Nat) : Option Task := (s.tasks slot).filter fun t => t.state == .ready

def inState (s : System) (state : State) (slot : Nat) : Bool :=
  match s.tasks slot with
  | some t => t.state == state
  | none => false

def blocked (s : System) (state : State) : Option Nat := (List.range s.tasks.len).find? (s.inState state)

def receivable (s : System) (ep : Nat) : Bool :=
  s.tasks.any (fun t => t.reads ep) || s.bindings.any fun b => b.ep == ep

/-! ### Nodes -/

def root (s : System) (cap : Capability) : System × Node :=
  let id := s.nextNode + 1
  ({ s with nextNode := id, made := Function.update s.made id (some cap) }, ⟨id, 0⟩)

def child (s : System) (source : Slot) (cap : Capability) : System × Node :=
  let id := s.nextNode + 1
  ({ s with
     nextNode := id
     made := Function.update s.made id (some cap)
     origin := Function.update s.origin id (some (source.node.id, source.cap)) },
   ⟨id, source.node.id⟩)

def derives (s : System) (root : Nat) : Nat → Nat → Bool
  | 0, id => id == root
  | fuel + 1, id => id == root || match s.origin id with
    | some (parent, _) => derives s root fuel parent
    | none => false

def covered (s : System) (id : Nat) : Bool := s.revoking.any fun root => s.derives root s.nextNode id

/-! ### Transfers -/

structure Mask where
  rights : Rights
  move : Bool
  deriving DecidableEq, Repr

/-- A capability named for a transfer, and whether the tree is full or too deep for a copy of it. The
node of a slot stays when it is emptied: `stale` is what an empty slot had last. -/
structure Named where
  index : Nat
  mask : Mask
  deny : Bool
  stale : Nat
  deriving DecidableEq, Repr

/-- What a transfer hands over of a capability: the rights of an endpoint are narrowed. -/
def handed (cap : Capability) (mask : Mask) : Option Capability :=
  match cap with
  | .endpoint id rights badge => some (.endpoint id (rights.meet mask.rights) badge)
  | .reply _ _ _ => none
  | other => some other

def isMemory : Capability → Bool
  | .memory _ _ _ => true
  | _ => false

def transfer (s : System) (t : Task) (n : Named) : System × Option Pending :=
  match t.cap n.index with
  | none => (s, none)
  | some x =>
    match handed x.cap n.mask with
    | none => (s, none)
    | some cap =>
      if moveOnly cap && !n.mask.move then (s, none)
      -- a memory capability moves only unmapped: the mapping would stay a second owner
      else if n.mask.move && isMemory cap && t.madeFrom x.node.id then (s, none)
      else if n.mask.move then (s, some ⟨cap, x.node, some n.index⟩)
      else
        let (s, node) := s.child x cap
        (s, some ⟨cap, node, none⟩)

def offer (s : System) (t : Task) : Option Named → System × Option Pending
  | some n => s.transfer t n
  | none => (s, none)

def copyRefused (t : Task) (n : Named) : Bool :=
  !n.mask.move && match t.cap n.index with
    | some x => moveOnly x.cap
    | none => false

def transferRefused (s : System) (t : Task) (n : Named) : Bool :=
  let id := match t.cap n.index with
    | some x => x.node.id
    | none => n.stale
  s.covered id || !n.mask.move && n.deny

/-- Places a transferred capability in a fixed slot; a move empties the sender's slot if it still holds
it, and does nothing otherwise. -/
def place (s : System) (sender receiver receive : Nat) (p : Pending) : System :=
  let arrive (r : Task) : Task := (r.clear receive).put ⟨receive, p.cap, p.node⟩
  match p.movedFrom with
  | none => s.modify receiver arrive
  | some index =>
    match (s.tasks sender).bind fun t => t.cap index with
    | some x =>
      if x.node.id = p.node.id then
        (s.modify sender fun t => t.clear index).modify receiver arrive
      else s
    | none => s

/-! ### Messages -/

def awaitsReply (s : System) (c : Call) (server : Nat) : Bool :=
  match s.tasks c.slot with
  | some t => t.pid == c.pid && t.callSeq == c.seq && t.state == .blockedReply server
  | none => false

def fail (s : System) (slot : Nat) (outcome : Outcome) : System :=
  match s.tasks slot with
  | some t => (s.set slot { t with state := .ready }).tell (.answer slot t.sendSeq outcome)
  | none => s

def handOver (s : System) (sender receiver : Nat) (p : Option Pending) (receive : Nat) : System :=
  match p with
  | some p =>
    if fixed receive then
      (s.place sender receiver receive p).tell (.arrived receiver receive p.cap)
    else s
  | none => s

/-- The receiver of a call may answer it; the client of the reply it has pending gets no other answer. -/
def takeCall (sender receiver : Nat) (f r : Task) (s : System) : System :=
  let seq := f.callSeq + 1
  let s := s.modify sender fun f => { f with callSeq := seq }
  let s := s.modify receiver fun r => { r with replyTo := some ⟨sender, f.pid, seq⟩ }
  let s := match r.replyTo with
    | some c => if s.awaitsReply c receiver then s.fail c.slot .peer else s
    | none => s
  (s.modify sender fun f => { f with state := .blockedReply receiver }).tell
    (.received receiver sender f.pid seq f.sendSeq)

def deliver (ep sender receiver : Nat) (s : System) : System :=
  match s.tasks sender, s.tasks receiver with
  | some f, some r =>
    let s := (s.set sender { f with pending := none }).tell (.message sender receiver ep)
    let s := s.handOver sender receiver f.pending r.receive
    let s := s.modify receiver fun r => { r with state := .ready }
    if f.pendingCall then s.takeCall sender receiver f r
    else s.modify sender fun f => { f with state := .ready }
  | _, _ => s

structure SendRequest where
  endpoint : Nat
  call : Bool
  transfer : Option Named
  receive : Nat
  timed : Bool
  deriving DecidableEq, Repr

def endpointOf (t : Task) (index : Nat) : Option (Nat × Rights × Nat) :=
  match (t.cap index).map Slot.cap with
  | some (.endpoint ep rights badge) => some (ep, rights, badge)
  | _ => none

def compose (q : SendRequest) (badge slot : Nat) (pending : Option Pending) (s : System) : System :=
  let call := s.sendSeq + 1
  let s := { s with sendSeq := call }.modify slot fun t =>
    { t with
      pending := pending
      pendingCall := q.call
      pendingBadge := badge
      sendSeq := call
      timed := q.timed
      receive := q.receive }
  s.tellIf q.call (.called slot call)

def ipcSend (q : SendRequest) (slot : Nat) (t : Task) (s : System) : System :=
  match endpointOf t q.endpoint with
  | none => s
  | some (ep, rights, badge) =>
    let receiver := s.blocked (.blockedRecv ep)
    if !rights.write || receiver.isNone && !s.receivable ep || q.transfer.any (copyRefused t) ||
        rights.grant && q.transfer.any (s.transferRefused t) then s
    else
      let (s, pending) := s.offer t (if rights.grant then q.transfer else none)
      let s := s.compose q badge slot pending
      match receiver with
      | some r => s.deliver ep slot r
      | none => s.modify slot fun t => { t with state := .blockedSend ep }

def firstSender (s : System) (ep : Nat) : Option Nat :=
  ((List.range s.tasks.len).filter (s.inState (.blockedSend ep))).foldl (fun best i =>
    match best with
    | none => some i
    | some j => if ((s.tasks i).map Task.sendSeq).getD 0 < ((s.tasks j).map Task.sendSeq).getD 0 then some i
      else some j) none

def takeIrq (ep : Nat) : List Binding → List Binding
  | [] => []
  | b :: rest => if b.ep = ep ∧ b.pending then { b with pending := false } :: rest else b :: takeIrq ep rest

def ipcRecv (index receive : Nat) (timed : Bool) (slot : Nat) (t : Task) (s : System) : System :=
  match endpointOf t index with
  | none => s
  | some (ep, rights, _) =>
    if !rights.read then s
    else
      let s := s.modify slot fun t => { t with receive := receive }
      if s.bindings.any fun b => b.ep == ep && b.pending then
        { s with bindings := takeIrq ep s.bindings }
      else if s.exits.any fun e => e.ep == ep then
        { s with exits := s.exits.eraseP fun e => e.ep == ep }
      else match s.firstSender ep with
        | some sender => s.deliver ep sender slot
        | none => s.modify slot fun t => { t with state := .blockedRecv ep, timed := timed }

def takeReply (saved : Option Nat) (t : Task) : Option (Call × Task) :=
  match saved with
  | none => t.replyTo.map fun c => (c, { t with replyTo := none })
  | some index => match (t.cap index).map Slot.cap with
    | some (.reply slot pid seq) => some (⟨slot, pid, seq⟩, t.clear index)
    | _ => none

def ipcReply (saved : Option Nat) (n : Option Named) (slot : Nat) (t : Task) (s : System) : System :=
  match takeReply saved t with
  | none => s
  | some (c, t) =>
    let s := s.set slot t
    if !s.awaitsReply c slot then s
    else if n.any (copyRefused t) || n.any (s.transferRefused t) then s
    else
      let (s, pending) := s.offer t n
      let receive := ((s.tasks c.slot).map Task.receive).getD 0
      (s.handOver slot c.slot pending receive).fail c.slot (.reply slot)

def saveReply (index slot : Nat) (t : Task) (s : System) : System :=
  match t.replyTo with
  | none => s
  | some c =>
    if t.free index then
      let cap := Capability.reply c.slot c.pid c.seq
      let (s, node) := s.root cap
      s.set slot ({ t with replyTo := none }.put ⟨index, cap, node⟩)
    else s

/-! ### Capability calls -/

def insertRoot (cap : Capability) (index slot : Nat) (t : Task) (s : System) : System :=
  if t.free index then
    let (s, node) := s.root cap
    s.set slot (t.put ⟨index, cap, node⟩)
  else s

def composite (base size index slot : Nat) (t : Task) (s : System) : System :=
  if fixed index then
    let cap := Capability.memory base size ⟨true, false, false, false, false⟩
    let (s, node) := s.root cap
    s.set slot ((t.clear index).put ⟨index, cap, node⟩)
  else s

def capMint (source index : Nat) (mask : Rights) (offset length badge : Nat) (deny : Bool) (slot : Nat)
    (t : Task) (s : System) : System :=
  match t.cap source with
  | none => s
  | some x =>
    match mint x.cap mask offset length badge with
    | none => s
    | some cap =>
      if s.covered x.node.id || deny || !t.free index then s
      else
        let (s, node) := s.child x cap
        s.set slot (t.put ⟨index, cap, node⟩)

def capDrop (index slot : Nat) (t : Task) (s : System) : System := s.set slot (t.clear index)

def doomed (s : System) (root id : Nat) : Bool :=
  decide (root ∈ s.revoking) && id != root && s.derives root s.nextNode id

/-- A step of a revocation takes one node: from the table it is in, or from a send it was copied into,
with the mappings made through it. A move in flight is left to the sender's slot. -/
def strike (root id : Nat) (s : System) : System :=
  if s.doomed root id then
    { s with tasks := s.tasks.map fun t =>
      { t with
        table := t.table.filter fun x => x.node.id != id
        pending := t.pending.filter fun p => !(p.node.id == id && p.movedFrom.isNone)
        maps := t.maps.filter fun m => m.node != id } }
  else s

def beginRevoke (index _slot : Nat) (t : Task) (s : System) : System :=
  match t.cap index with
  | some x => { s with revoking := x.node.id :: s.revoking }
  | none => s

def endpointCreate (index slot : Nat) (t : Task) (s : System) : System :=
  let ep := newEndpoint s.endpoints s.endpointsLen
  if t.free index then
    insertRoot (.endpoint ep endpointAll 0) index slot t
      { s with
        endpoints := Function.update s.endpoints ep true
        endpointsLen := if ep = s.endpointsLen then 2 * s.endpointsLen else s.endpointsLen }
  else s

/-! ### Memory -/

def referenced (s : System) (base size : Nat) : Bool :=
  s.tasks.any fun t => t.table.any (fun x => overlaps x.cap base size) ||
    t.pending.any (fun p => overlaps p.cap base size) ||
    t.maps.any fun m => decide (m.base < base + size) && decide (base < m.base + m.size)

def apartFromObjects (s : System) (base size : Nat) : Bool :=
  s.objects.all fun o => !(decide (o.1 < base + size) && decide (base < o.1 + o.2.1))

/-- `MEM_DETACH` of a block at `base`: an object with one writable capability. -/
def memDetach (base size index slot : Nat) (t : Task) (s : System) : System :=
  if !s.referenced base size && s.apartFromObjects base size && t.free index then
    let cap := Capability.memory base size ⟨true, true, false, false, false⟩
    let (s, node) := s.root cap
    { s with objects := (base, size, node.id) :: s.objects }.set slot (t.put ⟨index, cap, node⟩)
  else s

def memMap (index slot : Nat) (t : Task) (s : System) : System :=
  match t.cap index with
  | none => s
  | some x =>
    let mapping : Option Mapping := match x.cap with
      | .memory base size rights => if rights.read then some ⟨base, size, rights.write, x.node.id⟩ else none
      | .dma base size => some ⟨base, size, true, x.node.id⟩
      | .mmio base size => some ⟨base, size, true, x.node.id⟩
      | _ => none
    match mapping with
    | none => s
    | some m => s.set slot { t with maps := m :: t.maps }

def memUnmap (m : Mapping) (slot : Nat) (t : Task) (s : System) : System :=
  s.set slot { t with maps := t.maps.erase m }

def sweep (s : System) : System := { s with objects := s.objects.filter fun o => s.referenced o.1 o.2.1 }

/-! ### Spawning and ending -/

structure Grant where
  own : Named
  child : Nat
  deriving DecidableEq, Repr

/-- What arrives in the child: an escrowed privilege becomes the privilege only in a service. -/
def opened (service : Bool) : Capability → Option Capability
  | .escrow kind => if service then some (.privilege kind) else none
  | other => some other

/-- The grants of a spawn: the child's table, with the caller's slots its moves empty. -/
def grants (service : Bool) (t : Task) : List Grant → System → Option (System × List Slot × List Nat)
  | [], s => some (s, [], [])
  | g :: rest, s =>
    if !fixed g.child || s.transferRefused t g.own then none
    else match s.transfer t g.own with
      | (_, none) => none
      | (s, some p) =>
        match opened service p.cap, grants service t rest s with
        | some cap, some (s, table, moves) =>
          -- of two grants for one slot the later stays
          some (s, if table.any fun x => x.index == g.child then table else ⟨g.child, cap, p.node⟩ :: table,
            p.movedFrom.toList ++ moves)
        | _, _ => none

def movesOnce (gs : List Grant) : Bool :=
  gs.all fun g => !g.own.mask.move || (gs.filter fun h => h.own.index == g.own.index).length == 1

/-- `SPAWN` and `WORKER_START`; `opens` is whether an escrowed privilege may be granted. -/
def spawnWith (service opens : Bool) (gs : List Grant) (child slot : Nat) (t : Task) (s : System) : System :=
  if child = 0 ∨ (s.tasks child).isSome ∨ !movesOnce gs then s
  else match grants opens t gs s with
    | none => s
    | some (s, table, moves) =>
      let s := s.set slot { t with table := t.table.filter fun x => !moves.contains x.index }
      { s with nextPid := s.nextPid + 1 }.set child
        { pid := s.nextPid, service := service, state := .ready, table := table, pending := none,
          pendingCall := false, pendingBadge := 0, sendSeq := 0, replyTo := none, callSeq := 0,
          timed := false, receive := 0, watch := none, maps := [] }

/-- A service is spawned with the platform privilege, or the restart privilege kept after boot. -/
def spawn (service : Bool) (gs : List Grant) (child slot : Nat) (t : Task) (s : System) : System :=
  if !t.holds (.privilege .spawn) || service && !(t.holds .platform || t.holds .restart) then s
  else spawnWith service service gs child slot t s

/-- A worker is a service if its creator is one, and is granted no privilege out of escrow. -/
def workerStart (gs : List Grant) (child slot : Nat) (t : Task) (s : System) : System :=
  spawnWith t.service false gs child slot t s

def postExit (ep pid reason : Nat) (s : System) : System :=
  match s.blocked (.blockedRecv ep) with
  | some r => s.modify r fun r => { r with state := .ready }
  | none => if s.exits.length < exitNoticesMax then { s with exits := s.exits ++ [⟨ep, pid, reason⟩] } else s

/-- Wakes the sender in the slot if nobody can receive what it sends. -/
def wakeStranded (s : System) (i : Nat) : System :=
  match s.tasks i with
  | some t => match t.state with
    | .blockedSend ep =>
      if s.receivable ep then s
      else if t.pendingCall then
        (s.set i { t with pending := none }).fail i .peer
      else s.set i { t with pending := none, state := .ready }
    | _ => s
  | none => s

def failWaiting (server : Nat) (s : System) (i : Nat) : System :=
  if s.inState (.blockedReply server) i then s.fail i .peer else s

def leave (slot reason : Nat) (t : Task) (s : System) : System :=
  let s := (s.set slot { t with state := .exited, pending := none }).tellIf t.calling (.gone slot t.sendSeq)
  match t.watch with
  | some ep => s.postExit ep t.pid reason
  | none => s

def release (slot : Nat) (s : System) : System :=
  let s := (List.range s.tasks.len).foldl wakeStranded s
  (List.range s.tasks.len).foldl (failWaiting slot) s

def terminate (slot reason : Nat) (s : System) : System :=
  match s.tasks slot with
  | none => s
  | some t =>
    if t.state = .exited then s else (s.leave slot reason t).release slot

def expire (slot : Nat) (s : System) : System :=
  match s.tasks slot with
  | none => s
  | some t =>
    if t.timed && t.waiting then
      let s := s.set slot { t with pending := none, timed := false }
      if t.calling then s.fail slot .timeout else s.modify slot fun t => { t with state := .ready }
    else s

def tableSize (used : List Nat) : Nat := used.foldr (fun e size => max (e + 1) size) 128

/-- The reaper: exited tasks no CPU runs go, and the endpoint numbers nothing names any more are free. -/
def reap (runs : Nat → Bool) (s : System) : System :=
  let tasks := s.tasks.keep fun i t => !(t.state == .exited && !runs i)
  -- a binding goes with its task, and once nobody owns the line any more
  let bindings := s.bindings.filter fun b =>
    (tasks b.slot).any (fun t => t.pid == b.pid && t.state != .exited) &&
      tasks.any fun t => t.state != .exited && t.holds (.interrupt b.line)
  let used := fun ep => ep == 0 || tasks.any (fun t => t.names ep) || bindings.any fun b => b.ep == ep
  { s with
    tasks := tasks
    bindings := bindings
    exits := s.exits.filter fun e => used e.ep
    endpoints := used
    endpointsLen := tableSize ((List.range s.endpointsLen).filter used) }

def irqBind (line index slot : Nat) (t : Task) (s : System) : System :=
  match endpointOf t index with
  | some (ep, rights, _) =>
    -- a binder binds again in place
    let others := s.bindings.filter fun b => !(b.line == line && b.slot == slot && b.pid == t.pid)
    if rights.read && t.holds (.interrupt line) &&
        decide ((others.filter fun b => b.line == line).length < irqSharers) then
      { s with bindings := ⟨line, ep, slot, t.pid, false⟩ :: others }
    else s
  | none => s

def raiseIrq (line : Nat) (s : System) : System :=
  s.bindings.foldl (fun s b =>
    if b.line = line then
      match s.blocked (.blockedRecv b.ep) with
      | some r => s.modify r fun r => { r with state := .ready }
      | none => { s with bindings := s.bindings.map fun b' =>
          if b' = b then { b' with pending := true } else b' }
    else s) s

def taskWatch (target index : Nat) (_slot : Nat) (t : Task) (s : System) : System :=
  match endpointOf t index with
  | some (ep, rights, _) =>
    if rights.read then s.modify target fun u => { u with watch := some ep } else s
  | none => s

end System

/-! ### Runs -/

inductive Act where
  | send (slot : Nat) (q : System.SendRequest)
  | recv (slot index receive : Nat) (timed : Bool)
  | reply (slot : Nat) (saved : Option Nat) (n : Option System.Named)
  | saveReply (slot index : Nat)
  | mint (slot source index : Nat) (mask : Rights) (offset length badge : Nat) (deny : Bool)
  | drop (slot index : Nat)
  | beginRevoke (slot index : Nat)
  | strike (root id : Nat)
  | endRevoke (root : Nat)
  | endpointCreate (slot index : Nat)
  /-- A capability the kernel makes: `PLATFORM_CAP`, `MEM_SHARE`, the writer of a text input. -/
  | grantRoot (slot index : Nat) (cap : Capability)
  /-- The compositor's view of the screen in front, in a fixed slot. -/
  | composite (slot index base size : Nat)
  | memDetach (slot base size index : Nat)
  | memMap (slot index : Nat)
  | memUnmap (slot : Nat) (m : Mapping)
  | sweep
  | spawn (slot : Nat) (service : Bool) (gs : List System.Grant) (child : Nat)
  | workerStart (slot : Nat) (gs : List System.Grant) (child : Nat)
  | terminate (slot reason : Nat)
  | expire (slot : Nat)
  | reap (runs : Nat → Bool)
  | irqBind (slot line index : Nat)
  | raiseIrq (line : Nat)
  | taskWatch (slot target index : Nat)

namespace System

def call (s : System) (slot : Nat) (f : Nat → Task → System → System) : System :=
  match s.running slot with
  | some t => f slot t s
  | none => s

/-- The kernel makes no reply capability by itself, and no memory over an object. -/
def rootable (s : System) : Capability → Bool
  | .reply _ _ _ => false
  | .endpoint _ _ _ => false
  | .memory base size _ | .dma base size | .mmio base size => s.apartFromObjects base size
  | _ => true

def act : Act → System → System
  | .send slot q, s => s.call slot (ipcSend q)
  | .recv slot index receive timed, s => s.call slot (ipcRecv index receive timed)
  | .reply slot saved n, s => s.call slot (ipcReply saved n)
  | .saveReply slot index, s => s.call slot (saveReply index)
  | .mint slot source index mask offset length badge deny, s =>
    s.call slot (capMint source index mask offset length badge deny)
  | .drop slot index, s => s.call slot (capDrop index)
  | .beginRevoke slot index, s => s.call slot (beginRevoke index)
  | .strike root id, s => s.strike root id
  | .endRevoke root, s => { s with revoking := s.revoking.erase root }
  | .endpointCreate slot index, s => s.call slot (endpointCreate index)
  | .grantRoot slot index cap, s =>
    if s.rootable cap then s.call slot (insertRoot cap index) else s
  | .composite slot index base size, s =>
    if s.apartFromObjects base size then s.call slot (composite base size index) else s
  | .memDetach slot base size index, s => s.call slot (memDetach base size index)
  | .memMap slot index, s => s.call slot (memMap index)
  | .memUnmap slot m, s => s.call slot (memUnmap m)
  | .sweep, s => s.sweep
  | .spawn slot service gs child, s => s.call slot (spawn service gs child)
  | .workerStart slot gs child, s => s.call slot (workerStart gs child)
  | .terminate slot reason, s => s.terminate slot reason
  | .expire slot, s => s.expire slot
  | .reap runs, s => s.reap runs
  | .irqBind slot line index, s => s.call slot (irqBind line index)
  | .raiseIrq line, s => s.raiseIrq line
  | .taskWatch slot target index, s => s.call slot (taskWatch target index)

/-- `spawn_init`: one service with its endpoint and the platform and spawn privileges. -/
def start : System where
  tasks.get slot := if slot = 1 then
    some { pid := 1, service := true, state := .ready,
           table := [⟨1, .endpoint 1 endpointAll 0, ⟨1, 0⟩⟩, ⟨2, .platform, ⟨2, 0⟩⟩,
                     ⟨3, .privilege .spawn, ⟨3, 0⟩⟩],
           pending := none, pendingCall := false, pendingBadge := 0, sendSeq := 0, replyTo := none,
           callSeq := 0, timed := false, receive := 0, watch := none, maps := [] }
  else none
  tasks.len := 32
  tasks.bound i hi := if_neg (by omega)
  endpoints e := e == 0 || e == 1
  endpointsLen := 128
  bindings := []
  exits := []
  sendSeq := 0
  nextNode := 3
  nextPid := 2
  revoking := []
  objects := []
  made id := if id = 1 then some (.endpoint 1 endpointAll 0) else if id = 2 then some .platform
    else if id = 3 then some (.privilege .spawn) else none
  origin _ := none
  log := []

theorem start_slot {i : Nat} {t : Task} (h : start.tasks i = some t) : i = 1 := by
  by_contra hi
  rw [show start.tasks i = none from if_neg hi] at h
  cases h

inductive Reached : System → Prop
  | start : Reached start
  | step {s : System} (a : Act) : Reached s → Reached (act a s)

end System

end MindCore.Kernel.Ipc
