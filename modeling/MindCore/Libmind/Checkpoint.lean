import MindCore.Lib.Reader
import MindCore.Libmind.Cid

/-!
# Checkpoints

`libmind/src/checkpoint.rs`: a component's state is kept as a manifest and the state's object,
published together under two names by one compare-and-swap. The manifest keeps each client's last
operation, so that a repeated request is not applied again, and the messages the component owes
to others until they are seen applied.
-/

namespace MindCore.Checkpoint

def labelMax : Nat := 32
def nameMax : Nat := 64
def resourcesMax : Nat := 8
def authoritiesMax : Nat := 8
def effectsMax : Nat := 16
def clientsMax : Nat := 16
def outboxMax : Nat := 16

def magic : Bytes := [0x4d, 0x49, 0x4e, 0x44, 0x2d, 0x43, 0x4b, 0x50]
def released : Bytes := [0x4d, 0x49, 0x4e, 0x44, 0x2d, 0x52, 0x4c, 0x53]
def format : UInt16 := 3
def releaseFormat : UInt16 := 2

def max : Nat := 8 + 2 + 1 + labelMax + 2 + 2 + 8 + 8 + Cid.bytes + 5 + 8 + 8 +
  (resourcesMax + authoritiesMax) * (1 + labelMax) +
  effectsMax * (8 + 1 + 1 + labelMax + 1 + 1 + nameMax + 8 + Cid.bytes) +
  clientsMax * (1 + labelMax + 8 + 8 + 8) + outboxMax * (8 + 2 * (1 + labelMax))

inductive Error where
  | store
  | format
  | version (found : UInt16)
  | contract (found : UInt16)
  | schema (found : UInt16)
  | inconsistent
  | fenced
  | released (epoch : UInt64)
  | invalid
deriving DecidableEq

def printable (c : UInt8) : Bool := 0x21 ≤ c && c < 0x7f

structure Label where
  bytes : Bytes
  valid : bytes.length ≤ labelMax ∧ bytes.all printable
deriving DecidableEq

def Label.new (text : Bytes) : Option Label :=
  if h : text.length ≤ labelMax ∧ text.all printable then some ⟨text, h⟩ else none

theorem Label.new_bytes (l : Label) : Label.new l.bytes = some l := dif_pos l.valid

theorem Label.bytes_of_new {text : Bytes} {l : Label} (h : Label.new text = some l) : l.bytes = text := by
  rw [Label.new] at h
  split at h
  · cases h
    rfl
  · exact nomatch h

theorem Label.ext_bytes {l l' : Label} (h : l.bytes = l'.bytes) : l = l' := by
  cases l
  cases l'
  congr

inductive Outcome where
  | pending
  | done
  | failed
deriving DecidableEq

def alphanumeric (c : UInt8) : Bool :=
  (0x30 ≤ c && c ≤ 0x39) || (0x41 ≤ c && c ≤ 0x5a) || (0x61 ≤ c && c ≤ 0x7a)

def nameByte (c : UInt8) : Bool := alphanumeric c || [0x2e, 0x5f, 0x2f, 0x2d].contains c

/-- A publication by compare-and-swap: `root` under a name of the store from its version `from_`. -/
structure Publication where
  name : Bytes
  from_ : UInt64
  root : Cid
  valid : (1 ≤ name.length ∧ name.length ≤ nameMax) ∧ name.all nameByte
deriving DecidableEq

def Publication.new (name : Bytes) (from_ : UInt64) (root : Cid) : Option Publication :=
  if h : (1 ≤ name.length ∧ name.length ≤ nameMax) ∧ name.all nameByte then
    some ⟨name, from_, root, h⟩
  else none

inductive Key where
  | none
  | publication (p : Publication)
deriving DecidableEq

structure Effect where
  id : UInt64
  what : Label
  outcome : Outcome
  key : Key
deriving DecidableEq

/-- A client's last operation applied: its id, the result it was answered, and the sequence it
was applied at. -/
structure Client where
  who : Label
  op : UInt64
  result : UInt64
  at_ : UInt64
deriving DecidableEq

inductive Applied where
  | new
  | repeated (result : UInt64)
  | stale
deriving DecidableEq

structure Message where
  seq : UInt64
  to_ : Label
  what : Label
deriving DecidableEq

/-- The entries in use of an array of `n`. -/
abbrev UpTo (n : Nat) (α : Type) := {l : List α // l.length ≤ n}

namespace UpTo

variable {n : Nat} {α : Type}

def empty : UpTo n α := ⟨[], Nat.zero_le n⟩

def ofList (n : Nat) (l : List α) : UpTo n α := ⟨l.take n, List.length_take_le n l⟩

theorem ofList_val (l : UpTo n α) : ofList n l.val = l := Subtype.ext (List.take_of_length_le l.2)

def set (l : UpTo n α) (k : Nat) (a : α) : UpTo n α := ⟨l.val.set k a, by simpa using l.2⟩

def push (l : UpTo n α) (a : α) (h : l.val.length < n) : UpTo n α :=
  ⟨l.val ++ [a], by simpa using Nat.succ_le_of_lt h⟩

def erase (l : UpTo n α) (k : Nat) : UpTo n α :=
  ⟨l.val.eraseIdx k, Nat.le_trans (List.length_eraseIdx_le l.val k) l.2⟩

@[simp] theorem set_val (l : UpTo n α) (k : Nat) (a : α) : (l.set k a).val = l.val.set k a := rfl

@[simp] theorem push_val (l : UpTo n α) (a : α) (h : l.val.length < n) :
    (l.push a h).val = l.val ++ [a] := rfl

@[simp] theorem erase_val (l : UpTo n α) (k : Nat) : (l.erase k).val = l.val.eraseIdx k := rfl

end UpTo

structure Manifest where
  contract : Label
  contractVersion : UInt16
  schema : UInt16
  epoch : UInt64
  sequence : UInt64
  state : Cid
  inbox : UInt64
  sent : UInt64
  resources : UpTo resourcesMax Label
  authorities : UpTo authoritiesMax Label
  effects : UpTo effectsMax Effect
  clients : UpTo clientsMax Client
  outbox : UpTo outboxMax Message
deriving DecidableEq

namespace Manifest

def new (contract : Label) (contractVersion schema : UInt16) (state : Cid) : Manifest where
  contract := contract
  contractVersion := contractVersion
  schema := schema
  epoch := 0
  sequence := 0
  state := state
  inbox := 0
  sent := 0
  resources := .empty
  authorities := .empty
  effects := .empty
  clients := .empty
  outbox := .empty

def applied (m : Manifest) (who : Bytes) (op : UInt64) : Applied :=
  match m.clients.val.find? fun c => c.who.bytes = who with
  | some c => if op = c.op then .repeated c.result else if op < c.op then .stale else .new
  | none => .new

def oldest (clients : List Client) : Nat := clients.findIdx fun c => clients.all fun d => c.at_ ≤ d.at_

/-- Records operation `op` of client `who` as applied at this sequence; the client applied longest
ago is dropped when the table is full. -/
def record (m : Manifest) (who : Bytes) (op result : UInt64) : Except Error Manifest := do
  let label ← orError (Label.new who) .invalid
  let client : Client := ⟨label, op, result, m.sequence⟩
  match m.clients.val.findIdx? fun c => c.who = label with
  | some k =>
    ensure (¬∃ c ∈ m.clients.val[k]?, op ≤ c.op) .invalid
    .ok { m with clients := m.clients.set k client }
  | none =>
    ensure (op ≠ 0) .invalid
    if h : m.clients.val.length < clientsMax then
      .ok { m with clients := m.clients.push client h }
    else .ok { m with clients := m.clients.set (oldest m.clients.val) client }

/-- Owes message `what` to `to_`. The sequence is a `u64` that wraps. -/
def send (m : Manifest) (to_ what : Bytes) : Except Error (UInt64 × Manifest) := do
  let to_ ← orError (Label.new to_) .invalid
  let what ← orError (Label.new what) .invalid
  if h : m.outbox.val.length < outboxMax then
    let sent := m.sent + 1
    .ok (sent, { m with sent := sent, outbox := m.outbox.push ⟨sent, to_, what⟩ h })
  else .error .invalid

def delivered (m : Manifest) (seq : UInt64) : Bool × Manifest :=
  match m.outbox.val.findIdx? fun o => o.seq = seq with
  | some k => (true, { m with outbox := m.outbox.erase k })
  | none => (false, m)

def owed (m : Manifest) (to_ : Bytes) : List Message := m.outbox.val.filter fun o => o.to_.bytes = to_

section Receive
variable {A : Type}

/-- The loop of `receive` over the messages owed; the manifest is this component's, and `apply`
works on what the caller keeps beside it. -/
def receiveEach (from_ : Bytes) (apply : Message → Proc Error A UInt64) :
    List Message → Nat → Proc Error (Manifest × A) Nat
  | [], n => pure n
  | o :: owed, n => do
    let (m, a) ← get
    if m.applied from_ o.seq = .new then
      match (apply o).run a with
      | .error e a => do
        set (m, a)
        throw e
      | .ok result a => do
        set (m, a)
        let m ← Proc.ofExcept (m.record from_ o.seq result)
        set (m, a)
        receiveEach from_ apply owed (n + 1)
    else receiveEach from_ apply owed n

def receive (me from_ : Bytes) (sender : Manifest) (apply : Message → Proc Error A UInt64) :
    Proc Error (Manifest × A) Nat :=
  receiveEach from_ apply (sender.owed me) 0

end Receive

/-- The loop of `acknowledge`, at most `rounds` of it; the messages cleared are given in order. -/
def acknowledgeEach (to_ : Bytes) (last : UInt64) : Nat → Manifest → List Message × Manifest
  | 0, m => ([], m)
  | rounds + 1, m =>
    match (m.owed to_).find? fun o => o.seq ≤ last with
    | none => ([], m)
    | some o =>
      let (seen, m) := acknowledgeEach to_ last rounds (m.delivered o.seq).2
      (o :: seen, m)

/-- Clears the messages owed to `to_` that `receiver` shows applied. Each round of the loop clears
one, so there are as many as messages at most. -/
def acknowledge (m : Manifest) (me to_ : Bytes) (receiver : Manifest) : List Message × Manifest :=
  match receiver.clients.val.find? fun c => c.who.bytes = me with
  | none => ([], m)
  | some c => acknowledgeEach to_ c.op m.outbox.val.length m

end Manifest

section Encode

def u16 (v : UInt16) : Bytes := Bytes.le 2 v.toNat

def u64 (v : UInt64) : Bytes := Bytes.le 8 v.toNat

def putLabel (l : Label) : Bytes := UInt8.ofNat l.bytes.length :: l.bytes

def Outcome.code : Outcome → UInt8
  | .pending => 0
  | .done => 1
  | .failed => 2

def putKey : Key → Bytes
  | .none => [0]
  | .publication p => [1, UInt8.ofNat p.name.length] ++ p.name ++ u64 p.from_ ++ p.root.toBytes

def putEffect (e : Effect) : Bytes := u64 e.id ++ [e.outcome.code] ++ putLabel e.what ++ putKey e.key

def putClient (c : Client) : Bytes := putLabel c.who ++ u64 c.op ++ u64 c.result ++ u64 c.at_

def putMessage (o : Message) : Bytes := u64 o.seq ++ putLabel o.to_ ++ putLabel o.what

def Manifest.encode (m : Manifest) : Bytes :=
  magic ++ u16 format ++ putLabel m.contract ++ u16 m.contractVersion ++ u16 m.schema ++
    u64 m.epoch ++ u64 m.sequence ++ m.state.toBytes ++
    [UInt8.ofNat m.resources.val.length, UInt8.ofNat m.authorities.val.length,
      UInt8.ofNat m.effects.val.length, UInt8.ofNat m.clients.val.length,
      UInt8.ofNat m.outbox.val.length] ++
    u64 m.inbox ++ u64 m.sent ++ m.resources.val.flatMap putLabel ++
    m.authorities.val.flatMap putLabel ++ m.effects.val.flatMap putEffect ++
    m.clients.val.flatMap putClient ++ m.outbox.val.flatMap putMessage

end Encode

namespace In

def take (n : Nat) : Proc Error Bytes Bytes := Reader.take n .format

def u16 : Proc Error Bytes UInt16 := do
  let b ← take 2
  return UInt16.ofNat (Bytes.ofLe b)

def u64 : Proc Error Bytes UInt64 := do
  let b ← take 8
  return UInt64.ofNat (Bytes.ofLe b)

def byte : Proc Error Bytes UInt8 := do
  let b ← take 1
  return b.headD 0

def cid : Proc Error Bytes Cid := do
  let b ← take Cid.bytes
  match Cid.fromBytes b with
  | .ok cid => return cid
  | .error _ => throw .format

def label : Proc Error Bytes Label := do
  let len ← byte
  let text ← take len.toNat
  orError (Label.new text) .format

def outcome : Proc Error Bytes Outcome := do
  let b ← byte
  if b = 0 then return .pending
  else if b = 1 then return .done
  else if b = 2 then return .failed
  else throw .format

def key : Proc Error Bytes Key := do
  let b ← byte
  if b = 0 then return .none
  else if b = 1 then do
    let len ← byte
    let name ← take len.toNat
    let from_ ← u64
    let root ← cid
    let p ← orError (Publication.new name from_ root) .format
    return .publication p
  else throw .format

def effect : Proc Error Bytes Effect := do
  let id ← u64
  let outcome ← outcome
  let what ← label
  let key ← key
  return ⟨id, what, outcome, key⟩

/-- A client, after those in `before`: each once, with an operation applied, at a sequence not
past the manifest's. -/
def client (sequence : UInt64) (before : List Client) : Proc Error Bytes Client := do
  let who ← label
  let op ← u64
  let result ← u64
  let at_ ← u64
  ensure (op ≠ 0 ∧ at_ ≤ sequence ∧ ¬∃ c ∈ before, c.who = who) .format
  return ⟨who, op, result, at_⟩

/-- A message, after those in `before`: owed in the order given, none past the last sequence. -/
def message (sent : UInt64) (before : List Message) : Proc Error Bytes Message := do
  let seq ← u64
  ensure (seq ≠ 0 ∧ seq ≤ sent ∧ ∀ o ∈ before.getLast?, o.seq < seq) .format
  let to_ ← label
  let what ← label
  return ⟨seq, to_, what⟩

def count (counts : Bytes) (k : Nat) : Nat := (counts.getD k 0).toNat

def manifest : Proc Error Bytes Manifest := do
  let found ← take 8
  ensure (found = magic) .format
  let version ← u16
  ensure (version = format) (.version version)
  let contract ← label
  let contractVersion ← u16
  let schema ← u16
  let epoch ← u64
  let sequence ← u64
  let state ← cid
  let counts ← take 5
  ensure (count counts 0 ≤ resourcesMax ∧ count counts 1 ≤ authoritiesMax ∧
    count counts 2 ≤ effectsMax ∧ count counts 3 ≤ clientsMax ∧ count counts 4 ≤ outboxMax) .format
  let inbox ← u64
  let sent ← u64
  let resources ← Reader.many (fun _ => label) (count counts 0) []
  let authorities ← Reader.many (fun _ => label) (count counts 1) []
  let effects ← Reader.many (fun _ => effect) (count counts 2) []
  let clients ← Reader.many (client sequence) (count counts 3) []
  let outbox ← Reader.many (message sent) (count counts 4) []
  return { contract, contractVersion, schema, epoch, sequence, state, inbox, sent,
           resources := .ofList _ resources, authorities := .ofList _ authorities,
           effects := .ofList _ effects, clients := .ofList _ clients,
           outbox := .ofList _ outbox }

end In

def readAll {α : Type} (p : Proc Error Bytes α) (bytes : Bytes) : Except Error α :=
  match (p >>= fun a => Reader.finish .format >>= fun _ => pure a).run bytes with
  | .ok a _ => .ok a
  | .error e _ => .error e

def Manifest.decode (bytes : Bytes) : Except Error Manifest := readAll In.manifest bytes

/-- A release: the epoch of the component's last checkpoint in this store, and that checkpoint. -/
structure Release where
  epoch : UInt64
  manifest : Cid
  state : Cid
deriving DecidableEq

namespace Release

def encode (r : Release) : Bytes :=
  released ++ u16 releaseFormat ++ u64 r.epoch ++ r.manifest.toBytes ++ r.state.toBytes

def decode (bytes : Bytes) : Except Error Release := readAll (do
  let found ← In.take 8
  ensure (found = released) .format
  let version ← In.u16
  ensure (version = releaseFormat) (.version version)
  let epoch ← In.u64
  let manifest ← In.cid
  let state ← In.cid
  return ⟨epoch, manifest, state⟩) bytes

end Release

/-- The store as checkpoints need it: raw blocks, and two names read and changed at once. -/
class Store (S : Type) where
  put : Bytes → Proc Error S Cid
  get : Cid → Nat → Proc Error S Bytes
  snapshot : Bytes × Bytes → Proc Error S ((UInt64 × Option Cid) × (UInt64 × Option Cid))
  commit : Bytes × Bytes → UInt64 → Cid × Cid → Proc Error S UInt64

structure Names where
  manifest : Bytes
  state : Bytes
deriving DecidableEq

def componentByte (c : UInt8) : Bool := alphanumeric c || [0x2e, 0x5f, 0x2d].contains c

def checkpointDir : Bytes := [0x63, 0x68, 0x65, 0x63, 0x6b, 0x70, 0x6f, 0x69, 0x6e, 0x74, 0x2f]
def stateLeaf : Bytes := [0x2f, 0x73, 0x74, 0x61, 0x74, 0x65]

def Names.of (component : Bytes) : Option Names :=
  if component ≠ [] ∧ component.length ≤ labelMax ∧ component.all componentByte then
    some ⟨checkpointDir ++ component, checkpointDir ++ component ++ stateLeaf⟩
  else none

inductive Restored where
  | fresh (epoch : UInt64)
  | found (m : Manifest)
deriving DecidableEq

section Stored
variable {S : Type} [Store S]

/-- The last checkpoint of the component, if it follows `contract` at `version` with state of
`schema`, and its two names agree. -/
def restore (names : Names) (contract : Bytes) (version schema : UInt16) : Proc Error S Restored := do
  let ((mv, manifest), (sv, state)) ← Store.snapshot (names.manifest, names.state)
  match manifest, state with
  | none, none => do
    ensure (mv = sv) .inconsistent
    return .fresh mv
  | some manifest, some state => do
    ensure (mv = sv) .inconsistent
    let bytes ← Store.get manifest max
    if released.isPrefixOf bytes then do
      let _ ← Proc.ofExcept (Release.decode bytes)
      throw (if state = manifest then .released mv else .inconsistent)
    else do
      let m ← Proc.ofExcept (Manifest.decode bytes)
      ensure (m.contract.bytes = contract ∧ m.contractVersion = version) (.contract m.contractVersion)
      ensure (m.schema = schema) (.schema m.schema)
      -- another epoch only at the names' first version, as an import publishes it
      ensure (m.state = state ∧ (m.epoch = mv ∨ mv = 1)) .inconsistent
      return .found { m with epoch := mv }
  | _, _ => throw .inconsistent

/-- Another component's last checkpoint and its state's bytes, none if it has none. -/
def read (names : Names) (contract : Bytes) (version schema : UInt16) (stateMax : Nat) :
    Proc Error S (Option (Manifest × Bytes)) := do
  match ← restore names contract version schema with
  | .fresh _ => return none
  | .found m => do
    let state ← Store.get m.state stateMax
    return some (m, state)

def Manifest.stamped (m : Manifest) (from_ : UInt64) : Manifest := { m with epoch := from_ + 1 }

/-- Saves the manifest as the next checkpoint after the one restored at epoch `from_`. The caller's
manifest is stamped whether it is saved or not. -/
def save (names : Names) (m : Manifest) (from_ : UInt64) : Proc Error S UInt64 := do
  let root ← Store.put (m.stamped from_).encode
  Store.commit (names.manifest, names.state) from_ (root, m.state)

end Stored

end MindCore.Checkpoint
