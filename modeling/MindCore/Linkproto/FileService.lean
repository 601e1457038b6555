import MindCore.Lib.Triple
import MindCore.Lib.Utf8
import MindCore.Libmind.Cid
import MindCore.Linkproto.Frame

/-!
# The slave's requests

`linkproto/src/app.rs`: what the slave does with a request over the files it keeps. The answer goes
into a buffer cut to the largest payload the master's hello asked for; a write past it traps.
-/

namespace MindCore.Linkproto

open Proc (Stop)

def nameMax : Nat := 255
def commandMax : Nat := 240
def unitMax : Nat := 16
def replacePathMax : Nat := 64
def inputMax : Nat := 64
def minPayload : Nat := 64
def dataHead : Nat := 8
def outputHead : Nat := 13
def roleSlave : UInt8 := 1

inductive Code where
  | notFound
  | denied
  | io
  | mismatch
  | badRequest
  | busy
  | unsupported
  | notEmpty
  | exists_
  | other (code : UInt8)
deriving DecidableEq

def Code.byte : Code → UInt8
  | .notFound => 1
  | .denied => 2
  | .io => 3
  | .mismatch => 4
  | .badRequest => 5
  | .busy => 6
  | .unsupported => 7
  | .notEmpty => 8
  | .exists_ => 9
  | .other code => code

section Text

def control (c : Nat) : Bool := c < 0x20 || (0x7f ≤ c && c ≤ 0x9f)

def whitespace (c : Nat) : Bool :=
  (0x9 ≤ c && c ≤ 0xd) || (0x2000 ≤ c && c ≤ 0x200a) ||
    [0x20, 0x85, 0xa0, 0x1680, 0x2028, 0x2029, 0x202f, 0x205f, 0x3000].contains c

def components : Bytes → List Bytes
  | [] => [[]]
  | b :: bs =>
    if b = 0x2f then [] :: components bs
    else match components bs with
      | c :: cs => (b :: c) :: cs
      | [] => [[b]]

/-- One component: printable, none of `/ \ :` and neither `.` nor `..`. -/
def plainName (raw : Bytes) : Bool :=
  match chars raw with
  | none => false
  | some cs => raw != [] && raw.length ≤ nameMax && raw != [0x2e] && raw != [0x2e, 0x2e] &&
      !cs.any fun c => control c || [0x2f, 0x5c, 0x3a, 0].contains c

/-- A path as the slave takes it: plain names joined by single slashes. -/
def pathName (raw : Bytes) : Option Bytes :=
  if utf8 raw && raw != [] && raw.length ≤ nameMax && (components raw).all plainName then
    some raw
  else none

theorem pathName_length {raw name : Bytes} (h : pathName raw = some name) :
    name = raw ∧ name.length ≤ nameMax := by
  rw [pathName] at h
  split at h
  · rename_i hc
    cases h
    simp only [Bool.and_eq_true, decide_eq_true_eq] at hc
    exact ⟨rfl, hc.1.2⟩
  · cases h

end Text

structure RunOutput where
  state : UInt8
  exit : UInt32
  from_ : UInt64
  data : Bytes

/-- The files and programs the slave's machine keeps. What is read into a buffer of a length is
given as the bytes of it that were written. -/
class Files (F : Type) where
  create : Bytes → UInt64 → Proc Code F PUnit
  writeAt : UInt64 → Bytes → Proc Code F PUnit
  commit : Digest → Bool → Proc Code F PUnit
  openFile : Bytes → Proc Code F UInt64
  readAt : UInt64 → Nat → Proc Code F Bytes
  list : UInt32 → Nat → Proc Code F (Bytes × Option UInt32)
  stat : Bytes → Proc Code F (UInt64 × Digest) := fun _ => throw .unsupported
  delete : Bytes → Proc Code F PUnit := fun _ => throw .unsupported
  log : UInt64 → Nat → Proc Code F (Bytes × UInt64) := fun _ _ => throw .unsupported
  console : Bytes → Nat → Proc Code F Bytes := fun _ _ => throw .unsupported
  mkdir : Bytes → Proc Code F PUnit := fun _ => throw .unsupported
  rename : Bytes → Bytes → Bool → Proc Code F PUnit := fun _ _ _ => throw .unsupported
  rmdir : Bytes → Bool → Proc Code F PUnit := fun _ _ => throw .unsupported
  listDir : Bytes → UInt32 → Nat → Proc Code F (Bytes × Option UInt32) := fun _ _ _ => throw .unsupported
  run : Bytes → Bytes → Proc Code F (UInt32 × UInt64) := fun _ _ => throw .unsupported
  output : UInt32 → UInt64 → Nat → Proc Code F RunOutput := fun _ _ _ => throw .unsupported
  stop : UInt32 → Proc Code F PUnit := fun _ => throw .unsupported
  runs : UInt32 → Nat → Proc Code F (Bytes × Option UInt32) := fun _ _ => throw .unsupported
  command : Bytes → Proc Code F UInt32 := fun _ => throw .unsupported
  replace : Bytes → Bytes → Proc Code F PUnit := fun _ _ => throw .unsupported
  reboot : Proc Code F PUnit := throw .unsupported
  input : List UInt64 → Proc Code F UInt32 := fun _ => throw .unsupported

/-- A length returned is at most the buffer's. -/
structure Files.Keeps (F : Type) [Files F] : Prop where
  readAt : ∀ offset len (f f' : F) data, (Files.readAt offset len).run f = .ok data f' → data.length ≤ len
  list : ∀ cursor len (f f' : F) r, (Files.list cursor len).run f = .ok r f' → r.1.length ≤ len
  log : ∀ cursor len (f f' : F) r, (Files.log cursor len).run f = .ok r f' → r.1.length ≤ len
  console : ∀ input len (f f' : F) data, (Files.console input len).run f = .ok data f' → data.length ≤ len
  listDir : ∀ path cursor len (f f' : F) r, (Files.listDir path cursor len).run f = .ok r f' →
    r.1.length ≤ len
  output : ∀ run cursor len (f f' : F) o, (Files.output run cursor len).run f = .ok o f' → o.data.length ≤ len
  runs : ∀ cursor len (f f' : F) r, (Files.runs cursor len).run f = .ok r f' → r.1.length ≤ len

/-- A put in progress: its name, size, and the bytes hashed so far, which are those written. -/
structure Put where
  name : Bytes
  size : UInt64
  done : UInt64
  hashed : Bytes

structure Get where
  size : UInt64
  done : UInt64
  hashed : Bytes

structure FileService (F : Type) where
  files : F
  writing : Option Put
  reading : Option Get
  limit : Nat
  name : {l : Bytes // l.length ≤ 64}

namespace FileService

def new {F : Type} (files : F) : FileService F := ⟨files, none, none, maxPayload, ⟨[], Nat.zero_le _⟩⟩

def setName {F : Type} (s : FileService F) (name : Bytes) : FileService F :=
  { s with name := ⟨name.take 64, List.length_take_le 64 name⟩ }

end FileService

inductive Request where
  | hello
  | poll
  | reboot
  | putOpen
  | putData
  | putClose
  | getOpen
  | getData
  | getClose
  | list
  | stat
  | delete
  | mkdir
  | move
  | rmdir
  | listDir
  | console
  | log
  | input
  | run
  | output
  | stop
  | runs
  | command
  | replace
deriving DecidableEq

def Request.all : List ((UInt8 × UInt8) × Request) :=
  [((0, 1), .hello), ((0, 2), .poll), ((0, 3), .reboot), ((2, 10), .putOpen), ((2, 11), .putData),
   ((2, 12), .putClose), ((2, 13), .getOpen), ((2, 14), .getData), ((2, 15), .getClose),
   ((2, 16), .list), ((2, 17), .stat), ((2, 18), .delete), ((2, 19), .mkdir), ((2, 21), .move),
   ((2, 22), .rmdir), ((2, 23), .listDir), ((1, 20), .console), ((3, 30), .log), ((4, 40), .input),
   ((5, 50), .run), ((5, 51), .output), ((5, 52), .stop), ((5, 53), .runs), ((5, 54), .command),
   ((5, 55), .replace)]

def Request.of (channel kind : UInt8) : Option Request := Request.all.lookup (channel, kind)

section Handle
variable {F : Type}

abbrev Serving (F : Type) := Proc (Stop Code) (FileService F)

def orCode {α : Type} (o : Option α) (c : Code) : Serving F α := orError o (.fail c)

def within (n len : Nat) : Serving F PUnit := ensure (n ≤ len) .trap

def onFiles {α : Type} (x : Proc Code F α) : Serving F α :=
  ⟨fun s => match x.run s.files with
    | .ok a f => .ok a { s with files := f }
    | .error e f => .error (.fail e) { s with files := f }⟩

variable {f : F} {s : FileService F}

theorem onFiles_run {α : Type} (x : Proc Code F α) (s : FileService F) :
    (onFiles x).run s = match x.run s.files with
      | .ok a f => .ok a { s with files := f }
      | .error e f => .error (.fail e) { s with files := f } := rfl

theorem onFiles_ok {α : Type} {x : Proc Code F α} {a : α}
    (h : x.run s.files = .ok a f) : (onFiles x).run s = .ok a { s with files := f } := by
  rw [onFiles_run, h]

theorem onFiles_error {α : Type} {x : Proc Code F α} {e : Code} (h : x.run s.files = .error e f) :
    (onFiles x).run s = .error (.fail e) { s with files := f } := by
  rw [onFiles_run, h]

def uintAt (n : Nat) (p : Bytes) (at_ : Nat) : Option Nat :=
  if at_ + n ≤ p.length then some (Bytes.ofLe ((p.drop at_).take n)) else none

def u16At (p : Bytes) (at_ : Nat) : Option Nat := uintAt 2 p at_
def u32At (p : Bytes) (at_ : Nat) : Option UInt32 := (uintAt 4 p at_).map UInt32.ofNat
def u64At (p : Bytes) (at_ : Nat) : Option UInt64 := (uintAt 8 p at_).map UInt64.ofNat

def put32 (v : UInt32) : Bytes := Bytes.le 4 v.toNat
def put64 (v : UInt64) : Bytes := Bytes.le 8 v.toNat

variable [Files F]

/-- The new limit is in force before the answer is written into a buffer cut to the old one. -/
def hello (limit : Nat) (p : Bytes) : Serving F Bytes := do
  let theirs ← orCode (u16At p 2) .badRequest
  modify fun s => { s with limit := Nat.max minPayload (Nat.min theirs maxPayload) }
  within 4 limit
  let s ← get
  within (4 + s.name.val.length) limit
  return [version, roleSlave] ++ Bytes.le 2 maxPayload ++ s.name.val

/-- A put of the name and size in progress goes on where it stopped. -/
def putOpen (limit : Nat) (p : Bytes) : Serving F Bytes := do
  let size ← orCode (u64At p 0) .badRequest
  within 8 p.length
  let name ← orCode (pathName (p.drop 8)) .denied
  let s ← get
  match s.writing.filter fun w => w.size = size ∧ w.name = name with
  | some w => do
    within 8 limit
    return put64 w.done
  | none => do
    modify fun s => { s with writing := none }
    onFiles (Files.create name size)
    within name.length nameMax
    modify fun s => { s with writing := some ⟨name, size, 0, []⟩ }
    within 8 limit
    return put64 0

/-- The end of the data is a `u64` that wraps. -/
def putData (p : Bytes) : Serving F Bytes := do
  let offset ← orCode (u64At p 0) .badRequest
  within dataHead p.length
  let data := p.drop dataHead
  let s ← get
  let w ← orCode s.writing .badRequest
  ensure (offset = w.done ∧ offset + UInt64.ofNat data.length ≤ w.size) (.fail .badRequest)
  onFiles (Files.writeAt offset data)
  modify fun s => { s with writing := some { w with
    done := w.done + UInt64.ofNat data.length, hashed := w.hashed ++ data } }
  return []

def digestOf (p : Bytes) : Option Digest := if h : p.length = 32 then some ⟨p, h⟩ else none

def putClose [Sha256] (p : Bytes) : Serving F Bytes := do
  let digest ← orCode (digestOf p) .badRequest
  let s ← get
  let w ← orCode s.writing .badRequest
  modify fun s => { s with writing := none }
  let whole := decide (w.done = w.size ∧ Sha256.digest w.hashed = digest)
  onFiles (Files.commit digest whole)
  ensure (whole = true) (.fail .mismatch)
  return []

def getOpen (limit : Nat) (p : Bytes) : Serving F Bytes := do
  let name ← orCode (pathName p) .denied
  let size ← onFiles (Files.openFile name)
  modify fun s => { s with reading := some ⟨size, 0, []⟩ }
  within 8 limit
  return put64 size

def getData (limit : Nat) (p : Bytes) : Serving F Bytes := do
  let offset ← orCode (u64At p 0) .badRequest
  let want ← orCode (u16At p 8) .badRequest
  let s ← get
  let g ← orCode s.reading .badRequest
  ensure (offset = g.done ∧ offset < g.size) (.fail .badRequest)
  let want := Nat.min (Nat.min want limit) (g.size - offset).toNat
  within want limit
  let data ← onFiles (Files.readAt offset want)
  within data.length limit
  modify fun s => { s with reading := some { g with
    done := g.done + UInt64.ofNat data.length, hashed := g.hashed ++ data } }
  return data

def getClose [Sha256] (limit : Nat) : Serving F Bytes := do
  let s ← get
  let g ← orCode s.reading .badRequest
  modify fun s => { s with reading := none }
  within 32 limit
  return (Sha256.digest g.hashed).val

def stat (limit : Nat) (p : Bytes) : Serving F Bytes := do
  let name ← orCode (pathName p) .denied
  let (size, digest) ← onFiles (Files.stat name)
  within 8 limit
  within 40 limit
  return put64 size ++ digest.val

def onPath (act : Bytes → Proc Code F PUnit) (p : Bytes) : Serving F Bytes := do
  let path ← orCode (pathName p) .denied
  onFiles (act path)
  return []

def move (p : Bytes) : Serving F Bytes := do
  let flags ← orCode p.head? .badRequest
  let len ← orCode (p.tail.head?) .badRequest
  let raw ← orCode (if 2 + len.toNat ≤ p.length then some ((p.drop 2).take len.toNat) else none) .badRequest
  let from_ ← orCode (pathName raw) .denied
  within (2 + len.toNat) p.length
  let to_ ← orCode (pathName (p.drop (2 + len.toNat))) .denied
  onFiles (Files.rename from_ to_ (flags &&& 1 != 0))
  return []

def rmdir (p : Bytes) : Serving F Bytes := do
  let flags ← orCode p.head? .badRequest
  within 1 p.length
  let path ← orCode (pathName (p.drop 1)) .denied
  onFiles (Files.rmdir path (flags &&& 1 != 0))
  return []

/-- A page of a listing, after the next cursor: all ones at the end. -/
def page (limit : Nat) (read : Nat → Proc Code F (Bytes × Option UInt32)) : Serving F Bytes := do
  within 4 limit
  let (data, next) ← onFiles (read (limit - 4))
  return put32 (next.getD 0xffffffff) ++ data

def list (limit : Nat) (p : Bytes) : Serving F Bytes := do
  let cursor ← orCode (u32At p 0) .badRequest
  page limit (Files.list cursor)

def dirOf (p : Bytes) : Serving F Bytes :=
  if p.length = 4 then return []
  else do
    within 4 p.length
    orCode (pathName (p.drop 4)) .denied

def listDir (limit : Nat) (p : Bytes) : Serving F Bytes := do
  let cursor ← orCode (u32At p 0) .badRequest
  let path ← dirOf p
  page limit (Files.listDir path cursor)

def runs (limit : Nat) (p : Bytes) : Serving F Bytes := do
  let cursor ← orCode (u32At p 0) .badRequest
  page limit (Files.runs cursor)

def log (limit : Nat) (p : Bytes) : Serving F Bytes := do
  let cursor ← orCode (u64At p 0) .badRequest
  within 8 limit
  let (data, next) ← onFiles (Files.log cursor (limit - 8))
  return put64 next ++ data

def wordsOf : Nat → Bytes → List UInt64
  | 0, _ => []
  | n + 1, p => UInt64.ofNat (Bytes.ofLe (p.take 8)) :: wordsOf n (p.drop 8)

def input (limit : Nat) (p : Bytes) : Serving F Bytes := do
  ensure (p ≠ [] ∧ p.length % 8 = 0 ∧ p.length ≤ inputMax * 8) (.fail .badRequest)
  within (p.length / 8) inputMax
  let posted ← onFiles (Files.input (wordsOf (p.length / 8) p))
  within 4 limit
  return put32 posted

def run (limit : Nat) (p : Bytes) : Serving F Bytes := do
  let len ← orCode p.head? .badRequest
  let raw ← orCode (if 1 + len.toNat ≤ p.length then some ((p.drop 1).take len.toNat) else none) .badRequest
  let path ← orCode (pathName raw) .denied
  within (1 + len.toNat) p.length
  let args := p.drop (1 + len.toNat)
  ensure (utf8 args = true) (.fail .badRequest)
  let (run, pid) ← onFiles (Files.run path args)
  within 4 limit
  within 12 limit
  return put32 run ++ put64 pid

def output (limit : Nat) (p : Bytes) : Serving F Bytes := do
  let run ← orCode (u32At p 0) .badRequest
  let cursor ← orCode (u64At p 4) .badRequest
  within outputHead limit
  let o ← onFiles (Files.output run cursor (limit - outputHead))
  ensure (¬o.from_ < cursor) (.fail .io)
  return [o.state] ++ put32 o.exit ++ put64 o.from_ ++ o.data

def stop (p : Bytes) : Serving F Bytes := do
  let run ← orCode (u32At p 0) .badRequest
  onFiles (Files.stop run)
  return []

def command (limit : Nat) (p : Bytes) : Serving F Bytes := do
  let line ← orCode (chars p) .badRequest
  ensure (line.all whitespace = false ∧ p.length ≤ commandMax ∧ line.any control = false) (.fail .badRequest)
  let run ← onFiles (Files.command p)
  within 4 limit
  return put32 run

def unitByte (c : UInt8) : Bool :=
  (0x30 ≤ c && c ≤ 0x39) || (0x41 ≤ c && c ≤ 0x5a) || (0x61 ≤ c && c ≤ 0x7a) || c == 0x5f

def sourceOf (rest : Bytes) : Serving F Bytes :=
  if rest = [] then return [] else orCode (pathName rest) .denied

def replace (p : Bytes) : Serving F Bytes := do
  let len ← orCode p.head? .badRequest
  let unit ← orCode (if 1 + len.toNat ≤ p.length then some ((p.drop 1).take len.toNat) else none) .badRequest
  ensure (utf8 unit = true ∧ unit ≠ [] ∧ unit.length ≤ unitMax ∧ unit.all unitByte = true)
    (.fail .badRequest)
  within (1 + len.toNat) p.length
  let rest := p.drop (1 + len.toNat)
  let path ← sourceOf rest
  ensure (path.length ≤ replacePathMax) (.fail .denied)
  onFiles (Files.replace unit path)
  return []

def Request.serve [Sha256] (limit : Nat) (p : Bytes) : Request → Serving F Bytes
  | .hello => Linkproto.hello limit p
  | .poll => return []
  | .reboot => do
    onFiles Files.reboot
    return []
  | .putOpen => Linkproto.putOpen limit p
  | .putData => Linkproto.putData p
  | .putClose => Linkproto.putClose p
  | .getOpen => Linkproto.getOpen limit p
  | .getData => Linkproto.getData limit p
  | .getClose => Linkproto.getClose limit
  | .list => Linkproto.list limit p
  | .stat => Linkproto.stat limit p
  | .delete => onPath Files.delete p
  | .mkdir => onPath Files.mkdir p
  | .move => Linkproto.move p
  | .rmdir => Linkproto.rmdir p
  | .listDir => Linkproto.listDir limit p
  | .console => onFiles (Files.console p limit)
  | .log => Linkproto.log limit p
  | .input => Linkproto.input limit p
  | .run => Linkproto.run limit p
  | .output => Linkproto.output limit p
  | .stop => Linkproto.stop p
  | .runs => Linkproto.runs limit p
  | .command => Linkproto.command limit p
  | .replace => Linkproto.replace p

def handle [Sha256] (channel kind : UInt8) (p : Bytes) (room : Nat) : Serving F Bytes := do
  let s ← get
  match Request.of channel kind with
  | some r => r.serve (Nat.min s.limit room) p
  | none => throw (.fail .unsupported)

end Handle

end MindCore.Linkproto
