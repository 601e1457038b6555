import MindCore.Libmind.Tree

/-!
# Journals

`libmind/src/journal.rs`: each entry is one node that links its content and the entry before it.
-/

namespace MindCore.Journal

open Dag (Error)

def version : Nat := 1
def labelMax : Nat := 32

def validLabel (text : Bytes) : Bool :=
  1 ≤ text.length && text.length ≤ labelMax && text.all fun c => 0x21 ≤ c && c < 0x7f

inductive Clock where
  | none
  | chip
  | network
deriving DecidableEq, Repr

namespace Clock

def code : Clock → Nat
  | .none => 0
  | .chip => 1
  | .network => 2

def fromCode (code : Nat) : Option Clock :=
  if code = 0 then some .none else if code = 1 then some .chip
  else if code = 2 then some .network else Option.none

end Clock

structure Time where
  boot : Nat
  monotonic : Nat
  calendar : Nat
  clock : Clock
deriving DecidableEq

structure Entry where
  seq : Nat
  time : Time
  source : Bytes
  kind : Bytes
  content : Cid
  prev : Option Cid
deriving DecidableEq

/-- From 1, linking an entry unless the first; a calendar time only with a clock. -/
def Entry.valid (e : Entry) : Bool :=
  1 ≤ e.seq && (e.prev.isSome == decide (1 < e.seq)) &&
    e.prev.all (fun p => p.codec = .dagCbor) && (e.time.clock ≠ .none || e.time.calendar = 0)

/-- The keys of an entry in DAG-CBOR's order: `v`, `seq`, `boot`, `kind`, `prev`, `clock`,
`source`, `content`, `calendar`, `monotonic`. -/
def keyV : Bytes := [0x76]
def keySeq : Bytes := [0x73, 0x65, 0x71]
def keyBoot : Bytes := [0x62, 0x6f, 0x6f, 0x74]
def keyKind : Bytes := [0x6b, 0x69, 0x6e, 0x64]
def keyPrev : Bytes := [0x70, 0x72, 0x65, 0x76]
def keyClock : Bytes := [0x63, 0x6c, 0x6f, 0x63, 0x6b]
def keySource : Bytes := [0x73, 0x6f, 0x75, 0x72, 0x63, 0x65]
def keyContent : Bytes := [0x63, 0x6f, 0x6e, 0x74, 0x65, 0x6e, 0x74]
def keyCalendar : Bytes := [0x63, 0x61, 0x6c, 0x65, 0x6e, 0x64, 0x61, 0x72]
def keyMonotonic : Bytes := [0x6d, 0x6f, 0x6e, 0x6f, 0x74, 0x6f, 0x6e, 0x69, 0x63]

def encodeWith (e : Entry) : Bytes :=
  Sink.head 5 (if e.prev.isSome then 10 else 9) ++
    Sink.text keyV ++ Sink.head 0 version ++
    Sink.text keySeq ++ Sink.head 0 e.seq ++
    Sink.text keyBoot ++ Sink.head 0 e.time.boot ++
    Sink.text keyKind ++ Sink.text e.kind ++
    (match e.prev with
      | some prev => Sink.text keyPrev ++ Sink.link prev
      | none => []) ++
    Sink.text keyClock ++ Sink.head 0 e.time.clock.code ++
    Sink.text keySource ++ Sink.text e.source ++
    Sink.text keyContent ++ Sink.link e.content ++
    Sink.text keyCalendar ++ Sink.head 0 e.time.calendar ++
    Sink.text keyMonotonic ++ Sink.head 0 e.time.monotonic

def Entry.encode (e : Entry) : Except Error Bytes := do
  ensure e.valid .format
  .ok (encodeWith e)

def label (i : Bytes) : Except Error (Bytes × Bytes) := do
  let (len, i) ← In.expect 3 i
  let (text, i) ← In.take len i
  ensure (validLabel text) .format
  .ok (text, i)

def prevLink (keys : Nat) (i : Bytes) : Except Error (Option Cid × Bytes) :=
  if keys = 10 then do
    let i ← In.key keyPrev i
    let (cid, i) ← In.link i
    .ok (some cid, i)
  else .ok (none, i)

/-- Decodes an entry, only if it is exactly the canonical encoding of this schema. -/
def decode (bytes : Bytes) : Except Error Entry := do
  let (keys, i) ← In.expect 5 bytes
  let i ← In.key keyV i
  let (v, i) ← In.expect 0 i
  ensure (v = version) .version
  ensure (keys = 9 ∨ keys = 10) .format
  let i ← In.key keySeq i
  let (seq, i) ← In.expect 0 i
  let i ← In.key keyBoot i
  let (boot, i) ← In.expect 0 i
  let i ← In.key keyKind i
  let (kind, i) ← label i
  let (prev, i) ← prevLink keys i
  let i ← In.key keyClock i
  let (code, i) ← In.expect 0 i
  let clock ← orError (Clock.fromCode code) .format
  let i ← In.key keySource i
  let (source, i) ← label i
  let i ← In.key keyContent i
  let (content, i) ← In.link i
  let i ← In.key keyCalendar i
  let (calendar, i) ← In.expect 0 i
  let i ← In.key keyMonotonic i
  let (monotonic, i) ← In.expect 0 i
  let e : Entry := ⟨seq, ⟨boot, monotonic, calendar, clock⟩, source, kind, content, prev⟩
  ensure (i = [] ∧ e.valid) .format
  ensure (encodeWith e = bytes) .format
  .ok e

end MindCore.Journal
