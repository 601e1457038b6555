import MindCore.Lib.Runs
import MindCore.Libmind.Journal

/-!
# Journals under a name

`libmind/src/journal.rs`: a journal is the entries under a name of the store. An append publishes
the next entry by compare-and-swap from the version it read; a check goes down from the head, each
entry against its CID, its sequence and the time of the entry after it.
-/

namespace MindCore.Journal

inductive Error where
  | store
  | notFound
  | removed (version : Nat)
  | conflict
  | missing
  | corrupt
  | format
  | version
  | sequence (seq : Nat)
  | time
  | invalid
  | tooLarge
deriving DecidableEq

/-- The store as a journal needs it: blocks, and a name read and published by compare-and-swap. -/
class Store (J : Type) where
  put : Bytes → Proc Error J Cid
  get : Cid → Nat → Proc Error J Bytes
  head : Bytes → Proc Error J (Nat × Option Cid)
  publish : Bytes → Nat → Cid → Proc Error J Nat

structure Reading where
  monotonic : Nat
  calendar : Nat
  clock : Clock
deriving DecidableEq

structure Appended where
  entry : Entry
  cid : Cid
deriving DecidableEq

/-- What a check or a listing read: the name's version, the entries read, the sequences of the
lowest and the highest of them. -/
structure Checked where
  version : Nat
  entries : Nat
  first : Nat
  last : Nat
deriving DecidableEq

structure Refused where
  error : Error
  version : Nat
  at_ : Nat
  checked : Nat
deriving DecidableEq

def schema (bytes : Bytes) : Except Error Entry :=
  match decode bytes with
  | .ok e => .ok e
  | .error .version => .error .version
  | .error _ => .error .format

def Time.past (e t : Time) : Prop := t.boot < e.boot ∨ (e.boot = t.boot ∧ t.monotonic < e.monotonic)

instance (e t : Time) : Decidable (e.past t) := inferInstanceAs (Decidable (_ ∨ _))

section Names
variable [Sha256] {J : Type} [Store J]

def entry (cid : Cid) : Proc Error J Entry := do
  let data ← Store.get cid Dag.chunk
  ensure (cid.Matches data) .corrupt
  ensure (cid.codec = .dagCbor) .format
  Proc.ofExcept (schema data)

def next (now : Reading) (version : Nat) (root : Option Cid) : Proc Error J (Nat × Option Cid) :=
  match root with
  | none => do
    ensure (version = 0) (.removed version)
    return (1, none)
  | some head => do
    let e ← entry head
    ensure (e.seq = version) (.sequence e.seq)
    if now.monotonic < e.time.monotonic then do
      ensure (e.time.boot + 1 < 2 ^ 64) .time
      return (e.time.boot + 1, some head)
    else return (e.time.boot, some head)

def encodeOr (e : Entry) : Except Error Bytes :=
  match e.encode with
  | .ok bytes => .ok bytes
  | .error _ => .error .invalid

/-- Appends an entry after the head of `name` and publishes it from the version read. -/
def append (name : Bytes) (now : Reading) (source kind : Bytes) (content : Cid) : Proc Error J Appended := do
  ensure (validLabel source) .invalid
  ensure (validLabel kind) .invalid
  let (version, root) ← Store.head name
  let (boot, prev) ← next now version root
  let e : Entry := ⟨(version + 1) % 2 ^ 64, ⟨boot, now.monotonic, now.calendar, now.clock⟩,
    source, kind, content, prev⟩
  let bytes ← Proc.ofExcept (encodeOr e)
  let cid ← Store.put bytes
  ensure (cid = Cid.of .dagCbor bytes) .corrupt
  let _ ← Store.publish name version cid
  return ⟨e, cid⟩

def downFrom (each : Entry → Cid → J → J) : Nat → Checked → Cid → Option Time → Proc Refused J Checked
  | 0, done, _, _ => pure done
  | left + 1, done, cid, after => do
    let at_ := done.version - done.entries
    let refused (error : Error) : Refused := ⟨error, done.version, at_, done.entries⟩
    let e ← Proc.mapError refused (entry cid)
    ensure (e.seq = at_) (refused (.sequence e.seq))
    ensure (∀ t ∈ after, ¬e.time.past t) (refused .time)
    modify (each e cid)
    let done : Checked := { done with entries := done.entries + 1, first := e.seq }
    match e.prev with
    | none => return done
    | some prev => downFrom each left done prev (some e.time)

/-- Reads at most `most` entries from the head down, each checked against the one after it. -/
def down (name : Bytes) (most : Nat) (each : Entry → Cid → J → J) : Proc Refused J Checked := do
  let (version, root) ← Proc.mapError (fun error => (⟨error, 0, 0, 0⟩ : Refused)) (Store.head name)
  match root with
  | none => throw ⟨if version = 0 then .notFound else .removed version, version, version, 0⟩
  | some cid => downFrom each most ⟨version, 0, (version + 1) % 2 ^ 64, version⟩ cid none

def checkEach (name : Bytes) (steps : Nat) (each : Entry → Cid → J → J) : Proc Refused J Checked := do
  let done ← down name steps each
  ensure (done.first = 1) ⟨.tooLarge, done.version, (done.first + 2 ^ 64 - 1) % 2 ^ 64, done.entries⟩
  return done

def check (name : Bytes) (steps : Nat) : Proc Refused J Checked := checkEach name steps fun _ _ j => j

open Proc

theorem entry_ok {cid : Cid} {s t : J} {e : Entry} (h : (entry cid).run s = .ok e t) :
    ∃ data, (Store.get cid Dag.chunk).run s = .ok data t ∧ cid.Matches data ∧
      cid.codec = .dagCbor ∧ decode data = .ok e := by
  obtain ⟨data, s₁, hget, h₁⟩ := bind_eq_ok.mp h
  obtain ⟨hm, h₂⟩ := ensure_bind_ok.mp h₁
  obtain ⟨hc, hschema⟩ := ensure_bind_ok.mp h₂
  obtain ⟨hs, rfl⟩ := ofExcept_run_ok hschema
  refine ⟨data, hget, hm, hc, ?_⟩
  unfold schema at hs
  split at hs
  · cases hs
    assumption
  · exact nomatch hs
  · exact nomatch hs

theorem checkEach_ok {name : Bytes} {steps : Nat} {each : Entry → Cid → J → J} {s t : J}
    {done : Checked} (h : (checkEach name steps each).run s = .ok done t) :
    ∃ version cid m, (Store.head name).run s = .ok (version, some cid) m ∧
      (downFrom each steps ⟨version, 0, (version + 1) % 2 ^ 64, version⟩ cid none).run m =
        .ok done t ∧ done.first = 1 := by
  obtain ⟨d, s₁, hdown, h₁⟩ := bind_eq_ok.mp h
  obtain ⟨hf, h₂⟩ := ensure_bind_ok.mp h₁
  cases h₂
  obtain ⟨⟨version, root⟩, m, hhead, h₃⟩ := bind_eq_ok.mp hdown
  cases root with
  | none => exact nomatch h₃
  | some cid => exact ⟨version, cid, m, mapError_ok hhead, h₃, hf⟩

end Names

end MindCore.Journal
