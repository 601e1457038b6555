import MindCore.Update.Stage
import MindCore.Update.Trial

/-!
# What the updater activates and what the bootloader boots

The same directory judged twice: by `Updater::verify_other` before a trial record is written, and by
`at_or_above`, `chain` and `load_set` at the next boot. Digest and signature checks are any functions;
the firmware starts what was checked.
-/

namespace MindCore.Update

open List
open MindCore.Release

/-! ### A manifest as the bootloader reads it -/

/-- `char::to_digit(16)`. -/
def toDigit (c : UInt8) : Option UInt8 :=
  if 0x30 ≤ c && c ≤ 0x39 then some (c - 0x30)
  else if 0x61 ≤ c && c ≤ 0x66 then some (c - 0x61 + 10)
  else if 0x41 ≤ c && c ≤ 0x46 then some (c - 0x41 + 10)
  else none

def digitPairs : Bytes → Option Bytes
  | a :: b :: rest => do
    let high ← toDigit a
    let low ← toDigit b
    let bytes ← digitPairs rest
    some ((high * 16 + low) :: bytes)
  | _ => some []

def hexDigest (text : Bytes) : Option Bytes := if text.length ≠ 64 then none else digitPairs text

def fileLine (text name : Bytes) : Option Bytes :=
  (manifestLines text).find? fun l => field l 0 == some fileKey && field l 1 == some name

def names (text name : Bytes) : Bool := (fileLine text name).isSome

def fileRoom : Nat := 1024 * 4096

def manifestRoom : Nat := 16 * 4096

def signatureRoom : Nat := 128

inductive Fault where
  | notFound
  | refused
  deriving DecidableEq

def readFile (d : Dir) (name : Bytes) (room : Nat) : Except Fault Bytes :=
  match d.file name with
  | none => .error .notFound
  | some data => if data.length < room then .ok data else .error .refused

def loaderName : Bytes := inSlot loaderPath

section Checks
variable (sha256 : Bytes → Fixed 32) (signed : Bytes → Fixed 64 → Bool)

def check (text name data : Bytes) : Bool :=
  match fileLine text name with
  | none => false
  | some l => (field l 2).bind parseU64 == some data.length &&
    (field l 3).bind hexDigest == some (sha256 data).1

/-- The slot's manifest, if the boot key signed it and it is of format 1. -/
def manifestOfSlot (d : Dir) : Option Bytes := do
  let signature ← (readFile d signatureName signatureRoom).toOption
  let text ← (readFile d manifestName manifestRoom).toOption
  let signature ← fixed 64 signature
  if signed text signature && (formatLine ++ [newline]).isPrefixOf text then some text else none

/-- The slot's own loader, if it has one other than the one that runs: as the manifest lists it. -/
def chain (d : Dir) (own : Option (Fixed 32)) : Bool :=
  match readFile d loaderName fileRoom with
  | .error .notFound => true
  | .error .refused => false
  | .ok data => own == some (sha256 data) ||
    (manifestOfSlot signed d).any fun text => check sha256 text loaderPath data

def fits (f : File) (data : Bytes) : Bool := data.length == f.size.toNat && sha256 data == f.digest

/-- A boot file is as the manifest lists it, or neither listed nor there. -/
def asListed (listed : Option File) (found : Option Bytes) : Bool :=
  match listed, found with
  | some f, some data => fits sha256 f data
  | none, none => true
  | _, _ => false

variable (verified : Bytes → Fixed 64 → Bool) (arch : Bytes)

def kept (d : Dir) (text : Bytes) : Option Release.Channel := do
  let file ← d.file channelName
  if named verified arch file = some (sha256 text) then
    (parseChannel (file.take channelMax)).map Prod.fst
  else none

end Checks

/-! ### The two readings of a file line -/

variable {text : Bytes}

section Lookup
variable {fs : List Bytes}

end Lookup

section Slot
variable {sha256 : Bytes → Fixed 32} {text name data : Bytes} {files : List File}

section
variable (h : slotFiles text = some files) (hk : kind name ≠ .shared)
include h hk

end

end Slot

/-! ### What `verify_other` accepts -/

section Verified
variable {sha256 : Bytes → Fixed 32} {signed verified : Bytes → Fixed 64 → Bool} {arch : Bytes}

structure Holds (sha256 : Bytes → Fixed 32) (signed : Bytes → Fixed 64 → Bool) (d : Dir) (text : Bytes)
    (files : List File) : Prop where
  manifest : manifestOfSlot signed d = some text
  file : d.file manifestName = some text
  lists : slotFiles text = some files
  boots : ∀ name ∈ bootFiles ++ [kernelName],
    asListed sha256 (files.find? fun f => f.path.bytes == name) (d.file name) = true

section Found
variable {d : Dir} {text : Bytes} {files : List File} {own : Option (Fixed 32)}

section
variable (h : Holds sha256 signed d text files)
include h

end

end Found

section Trial
variable {records : Records} {record : Record} {x : Placed}

end Trial

end Verified

end MindCore.Update
