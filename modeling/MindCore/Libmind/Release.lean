import Mathlib.Algebra.Group.Nat.Hom
import MindCore.Lib.Ascii

/-!
# Release metadata

A channel file and a boot manifest (`release.rs`): the forms `parse_channel` and `Manifest::parse`
accept, and the one encoding of what they say (`encode_channel`, `encode_file`), against which the
updater holds the answers of the parser service (`channel_is`, `Rebuild`).
-/

namespace MindCore.Release

def channelMax : Nat := 1024

def manifestMax : Nat := 32768

def nameMax : Nat := 32

def archMax : Nat := 16

def pathMax : Nat := 96

def arches : Nat := 4

/-- Header lines of a manifest, its format line included, at most. -/
def headersMax : Nat := 8

def headerMax : Nat := 128

def fileLineMax : Nat := 5 + pathMax + 1 + 20 + 1 + 64 + 1 + 8 + 1 + 10

def formatLine : Bytes := ascii "MIND-MANIFEST 1"

def quote : UInt8 := 0x22

/-! ### Bytes -/

def wordByte (b : UInt8) : Bool :=
  digit b || (0x41 ≤ b && b ≤ 0x5a) || (0x61 ≤ b && b ≤ 0x7a) || b == 0x2e || b == 0x5f || b == 0x2d

/-- A short text of printable bytes other than a space. -/
structure Text (n : Nat) where
  bytes : Bytes
  valid : bytes.length ≤ n ∧ bytes.all graphic = true
  deriving DecidableEq

def Text.new {n : Nat} (text : Bytes) : Option (Text n) :=
  if h : text.length ≤ n ∧ text.all graphic = true then some ⟨text, h⟩ else none

abbrev Fixed (n : Nat) := { bytes : Bytes // bytes.length = n }

/-- `try_into` an array. -/
def fixed (n : Nat) (bytes : Bytes) : Option (Fixed n) :=
  if h : bytes.length = n then some ⟨bytes, h⟩ else none

def hexValue (b : UInt8) : Option UInt8 :=
  if 0x30 ≤ b && b ≤ 0x39 then some (b - 0x30)
  else if 0x61 ≤ b && b ≤ 0x66 then some (b - 0x61 + 10)
  else none

def hexPairs : Bytes → Option Bytes
  | [] => some []
  | [_] => none
  | a :: b :: rest => do
    let high ← hexValue a
    let low ← hexValue b
    let bytes ← hexPairs rest
    some ((high <<< 4 ||| low) :: bytes)

def hex (n : Nat) (text : Bytes) : Option (Fixed n) :=
  if text.length ≠ 2 * n then none else (hexPairs text).bind (fixed n)

def decimalStep (n : Nat) (d : UInt8) : Option Nat :=
  if 2 ^ 64 ≤ n * 10 then none
  else if 2 ^ 64 ≤ n * 10 + (d.toNat - 0x30) then none
  else some (n * 10 + (d.toNat - 0x30))

/-- A decimal of at most 20 digits without a leading zero. -/
def decimal (text : Bytes) : Option UInt64 :=
  if text = [] ∨ 20 < text.length ∨ (1 < text.length ∧ text.head? = some 0x30) ∨
      text.all digit = false then none
  else (text.foldlM decimalStep 0).map UInt64.ofNat

def fieldOf (a b : Nat) (t : Bytes) : Nat :=
  (Bytes.slice a b t).foldl (fun n d => n * 10 + (d.toNat - 0x30)) 0

def leap (year : Nat) : Bool := year % 4 = 0 && (year % 100 ≠ 0 || year % 400 = 0)

def daysOf (year month : Nat) : Option Nat :=
  if month ∈ [1, 3, 5, 7, 8, 10, 12] then some 31
  else if month ∈ [4, 6, 9, 11] then some 30
  else if month = 2 then some (if leap year then 29 else 28)
  else none

/-- `YYYY-MM-DDTHH:MM:SSZ` with every field in range. -/
def timestamp (text : Bytes) : Option (Fixed 20) := do
  let t ← fixed 20 text
  let shape := t.1.zipIdx.all fun (b, i) =>
    if i = 4 ∨ i = 7 then b == 0x2d
    else if i = 10 then b == 0x54
    else if i = 13 ∨ i = 16 then b == 0x3a
    else if i = 19 then b == 0x5a
    else digit b
  if shape then
    let days ← daysOf (fieldOf 0 4 t.1) (fieldOf 5 7 t.1)
    let day := fieldOf 8 10 t.1
    if 1 ≤ day ∧ day ≤ days ∧ fieldOf 11 13 t.1 < 24 ∧ fieldOf 14 16 t.1 < 60 ∧ fieldOf 17 19 t.1 < 60 then
      some t
    else none
  else none

/-! ### What is written -/

def hexDigit (n : UInt8) : UInt8 := if n < 10 then 0x30 + n else 0x61 + (n - 10)

def hexOf (bytes : Bytes) : Bytes := bytes.flatMap fun (b : UInt8) => [hexDigit (b >>> 4), hexDigit (b &&& 15)]

def digitsOf : Nat → Nat → Bytes → Bytes
  | 0, _, after => after
  | k + 1, n, after =>
    let after := UInt8.ofNat (0x30 + n % 10) :: after
    if n / 10 = 0 then after else digitsOf k (n / 10) after

def decimalOf (n : Nat) : Bytes := digitsOf 20 n []

/-- Bytes into a buffer of `room` bytes, failing when it is full. -/
def put (room : Nat) (out bytes : Bytes) : Option Bytes :=
  if (out ++ bytes).length ≤ room then some (out ++ bytes) else none

def putAll (room : Nat) (parts : List Bytes) : Option Bytes := parts.foldlM (put room) []

/-! ### A channel file -/

structure Channel where
  name : Text nameMax
  version : UInt64
  minimum : UInt64
  expires : Fixed 20
  manifests : List (Text archMax × Fixed 32)
  deriving DecidableEq

/-- Where the signature is: it covers the file's first `body` bytes. -/
structure Signed where
  body : Nat
  signature : Fixed 64
  deriving DecidableEq

/-- A cursor over bytes that must be exactly what is expected: what is left of them. -/
abbrev Scan := StateT Bytes Option

namespace Scan

/-- `?` on an option. -/
def ofOption {α : Type} (o : Option α) : Scan α := fun text => o.map fun a => (a, text)

/-- `None` unless `p`. -/
def check (p : Bool) : Scan Unit := fun text => if p then some ((), text) else none

def literal (s : Bytes) : Scan Unit := fun text =>
  if s.isPrefixOf text then some ((), text.drop s.length) else none

def upTo (stop : UInt8) : Scan Bytes := fun text =>
  if stop ∈ text then some (text.takeWhile (· ≠ stop), text.dropWhile (· ≠ stop)) else none

def digits : Scan UInt64 := fun text =>
  (decimal (text.takeWhile digit)).map fun n => (n, text.dropWhile digit)

def word (n : Nat) : Scan (Text n) := do
  literal [quote]
  let word ← upTo quote
  literal [quote]
  check (word ≠ [] && word.all wordByte)
  ofOption (Text.new word)

def passes (s : Bytes) : Scan Bool := fun text =>
  if s.isPrefixOf text then some (true, text.drop s.length) else some (false, text)

end Scan

open Scan

def manifestRef (before : List (Text archMax × Fixed 32)) : Scan (Text archMax × Fixed 32) := do
  let arch ← word archMax
  check (before.getLast?.all fun last => last.1.bytes < arch.bytes)
  literal (ascii ":\"")
  let text ← upTo quote
  let digest ← ofOption (hex 32 text)
  literal [quote]
  return (arch, digest)

/-- The loop over the architectures, with room for `k` more. -/
def manifestRefs : Nat → List (Text archMax × Fixed 32) → Scan (List (Text archMax × Fixed 32))
  | 0, _ => ofOption none
  | k + 1, before => do
    let read ← manifestRef before
    let last ← passes (ascii "\x7d")
    if last then return before ++ [read]
    else
      literal (ascii ",")
      manifestRefs k (before ++ [read])

def channelLine : Scan Channel := do
  literal (ascii "\x7b\"channel\":")
  let name ← word nameMax
  literal (ascii ",\"expires\":\"")
  let text ← upTo quote
  let expires ← ofOption (timestamp text)
  literal (ascii "\",\"manifests\":\x7b")
  let manifests ← manifestRefs arches []
  literal (ascii ",\"minimum\":")
  let minimum ← digits
  literal (ascii ",\"version\":")
  let version ← digits
  literal (ascii "\x7d\n")
  let rest ← get
  check (rest = [] && 1 ≤ minimum && minimum ≤ version)
  return { name, version, minimum, expires, manifests }

def signatureLine (text : Bytes) : Option (Fixed 64) :=
  let lead := ascii "ed25519 "
  if lead.isPrefixOf text ∧ (text.drop lead.length).getLast? = some newline then
    hex 64 (text.drop lead.length).dropLast
  else none

def parseChannel (file : Bytes) : Option (Channel × Signed) :=
  if newline ∈ file then do
    let body := (file.takeWhile (· ≠ newline)).length + 1
    let signature ← signatureLine (file.drop body)
    let (channel, _) ← channelLine (file.take body)
    return (channel, { body, signature })
  else none

def manifestParts : List (Text archMax × Fixed 32) → List Bytes
  | [] => []
  | [(arch, digest)] => [[quote], arch.bytes, ascii "\":\"", hexOf digest.1, [quote]]
  | (arch, digest) :: rest =>
    [[quote], arch.bytes, ascii "\":\"", hexOf digest.1, [quote], ascii ","] ++ manifestParts rest

def channelParts (c : Channel) : List Bytes :=
  [ascii "\x7b\"channel\":\"", c.name.bytes, ascii "\",\"expires\":\"", c.expires.1,
    ascii "\",\"manifests\":\x7b"] ++ manifestParts (c.manifests.take arches) ++
  [ascii "\x7d,\"minimum\":", decimalOf c.minimum.toNat, ascii ",\"version\":",
    decimalOf c.version.toNat, ascii "\x7d\n"]

def encodeChannel (c : Channel) (room : Nat) : Option Bytes := putAll room (channelParts c)

def channelIs (file : Bytes) (channel : Channel) (signed : Signed) : Bool :=
  match encodeChannel channel channelMax,
      putAll (8 + 128 + 1) [ascii "ed25519 ", hexOf signed.signature.1, [newline]] with
  | some line, some tail =>
    line.length == signed.body && file.length == line.length + (8 + 128 + 1) &&
      file.take line.length == line && file.drop line.length == tail
  | _, _ => false

/-! ### A boot manifest -/

structure File where
  path : Text pathMax
  size : UInt64
  digest : Fixed 32
  flags : UInt32
  mib : UInt32
  deriving DecidableEq

def parts (path : Bytes) : List Bytes := path.splitOn 0x2f

def pathForm (path : Bytes) : Bool :=
  path ≠ [] && path.head? ≠ some 0x2f && (parts path).all fun p =>
    p ≠ [] && p ≠ ascii "." && p ≠ ascii ".." && p.all wordByte

def u32 (n : UInt64) : Option UInt32 := if n.toNat < 2 ^ 32 then some (UInt32.ofNat n.toNat) else none

def fileKey : Bytes := ascii "file"

def parseFile (line : Bytes) : Option File :=
  match line.splitOn blank with
  | [key, path, size, digest, flags, mib] =>
    if key ≠ fileKey ∨ pathForm path = false then none
    else do
      let path ← Text.new path
      let size ← decimal size
      let digest ← hex 32 digest
      let flags ← hex 4 flags
      let mib ← (← decimal mib) |> u32
      return { path, size, digest, flags := UInt32.ofNat (Bytes.ofBe flags.1), mib }
  | _ => none

def filePath (line : Bytes) : Bytes := ((line.drop 5).splitOn blank).headD []

def encodeFile (f : File) (room : Nat) : Option Bytes :=
  putAll room [ascii "file ", f.path.bytes, [blank], decimalOf f.size.toNat, [blank], hexOf f.digest.1,
    [blank], hexOf (Bytes.be 4 f.flags.toNat), [blank], decimalOf f.mib.toNat]

/-- A header line after the first: `key value` of printable bytes. -/
def headerForm (line : Bytes) : Bool :=
  let key := (line.splitOn blank).headD []
  line.length ≤ headerMax && key ≠ [] && key.all wordByte && key.length ≠ line.length &&
    line.all fun b => b == blank || graphic b

/-- The loop of `Manifest::parse`: header and file lines seen, and the last file's path. -/
structure Seen where
  headers : Nat
  files : Nat
  last : Option Bytes
  deriving DecidableEq

def isFile (line : Bytes) : Bool := (ascii "file ").isPrefixOf line

def Seen.line (s : Seen) (line : Bytes) : Option Seen :=
  if s.headers = 0 then
    if line ≠ formatLine then none else some { s with headers := 1 }
  else if isFile line then
    if (parseFile line).isNone then none
    else if s.last.any fun previous => ¬ parts previous < parts (filePath line) then none
    else some { s with files := s.files + 1, last := some (filePath line) }
  else if 0 < s.files ∨ s.headers = headersMax ∨ headerForm line = false then none
  else some { s with headers := s.headers + 1 }

structure Manifest where
  text : Bytes
  headers : Nat
  files : Nat
  deriving DecidableEq

def lines (text : Bytes) : List Bytes := text.dropLast.splitOn newline

def Manifest.parse (text : Bytes) : Option Manifest :=
  if manifestMax < text.length ∨ text.getLast? ≠ some newline then none
  else do
    let seen ← (lines text).foldlM Seen.line ⟨0, 0, none⟩
    return { text, headers := seen.headers, files := seen.files }

def Manifest.file (m : Manifest) (i : Nat) : Option File :=
  if i < m.files then (lines m.text)[m.headers + i]?.bind parseFile else none

/-- Checks that lines given in order make exactly `text`, each with its newline. -/
structure Rebuild where
  text : Bytes
  pos : Nat
  broken : Bool

def Rebuild.new (text : Bytes) : Rebuild := ⟨text, 0, false⟩

def Rebuild.line (r : Rebuild) (line : Bytes) : Bool × Rebuild :=
  let stop := r.pos + line.length
  if r.broken ∨ stop > r.text.length ∨ Bytes.slice r.pos stop r.text ≠ line ∨
      r.text[stop]? ≠ some newline then
    (false, { r with broken := true })
  else (true, { r with pos := stop + 1 })

def Rebuild.file (r : Rebuild) (f : File) : Bool × Rebuild :=
  match encodeFile f fileLineMax with
  | some line => r.line line
  | none => (false, { r with broken := true })

def Rebuild.done (r : Rebuild) : Bool := !r.broken && r.pos == r.text.length

end MindCore.Release
