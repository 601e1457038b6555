import MindCore.Lib.Bytes
import MindCore.Lib.Proc

/-!
# Content identifiers

The binary form of `libmind/src/cid.rs`: version, content type, hash algorithm, digest
length and digest, every number a varint in its shortest form. The digest function is a
parameter of the development: nothing below depends on which one it is.
-/

namespace MindCore

abbrev Digest := {b : Bytes // b.length = 32}

class Sha256 where
  digest : Bytes → Digest

inductive Codec where
  | raw
  | dagCbor
deriving DecidableEq, Repr

namespace Codec

def code : Codec → Nat
  | .raw => 0x55
  | .dagCbor => 0x71

def fromCode (code : Nat) : Option Codec :=
  if code = 0x55 then some .raw else if code = 0x71 then some .dagCbor else none

end Codec

inductive Algorithm where
  | sha2_256
deriving DecidableEq, Repr

namespace Algorithm

def code : Algorithm → Nat
  | .sha2_256 => 0x12

def fromCode (code : Nat) : Option Algorithm := if code = 0x12 then some .sha2_256 else none

def digestLen : Algorithm → Nat
  | .sha2_256 => 32

end Algorithm

structure Cid where
  codec : Codec
  algorithm : Algorithm
  digest : Digest
deriving DecidableEq

namespace Cid

inductive Error where
  | truncated
  | trailing
  | varint
  | version
  | codec
  | algorithm
  | length
  | text
deriving DecidableEq, Repr

def version : Nat := 1

def bytes : Nat := 4 + 32

section Hashing
variable [Sha256]

def of (codec : Codec) (data : Bytes) : Cid := ⟨codec, .sha2_256, Sha256.digest data⟩

def Matches (cid : Cid) (data : Bytes) : Prop := Sha256.digest data = cid.digest

instance (cid : Cid) (data : Bytes) : Decidable (cid.Matches data) := inferInstanceAs (Decidable (_ = _))

@[simp] theorem of_codec (c : Codec) (data : Bytes) : (of c data).codec = c := rfl

@[simp] theorem of_matches (c : Codec) (data : Bytes) : (of c data).Matches data := rfl

end Hashing

def toBytes (cid : Cid) : Bytes :=
  [UInt8.ofNat version, UInt8.ofNat cid.codec.code, UInt8.ofNat cid.algorithm.code,
    UInt8.ofNat cid.digest.val.length] ++ cid.digest.val

@[simp] theorem length_toBytes (cid : Cid) : cid.toBytes.length = bytes := by
  simp [toBytes, bytes, cid.digest.property]

def varintFrom (i value : Nat) : Bytes → Except Error (Nat × Nat)
  | [] => .error .truncated
  | byte :: rest =>
    if i = 9 then .error .varint
    else
      let value := value ||| ((byte &&& 0x7f).toNat <<< (7 * i))
      if byte &&& 0x80 = 0 then
        if byte = 0 ∧ 0 < i then .error .varint else .ok (value, i + 1)
      else if i = 8 then .error .varint else varintFrom (i + 1) value rest

/-- An unsigned varint: 7 bits a byte, low first, at most 9 bytes, in its shortest form. -/
def varint (bytes : Bytes) : Except Error (Nat × Nat) := varintFrom 0 0 bytes

def read (bs : Bytes) : Except Error (Cid × Nat) := do
  let (v, pos) ← varint bs
  ensure (v = version) .version
  let (c, n) ← varint (bs.drop pos)
  let pos := pos + n
  let codec ← orError (Codec.fromCode c) .codec
  let (a, n) ← varint (bs.drop pos)
  let pos := pos + n
  let algorithm ← orError (Algorithm.fromCode a) .algorithm
  let (len, n) ← varint (bs.drop pos)
  let pos := pos + n
  ensure (len = algorithm.digestLen) .length
  let digest := (bs.drop pos).take algorithm.digestLen
  if h : digest.length = 32 then
    .ok (⟨codec, algorithm, ⟨digest, h⟩⟩, pos + algorithm.digestLen)
  else .error .truncated

def fromBytes (bs : Bytes) : Except Error Cid := do
  let (cid, len) ← read bs
  ensure (len = bs.length) .trailing
  return cid

theorem varint_small (b : UInt8) (rest : Bytes) (h : b &&& 0x80 = 0) :
    varint (b :: rest) = .ok ((b &&& 0x7f).toNat, 1) := by
  simp [varint, varintFrom, h]

theorem read_toBytes (cid : Cid) (rest : Bytes) : read (cid.toBytes ++ rest) = .ok (cid, bytes) := by
  obtain ⟨codec, algorithm, digest, hd⟩ := cid
  have htake : (digest ++ rest).take 32 = digest := by rw [← hd, List.take_left]
  cases algorithm
  cases codec <;>
    simp [read, toBytes, varint_small _ _ (show (1 : UInt8) &&& 0x80 = 0 by decide),
      varint_small _ _ (show (0x55 : UInt8) &&& 0x80 = 0 by decide),
      varint_small _ _ (show (0x71 : UInt8) &&& 0x80 = 0 by decide),
      varint_small _ _ (show (0x12 : UInt8) &&& 0x80 = 0 by decide),
      varint_small _ _ (show (32 : UInt8) &&& 0x80 = 0 by decide),
      version, Codec.code, Algorithm.code, hd, ensure_ok, Codec.fromCode, Algorithm.fromCode,
      Algorithm.digestLen, htake, bytes]

@[simp] theorem fromBytes_toBytes (cid : Cid) : fromBytes cid.toBytes = .ok cid := by
  have h := read_toBytes cid []
  rw [List.append_nil] at h
  simp only [fromBytes, h, except_ok_bind, length_toBytes, ensure_ok]
  rfl

end Cid

end MindCore
