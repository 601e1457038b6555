import MindCore.Libmind.Cid

/-!
# The DAG-CBOR subset of the store's nodes

`Sink` and `In` of `libmind/src/dag.rs`, shared by the nodes of files, directories and
journals. A `Sink` appends to a byte string; an `In` is the bytes not read yet.
-/

namespace MindCore

namespace Dag

inductive Error where
  | format
  | version
  | shape
  | corrupt
  | notFound
  | full
  | tooLarge
  | store
deriving DecidableEq, Repr

end Dag

namespace Sink

def head (major : UInt8) (value : Nat) : Bytes :=
  let m := major <<< 5
  if value ≤ 23 then [m ||| UInt8.ofNat value]
  else if value ≤ 0xff then [m ||| 24, UInt8.ofNat value]
  else if value ≤ 0xffff then (m ||| 25) :: Bytes.be 2 value
  else if value ≤ 0xffffffff then (m ||| 26) :: Bytes.be 4 value
  else (m ||| 27) :: Bytes.be 8 value

def text (t : Bytes) : Bytes := head 3 t.length ++ t

/-- A link: tag 42 over the identity prefix and the binary form of the CID. -/
def link (cid : Cid) : Bytes := head 6 42 ++ head 2 (1 + Cid.bytes) ++ [0] ++ cid.toBytes

end Sink

namespace In

open Dag (Error)

def take (n : Nat) (i : Bytes) : Except Error (Bytes × Bytes) :=
  if n ≤ i.length then .ok (i.take n, i.drop n) else .error .format

def head : Bytes → Except Error ((UInt8 × Nat) × Bytes)
  | [] => .error .format
  | first :: rest =>
    let major := first >>> 5
    let info := (first &&& 31).toNat
    if info ≤ 23 then .ok ((major, info), rest)
    else if info ≤ 27 then do
      let (bs, rest) ← take (1 <<< (info - 24)) rest
      .ok ((major, Bytes.ofBe bs), rest)
    else .error .format

def expect (major : UInt8) (i : Bytes) : Except Error (Nat × Bytes) := do
  let ((m, value), rest) ← head i
  ensure (m = major) .format
  .ok (value, rest)

def key (name : Bytes) (i : Bytes) : Except Error Bytes := do
  let (len, i) ← expect 3 i
  let (t, i) ← take len i
  ensure (t = name) .format
  .ok i

def link (i : Bytes) : Except Error (Cid × Bytes) := do
  let (tag, i) ← expect 6 i
  ensure (tag = 42) .format
  let (len, i) ← expect 2 i
  ensure (len = 1 + Cid.bytes) .format
  let (zero, i) ← take 1 i
  ensure (zero = [0]) .format
  let (bs, i) ← take Cid.bytes i
  match Cid.fromBytes bs with
  | .ok cid => .ok (cid, i)
  | .error _ => .error .format

theorem take_append {xs ys : Bytes} {n : Nat} (h : n = xs.length) : take n (xs ++ ys) = .ok (xs, ys) := by
  subst h
  simp [take]

theorem major_info (m : Fin 8) (v : Fin 32) :
    ((UInt8.ofNat m <<< 5) ||| UInt8.ofNat v) >>> 5 = UInt8.ofNat m ∧
      (((UInt8.ofNat m <<< 5) ||| UInt8.ofNat v) &&& 31).toNat = v := by
  revert m v
  decide

/-- What `Sink.head` writes is read back, with whatever follows it left to read. -/
theorem head_head {m : UInt8} (hm : m.toNat < 8) {v : Nat} (hv : v < 2 ^ 64) (rest : Bytes) :
    head (Sink.head m v ++ rest) = .ok ((m, v), rest) := by
  have hbits (i : Nat) (h : i < 32) : ((m <<< 5) ||| UInt8.ofNat i) >>> 5 = m ∧
      (((m <<< 5) ||| UInt8.ofNat i) &&& 31).toNat = i := by
    have h := major_info ⟨m.toNat, hm⟩ ⟨i, h⟩
    simpa only [UInt8.ofNat_toNat] using h
  have long (info n : Nat) (h24 : 24 ≤ info) (h27 : info ≤ 27) (hn : 1 <<< (info - 24) = n)
      (hvn : v < 256 ^ n) :
      head (((m <<< 5) ||| UInt8.ofNat info) :: (Bytes.be n v ++ rest)) =
        .ok ((m, v), rest) := by
    have hmi := hbits info (by omega)
    simp only [head, hmi.1, hmi.2]
    rw [if_neg (by omega), if_pos h27, hn, take_append (by simp), except_ok_bind, Bytes.ofBe_be n v hvn]
  simp only [Sink.head]
  split
  · rename_i h
    have hmi := hbits v (by omega)
    simp only [List.cons_append, List.nil_append, head, hmi.1, hmi.2, if_pos h]
  · split
    · have hbe : [UInt8.ofNat v] = Bytes.be 1 v := by
        simp [Bytes.be, Bytes.le, Nat.mod_eq_of_lt (show v < 256 by omega)]
      have h := long 24 1 (by omega) (by omega) rfl (by omega)
      rw [← hbe] at h
      exact h
    · split
      · exact long 25 2 (by omega) (by omega) rfl (by omega)
      · split
        · exact long 26 4 (by omega) (by omega) rfl (by omega)
        · exact long 27 8 (by omega) (by omega) rfl (by omega)

theorem expect_head {m : UInt8} (hm : m.toNat < 8) {v : Nat} (hv : v < 2 ^ 64)
    (rest : Bytes) : expect m (Sink.head m v ++ rest) = .ok (v, rest) := by
  simp only [expect, head_head hm hv, except_ok_bind, ensure_ok]

theorem key_text {t : Bytes} (ht : t.length < 2 ^ 64) (rest : Bytes) :
    key t (Sink.text t ++ rest) = .ok rest := by
  simp only [key, Sink.text, List.append_assoc]
  rw [expect_head (by decide) ht, except_ok_bind, take_append rfl]
  simp only [except_ok_bind, ensure_ok]

theorem link_link (cid : Cid) (rest : Bytes) : link (Sink.link cid ++ rest) = .ok (cid, rest) := by
  have hzero : take 1 ([0] ++ (cid.toBytes ++ rest)) = .ok ([0], cid.toBytes ++ rest) := take_append rfl
  have hcid : take Cid.bytes (cid.toBytes ++ rest) = .ok (cid.toBytes, rest) := take_append (by simp)
  simp only [link, Sink.link, List.append_assoc]
  rw [expect_head (by decide) (by decide), except_ok_bind, ensure_ok rfl, except_ok_bind,
    expect_head (by decide) (by decide)]
  simp only [except_ok_bind, ensure_ok, hzero, hcid, Cid.fromBytes_toBytes]

end In

end MindCore
