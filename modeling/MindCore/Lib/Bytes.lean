import Mathlib.Algebra.GroupWithZero.Nat
import Mathlib.Data.List.Basic

/-!
# Byte strings and fixed-width integers

Little- and big-endian forms of natural numbers, and fields cut out of a byte string.
-/

namespace MindCore

abbrev Bytes := List UInt8

namespace Bytes

/-- The `n` low bytes of `v`, low byte first. -/
def le : Nat → Nat → Bytes
  | 0, _ => []
  | n + 1, v => UInt8.ofNat (v % 256) :: le n (v / 256)

def ofLe : Bytes → Nat
  | [] => 0
  | b :: bs => b.toNat + 256 * ofLe bs

/-- The `n` low bytes of `v`, high byte first. -/
def be (n v : Nat) : Bytes := (le n v).reverse

def ofBe (bs : Bytes) : Nat := bs.foldl (fun v b => v * 256 + b.toNat) 0

@[simp] theorem length_le (n v : Nat) : (le n v).length = n := by
  induction n generalizing v with
  | zero => rfl
  | succ n ih => simp [le, ih]

@[simp] theorem length_be (n v : Nat) : (be n v).length = n := by simp [be]

theorem ofLe_le (n v : Nat) (h : v < 256 ^ n) : ofLe (le n v) = v := by
  induction n generalizing v with
  | zero => simp at h; simp [le, ofLe, h]
  | succ n ih =>
    have hv : v / 256 < 256 ^ n := by
      omega
    simp only [le, ofLe, ih _ hv, UInt8.toNat_ofNat']
    omega

theorem le_ofLe (bs : Bytes) : le bs.length (ofLe bs) = bs := by
  induction bs with
  | nil => rfl
  | cons b bs ih =>
    have hb := b.toNat_lt
    have hmod : (b.toNat + 256 * ofLe bs) % 256 = b.toNat := by omega
    have hdiv : (b.toNat + 256 * ofLe bs) / 256 = ofLe bs := by omega
    rw [List.length_cons, ofLe, le, hmod, hdiv, ih, UInt8.ofNat_toNat]

theorem ofLe_lt (bs : Bytes) : ofLe bs < 256 ^ bs.length := by
  induction bs with
  | nil => simp [ofLe]
  | cons b bs ih =>
    have hb := b.toNat_lt
    simp only [ofLe, List.length_cons, Nat.pow_succ]
    omega

theorem ofBe_reverse (bs : Bytes) : ofBe bs.reverse = ofLe bs := by
  induction bs with
  | nil => rfl
  | cons b bs ih =>
    simp only [ofBe, List.reverse_cons, List.foldl_append, List.foldl_cons, List.foldl_nil, ofLe] at ih ⊢
    omega

theorem ofBe_be (n v : Nat) (h : v < 256 ^ n) : ofBe (be n v) = v := by
  rw [be, ofBe_reverse, ofLe_le n v h]

theorem ofBe_lt (bs : Bytes) : ofBe bs < 256 ^ bs.length := by
  have h := ofLe_lt bs.reverse
  rwa [← ofBe_reverse, List.reverse_reverse, List.length_reverse] at h

def slice (a b : Nat) (bs : Bytes) : Bytes := (bs.drop a).take (b - a)

end Bytes

end MindCore
