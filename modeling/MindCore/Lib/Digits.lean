import Mathlib.Data.Nat.Digits.Defs

/-!
# Digits regrouped

A number read as digits of `a` bits and written as digits of `b` bits, the highest first. What was read and
is not written yet is the low `count` bits of a 32-bit word.
-/

namespace MindCore

open List

/-- The number that digits of `w` bits spell. -/
def spelt (w : Nat) (l : List Nat) : Nat := Nat.ofDigits (2 ^ w) l.reverse

variable {w a b x bits count : Nat} {l l' ins outs : List Nat}

theorem spelt_append (w : Nat) (l : List Nat) (x : Nat) : spelt w (l ++ [x]) = spelt w l * 2 ^ w + x := by
  rw [spelt, spelt, reverse_append, reverse_singleton, singleton_append, Nat.ofDigits_cons, Nat.add_comm, Nat.mul_comm]

theorem spelt_inj (hw : 0 < w) (hlen : l.length = l'.length) (hl : ∀ d ∈ l, d < 2 ^ w) (hl' : ∀ d ∈ l', d < 2 ^ w)
    (h : spelt w l = spelt w l') : l = l' := by
  refine reverse_inj.mp ?_
  exact Nat.ofDigits_inj_of_len_eq (Nat.one_lt_two_pow hw.ne') (by simpa) (by simpa) (by simpa) h

/-- What was read, in `bits` bits of which the low `count` are not written, and what was written. -/
structure Spool where
  bits : Nat
  count : Nat
  out : List Nat

structure Regroups (a b : Nat) (ins : List Nat) (s : Spool) : Prop where
  value : spelt a ins = spelt b s.out * 2 ^ s.count + s.bits % 2 ^ s.count
  size : a * ins.length = b * s.out.length + s.count
  small : ∀ d ∈ s.out, d < 2 ^ b

theorem Regroups.nil (a b : Nat) : Regroups a b [] ⟨0, 0, []⟩ := ⟨rfl, by simp, nofun⟩

theorem Regroups.read {s : Spool} (h : Regroups a b ins s) (hx : x < 2 ^ a) (hc : s.count + a ≤ 32) :
    Regroups a b (ins ++ [x]) ⟨(s.bits <<< a ||| x) % 2 ^ 32, s.count + a, s.out⟩ := by
  have hlow : (s.bits <<< a ||| x) % 2 ^ 32 % 2 ^ (s.count + a) = s.bits % 2 ^ s.count * 2 ^ a + x := by
    rw [Nat.mod_mod_of_dvd _ (pow_dvd_pow 2 hc), ← Nat.shiftLeft_add_eq_or_of_lt hx, Nat.shiftLeft_eq, Nat.pow_add,
      Nat.mul_comm (2 ^ s.count), Nat.mod_mul, Nat.mul_add_mod_of_lt hx, Nat.add_comm, Nat.mul_comm s.bits,
      Nat.mul_add_div (Nat.two_pow_pos a), Nat.div_eq_of_lt hx, Nat.add_zero, Nat.mul_comm (2 ^ a)]
  refine ⟨?_, ?_, h.small⟩
  · rw [spelt_append, h.value, hlow, Nat.pow_add]
    ring
  · rw [length_append, length_singleton, Nat.mul_add, h.size]
    dsimp only
    omega

theorem Regroups.write (h : Regroups a b ins ⟨bits, count, outs⟩) (hc : b ≤ count) :
    Regroups a b ins ⟨bits, count - b, outs ++ [bits >>> (count - b) % 2 ^ b]⟩ := by
  obtain ⟨k, rfl⟩ := Nat.exists_eq_add_of_le' hc
  rw [Nat.add_sub_cancel]
  refine ⟨?_, ?_, ?_⟩
  · rw [h.value, spelt_append, Nat.pow_add, Nat.mod_mul, Nat.shiftRight_eq_div_pow]
    ring
  · rw [h.size, length_append, length_singleton, Nat.mul_add]
    dsimp only
    omega
  · intro d hd
    rcases mem_append.mp hd with hd | hd
    · exact h.small d hd
    · rw [mem_singleton.mp hd]
      exact Nat.mod_lt _ (Nat.two_pow_pos b)

/-- Digits read one after another, each with what it fills written. -/
theorem Regroups.foldl {step : Spool → Nat → Spool} {s : Spool} (hstep : ∀ {s ins x}, Regroups a b ins s → s.count < b →
      x < 2 ^ a → Regroups a b (ins ++ [x]) (step s x) ∧ (step s x).count < b)
    (h : Regroups a b ins s) (hc : s.count < b) (hl : ∀ x ∈ l, x < 2 ^ a) :
    Regroups a b (ins ++ l) (l.foldl step s) ∧ (l.foldl step s).count < b := by
  induction l generalizing ins s with
  | nil => exact ⟨(append_nil ins).symm ▸ h, hc⟩
  | cons x l ih =>
    rw [forall_mem_cons] at hl
    obtain ⟨h', hc'⟩ := hstep h hc hl.1
    rw [append_cons]
    exact ih h' hc' hl.2

end MindCore
