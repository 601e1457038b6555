import MindCore.Lib.Bytes

/-!
# UTF-8

The characters of a text, a byte at a time: a first byte says how many more it needs and between which
bounds the next one lies.
-/

namespace MindCore

/-- The bytes still needed, the bounds of the next one, the bits so far, and the characters before. -/
abbrev Owed := Nat × UInt8 × UInt8 × Nat × List Nat

def utf8First (b : UInt8) (cs : List Nat) : Option Owed :=
  if b < 0x80 then some (0, 0x80, 0xbf, 0, b.toNat :: cs)
  else if 0xc2 ≤ b && b ≤ 0xdf then some (1, 0x80, 0xbf, b.toNat % 32, cs)
  else if b == 0xe0 then some (2, 0xa0, 0xbf, 0, cs)
  else if b == 0xed then some (2, 0x80, 0x9f, 13, cs)
  else if 0xe1 ≤ b && b ≤ 0xef then some (2, 0x80, 0xbf, b.toNat % 16, cs)
  else if b == 0xf0 then some (3, 0x90, 0xbf, 0, cs)
  else if 0xf1 ≤ b && b ≤ 0xf3 then some (3, 0x80, 0xbf, b.toNat % 8, cs)
  else if b == 0xf4 then some (3, 0x80, 0x8f, 4, cs)
  else none

def utf8Step : Owed → UInt8 → Option Owed
  | (0, _, _, _, cs), b => utf8First b cs
  | (n + 1, low, high, bits, cs), b =>
    if low ≤ b && b ≤ high then
      let bits := bits * 64 + b.toNat % 64
      some (n, 0x80, 0xbf, bits, if n = 0 then bits :: cs else cs)
    else none

/-- `str::from_utf8`: the characters of well-formed UTF-8. -/
def chars (text : Bytes) : Option (List Nat) :=
  match text.foldlM utf8Step (0, 0x80, 0xbf, 0, []) with
  | some (0, _, _, _, cs) => some cs.reverse
  | _ => none

def utf8 (text : Bytes) : Bool := (chars text).isSome

def isAscii (b : UInt8) : Bool := b < 0x80

theorem utf8_of_ascii {text : Bytes} (h : text.all isAscii = true) : utf8 text = true := by
  have hfold : ∀ bits cs, ∃ bits' cs',
      text.foldlM utf8Step (0, 0x80, 0xbf, bits, cs) = some (0, 0x80, 0xbf, bits', cs') := by
    induction text with
    | nil => exact fun bits cs => ⟨bits, cs, rfl⟩
    | cons b rest ih =>
      intro bits cs
      rw [List.all_cons, Bool.and_eq_true] at h
      have hb : b < 0x80 := by simpa [isAscii] using h.1
      have hstep : utf8Step (0, 0x80, 0xbf, bits, cs) b = some (0, 0x80, 0xbf, 0, b.toNat :: cs) := if_pos hb
      rw [List.foldlM_cons, hstep]
      exact ih h.2 0 (b.toNat :: cs)
  obtain ⟨bits, cs, h⟩ := hfold 0 []
  rw [utf8, chars, h]
  rfl

end MindCore
