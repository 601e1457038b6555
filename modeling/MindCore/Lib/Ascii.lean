import MindCore.Lib.Bytes

/-!
# ASCII

Bytes as characters, the parts of a path, and the end of a line.
-/

namespace MindCore

def ascii (s : String) : Bytes := s.toList.map fun c => UInt8.ofNat c.toNat

def newline : UInt8 := 0x0a

def blank : UInt8 := 0x20

def slash : UInt8 := 0x2f

/-- `is_ascii_graphic`. -/
def graphic (b : UInt8) : Bool := 0x21 ≤ b && b ≤ 0x7e

def digit (b : UInt8) : Bool := 0x30 ≤ b && b ≤ 0x39

def lowercase (b : UInt8) : Bool := 0x61 ≤ b && b ≤ 0x7a

/-- `to_ascii_lowercase`. -/
def asciiLower (b : UInt8) : UInt8 := if 0x41 ≤ b && b ≤ 0x5a then b + 0x20 else b

/-- A part of a path that names nothing of its own. -/
def badPart (part : Bytes) : Bool := part = [] || part = ascii "." || part = ascii ".."

/-- A line without its carriage return, if it ends with one. -/
def withoutReturn {α : Type} [DecidableEq α] (cr : α) (line : List α) : List α :=
  if line.getLast? = some cr then line.dropLast else line

theorem withoutReturn_eq_iff {α : Type} [DecidableEq α] {cr : α} {l : List α} :
    withoutReturn cr l = l ↔ l.getLast? ≠ some cr := by
  unfold withoutReturn
  split
  · next h =>
    obtain ⟨l, rfl⟩ := List.getLast?_eq_some_iff.mp h
    simp
  · next h => simp [h]

end MindCore
