import Mathlib.Data.BitVec
import MindCore.Update.Slots

/-!
# A boot record on the disk

The sector a record is written as (`Record::encode`) and what is read back from one (`Record::parse`).
A record written whole is read back as it was, unless its sequence is past the last one.
-/

namespace MindCore.Update

open List

def recordSize : Nat := 512

def magic : Bytes := [0x4d, 0x49, 0x4e, 0x44, 0x42, 0x4f, 0x4f, 0x54]

def format : Nat := 2

def crc32 (data : Bytes) : BitVec 32 :=
  ~~~ data.foldl (fun crc byte =>
    (List.range 8).foldl (fun crc _ =>
      if crc &&& 1 ≠ 0 then (crc >>> 1) ^^^ 0xEDB88320#32 else crc >>> 1)
      (crc ^^^ BitVec.ofNat 32 byte.toNat)) (~~~ 0#32)

def Slot.byte : Slot → UInt8
  | .A => 0x41
  | .B => 0x42

def Slot.ofByte (b : UInt8) : Option Slot :=
  if b = 0x41 then some .A else if b = 0x42 then some .B else none

def fallbackByte : Option Slot → UInt8
  | none => 0
  | some s => s.byte

def fallbackOf (b : UInt8) : Option (Option Slot) :=
  if b = 0 then some none else (Slot.ofByte b).map some

def Record.parse (data : Bytes) : Option Record :=
  if data.length ≠ recordSize ∨ data.take 8 ≠ magic ∨ Bytes.slice 8 12 data ≠ Bytes.le 4 format then none
  else if data.drop (recordSize - 4) ≠ Bytes.le 4 (crc32 (data.take (recordSize - 4))).toNat then none
  else match Bytes.slice 20 24 data with
    | [slot, fallback, tries, flags] =>
      match Slot.ofByte slot, fallbackOf fallback with
      | some slot, some fallback =>
        if flags &&& ~~~1 ≠ 0 ∨ (Bytes.slice 32 (recordSize - 4) data).any (· ≠ 0) then none
        else
          let sequence := Bytes.ofLe (Bytes.slice 12 20 data)
          if sequenceLast < sequence then none
          else some { sequence, slot, fallback, tries := tries.toNat, confirmed := flags &&& 1 ≠ 0,
                      floor := Bytes.ofLe (Bytes.slice 24 32 data) }
      | _, _ => none
    | _ => none

def Record.body (r : Record) : Bytes :=
  magic ++ (Bytes.le 4 format ++ (Bytes.le 8 r.sequence ++
    ([r.slot.byte, fallbackByte r.fallback, UInt8.ofNat r.tries, if r.confirmed then 1 else 0] ++
      (Bytes.le 8 r.floor ++ List.replicate (recordSize - 4 - 32) 0))))

def Record.encode (r : Record) : Bytes := r.body ++ Bytes.le 4 (crc32 r.body).toNat

/-! ### What is read back -/

structure Record.Fits (r : Record) : Prop where
  sequence : r.sequence < 2 ^ 64
  tries : r.tries < 2 ^ 8
  floor : r.floor < 2 ^ 64

@[simp] theorem ofByte_byte (s : Slot) : Slot.ofByte s.byte = some s := by cases s <;> rfl

@[simp] theorem fallbackOf_byte (f : Option Slot) : fallbackOf (fallbackByte f) = some f := by
  rcases f with _ | s
  · rfl
  · cases s <;> rfl

theorem Record.length_body (r : Record) : r.body.length = 508 := by
  simp only [Record.body, length_append, Bytes.length_le, length_replicate, length_cons,
    length_nil]
  rfl

theorem slice_field {pre field post : Bytes} {a b : Nat} (ha : pre.length = a)
    (hb : a + field.length = b) : Bytes.slice a b (pre ++ (field ++ post)) = field := by
  subst ha hb
  rw [Bytes.slice, drop_left, Nat.add_sub_cancel_left, take_left]

theorem any_replicate_zero (n : Nat) : (List.replicate n (0 : UInt8)).any (· ≠ 0) = false := by
  simp

section ReadBack
variable (r : Record) (rest : Bytes)

theorem magic_at : (r.body ++ rest).take 8 = magic := by
  rw [Record.body, append_assoc]
  exact take_left' rfl

theorem format_at : Bytes.slice 8 12 (r.body ++ rest) = Bytes.le 4 format := by
  simp only [Record.body, append_assoc]
  exact slice_field rfl (by simp)

theorem sequence_at : Bytes.slice 12 20 (r.body ++ rest) = Bytes.le 8 r.sequence := by
  simp only [Record.body, append_assoc]
  rw [← append_assoc magic]
  exact slice_field (by simp [magic]) (by simp)

theorem fields_at : Bytes.slice 20 24 (r.body ++ rest) =
    [r.slot.byte, fallbackByte r.fallback, UInt8.ofNat r.tries, if r.confirmed then 1 else 0] := by
  simp only [Record.body, append_assoc]
  rw [← append_assoc magic, ← append_assoc (magic ++ _)]
  exact slice_field (by simp [magic]) rfl

theorem floor_at : Bytes.slice 24 32 (r.body ++ rest) = Bytes.le 8 r.floor := by
  simp only [Record.body, append_assoc]
  rw [← append_assoc magic, ← append_assoc (magic ++ _), ← append_assoc (_ ++ _ ++ _)]
  exact slice_field (by simp [magic]) (by simp)

theorem zeros_at : Bytes.slice 32 (recordSize - 4) (r.body ++ rest) =
    List.replicate (recordSize - 4 - 32) 0 := by
  simp only [Record.body, append_assoc]
  rw [← append_assoc magic, ← append_assoc (magic ++ _), ← append_assoc (_ ++ _ ++ _),
    ← append_assoc (_ ++ _ ++ _ ++ _)]
  exact slice_field (by simp [magic]) (by rw [length_replicate]; rfl)

end ReadBack

theorem flags_parse (c : Bool) : ((if c then 1 else 0 : UInt8) &&& ~~~1 = 0) ∧
    (decide ((if c then 1 else 0 : UInt8) &&& 1 ≠ 0) = c) := by
  cases c <;> decide

theorem parse_encode {r : Record} (h : r.Fits) :
    Record.parse r.encode = if r.sequence ≤ sequenceLast then some r else none := by
  have hlen : r.encode.length = recordSize := by
    rw [Record.encode, length_append, r.length_body, Bytes.length_le, recordSize]
  have hbody : r.encode.take (recordSize - 4) = r.body := take_left' r.length_body
  have hcrc : r.encode.drop (recordSize - 4) = Bytes.le 4 (crc32 r.body).toNat :=
    drop_left' r.length_body
  have hseq : Bytes.ofLe (Bytes.le 8 r.sequence) = r.sequence := Bytes.ofLe_le 8 _ h.sequence
  have hfloor : Bytes.ofLe (Bytes.le 8 r.floor) = r.floor := Bytes.ofLe_le 8 _ h.floor
  have htries : (UInt8.ofNat r.tries).toNat = r.tries := by
    rw [UInt8.toNat_ofNat', Nat.mod_eq_of_lt h.tries]
  obtain ⟨hflags, hconf⟩ := flags_parse r.confirmed
  rw [Record.parse, if_neg, if_neg, Record.encode, fields_at]
  · simp only [ofByte_byte, fallbackOf_byte, zeros_at, any_replicate_zero, sequence_at, floor_at, hseq,
      hfloor, htries, hflags, hconf, ne_eq, not_true_eq_false, Bool.false_eq_true, or_self, if_false]
    by_cases hs : r.sequence ≤ sequenceLast
    · rw [if_pos hs, if_neg (by omega)]
    · rw [if_neg hs, if_pos (by omega)]
  · rw [hcrc, hbody]
    exact fun h => h rfl
  · rw [Record.encode, format_at, magic_at, ← Record.encode, hlen]
    simp

theorem parse_some {data : Bytes} {r : Record} (h : Record.parse data = some r) :
    r.Fits ∧ r.sequence ≤ sequenceLast := by
  unfold Record.parse at h
  split at h
  · cases h
  split at h
  · cases h
  split at h
  · split at h
    · split at h
      · cases h
      · dsimp only at h
        split at h
        · cases h
        · rename_i tries flags _ _ _ _ _ hseq
          cases h
          have hlast : sequenceLast = 2 ^ 64 - 1 - 2 := rfl
          have hs : Bytes.ofLe (Bytes.slice 12 20 data) ≤ sequenceLast := Nat.le_of_not_lt hseq
          have hf : Bytes.ofLe (Bytes.slice 24 32 data) < 256 ^ (Bytes.slice 24 32 data).length :=
            Bytes.ofLe_lt _
          have hl : (Bytes.slice 24 32 data).length ≤ 8 := by
            rw [Bytes.slice, length_take]
            omega
          have hw : 256 ^ (Bytes.slice 24 32 data).length ≤ 256 ^ 8 := Nat.pow_le_pow_right (by decide) hl
          refine ⟨⟨?_, UInt8.toNat_lt _, ?_⟩, hs⟩
          · show Bytes.ofLe (Bytes.slice 12 20 data) < 2 ^ 64
            omega
          · show Bytes.ofLe (Bytes.slice 24 32 data) < 2 ^ 64
            omega
    · cases h
  · cases h

end MindCore.Update
