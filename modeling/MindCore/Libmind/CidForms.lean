import MindCore.Lib.Digits
import MindCore.Libmind.Cid

/-!
# Identifiers have one form

The text form of `libmind/src/cid.rs`, base32 without padding, and that no two byte strings and no two texts
are read as one identifier.
-/

namespace MindCore.Cid

open List

/-! ### As bytes -/

section
variable {i n v value : Nat} {bs : Bytes} {cid : Cid}

theorem low_bits {byte : UInt8} (h : byte &&& 0x80 = 0) : byte &&& 0x7f = byte := by
  have hsplit : byte &&& (0x7f ||| 0x80) = byte &&& 0x7f ||| byte &&& 0x80 :=
    UInt8.toBitVec_inj.mp BitVec.and_or_distrib_left
  rw [h, UInt8.or_zero] at hsplit
  exact hsplit.symm.trans UInt8.and_neg_one

/-- A number of several bytes is 128 at least: its last byte is not zero. -/
theorem le_varintFrom (hi : 0 < i) (h : varintFrom i value bs = .ok (v, n)) : 128 ≤ v := by
  induction bs generalizing i value with
  | nil => cases h
  | cons byte rest ih =>
    simp only [varintFrom] at h
    split at h
    · cases h
    · split at h
      · rename_i hlow
        rw [low_bits hlow] at h
        split at h
        · cases h
        · rename_i hz
          cases h
          have hpos : 0 < byte.toNat := Nat.pos_of_ne_zero fun h0 => hz ⟨UInt8.toNat_inj.mp h0, hi⟩
          have hpow : 2 ^ 7 ≤ 2 ^ (7 * i) := Nat.pow_le_pow_right Nat.two_pos (by omega)
          refine le_trans ?_ Nat.right_le_or
          rw [Nat.shiftLeft_eq]
          exact Nat.mul_le_mul hpos hpow
      · split at h
        · cases h
        · exact ih (Nat.succ_pos i) h

theorem varint_ok (h : varint bs = .ok (v, n)) (hv : v < 128) : n = 1 ∧ ∃ rest, bs = UInt8.ofNat v :: rest := by
  cases bs with
  | nil => cases h
  | cons byte rest =>
    rw [varint, varintFrom, if_neg (by decide)] at h
    split at h
    · rename_i hlow
      rw [if_neg (by simp), low_bits hlow] at h
      simp only [Nat.zero_or, Nat.mul_zero, Nat.shiftLeft_zero, Except.ok.injEq, Prod.mk.injEq] at h
      obtain ⟨rfl, rfl⟩ := h
      exact ⟨rfl, rest, by rw [UInt8.ofNat_toNat]⟩
    · exact absurd (le_varintFrom Nat.one_pos h) (Nat.not_le.mpr hv)

theorem codec_of {c : Nat} {codec : Codec} (h : Codec.fromCode c = some codec) : c = codec.code := by
  unfold Codec.fromCode at h
  split at h
  · cases h
    assumption
  · split at h
    · cases h
      assumption
    · cases h

theorem code_lt (codec : Codec) : codec.code < 128 := by cases codec <;> decide

theorem read_ok (h : read bs = .ok (cid, n)) : n = bytes ∧ ∃ rest, bs = cid.toBytes ++ rest := by
  obtain ⟨⟨v, pos⟩, hv, h₁⟩ := ok_of_bind h
  obtain ⟨_, hversion, h₂⟩ := ok_of_bind h₁
  obtain ⟨⟨c, n₁⟩, hc, h₃⟩ := ok_of_bind h₂
  obtain ⟨codec, hcodec, h₄⟩ := ok_of_bind h₃
  obtain ⟨⟨a, n₂⟩, ha, h₅⟩ := ok_of_bind h₄
  obtain ⟨algorithm, halgorithm, h₆⟩ := ok_of_bind h₅
  obtain ⟨⟨len, n₃⟩, hl, h₇⟩ := ok_of_bind h₆
  obtain ⟨_, hlen, h₈⟩ := ok_of_bind h₇
  obtain rfl := ensure_eq_ok.mp hversion
  obtain rfl := ensure_eq_ok.mp hlen
  obtain rfl := codec_of (orError_eq_ok.mp hcodec)
  obtain rfl : a = 0x12 := by
    by_contra hne
    simp [Algorithm.fromCode, hne] at halgorithm
  cases algorithm
  obtain ⟨rfl, bs, rfl⟩ := varint_ok hv (by decide)
  obtain ⟨rfl, bs, rfl⟩ := varint_ok hc (code_lt codec)
  obtain ⟨rfl, bs, rfl⟩ := varint_ok ha (by decide)
  obtain ⟨rfl, bs, rfl⟩ := varint_ok hl (by decide)
  dsimp only at h₈
  split at h₈
  · rename_i hd
    cases h₈
    refine ⟨rfl, bs.drop 32, ?_⟩
    have hd : (bs.take 32).length = 32 := hd
    change _ = [_, _, _, UInt8.ofNat (bs.take 32).length] ++ bs.take 32 ++ bs.drop 32
    rw [append_assoc, take_append_drop, hd]
    rfl
  · cases h₈

theorem fromBytes_ok (h : fromBytes bs = .ok cid) : cid.toBytes = bs := by
  obtain ⟨⟨cid', n⟩, hread, h₁⟩ := ok_of_bind h
  obtain ⟨_, hlen, h₂⟩ := ok_of_bind h₁
  cases h₂
  obtain ⟨rfl, rest, rfl⟩ := read_ok hread
  have hlen := ensure_eq_ok.mp hlen
  rw [length_append, length_toBytes, Nat.left_eq_add, length_eq_zero_iff] at hlen
  rw [hlen, append_nil]

end

/-! ### As text -/

/-- The letters `a` to `z` and the figures `2` to `7`. -/
def base32 : Bytes :=
  (List.range 26).map (fun i => UInt8.ofNat (0x61 + i)) ++ (List.range 6).map fun i => UInt8.ofNat (0x32 + i)

def letter (d : Nat) : UInt8 := base32.getD d 0

/-- Writes a digit while there are the bits of one. -/
def spill (bits count : Nat) (out : List Nat) : Spool :=
  if 5 ≤ count then spill bits (count - 5) (out ++ [bits >>> (count - 5) % 2 ^ 5]) else ⟨bits, count, out⟩

def writeByte (s : Spool) (byte : Nat) : Spool := spill ((s.bits <<< 8 ||| byte) % 2 ^ 32) (s.count + 8) s.out

def digits (cid : Cid) : List Nat :=
  let s := (cid.toBytes.map UInt8.toNat).foldl writeByte ⟨0, 0, []⟩
  if 0 < s.count then s.out ++ [(s.bits <<< (5 - s.count)) % 2 ^ 32 % 2 ^ 5] else s.out

def toText (cid : Cid) : Bytes := 0x62 :: cid.digits.map letter

def fillByte (s : Spool) (value : Nat) : Spool :=
  let bits := (s.bits <<< 5 ||| value) % 2 ^ 32
  let count := s.count + 5
  if 8 ≤ count then ⟨bits, count - 8, s.out ++ [bits >>> (count - 8) % 2 ^ 8]⟩ else ⟨bits, count, s.out⟩

def readDigit (s : Spool) (c : UInt8) : Except Error Spool := do
  let value ← orError (base32.findIdx? (· == c)) .text
  ensure (s.count + 5 < 8 ∨ s.out.length ≠ bytes) .trailing
  return fillByte s value

def fromText : Bytes → Except Error Cid
  | [] => .error .text
  | first :: digits => do
    ensure (first = 0x62) .text
    let s ← digits.foldlM readDigit ⟨0, 0, []⟩
    -- no other text has the same bytes
    ensure (s.count < 5 ∧ s.bits &&& (2 ^ s.count - 1) = 0) .text
    fromBytes (s.out.map UInt8.ofNat)

section
variable {c : UInt8} {d bits count : Nat} {ins out ds : List Nat} {s s' : Spool}

theorem findIdx_base32 : base32.findIdx? (· == c) = some d ↔ d < 2 ^ 5 ∧ c = letter d := by
  constructor
  · intro h
    obtain ⟨hd, he, -⟩ := findIdx?_eq_some_iff_getElem.mp h
    refine ⟨hd, ?_⟩
    rw [letter, getD_eq_getElem?_getD, getElem?_eq_getElem hd]
    exact (beq_iff_eq.mp he).symm
  · rintro ⟨hd, rfl⟩
    have hall : ∀ d < 32, base32.findIdx? (· == letter d) = some d := by decide
    exact hall d hd

theorem spill_spec (h : Regroups 8 5 ins ⟨bits, count, out⟩) :
    Regroups 8 5 ins (spill bits count out) ∧ (spill bits count out).count < 5 := by
  fun_induction spill bits count out with
  | case1 count out hle ih => exact ih (h.write hle)
  | case2 count out hlt => exact ⟨h, Nat.not_le.mp hlt⟩

theorem writeByte_spec (h : Regroups 8 5 ins s) (hc : s.count < 5) (hd : d < 2 ^ 8) :
    Regroups 8 5 (ins ++ [d]) (writeByte s d) ∧ (writeByte s d).count < 5 :=
  spill_spec (h.read hd (by omega))

theorem fillByte_spec (h : Regroups 5 8 ins s) (hc : s.count < 8) (hd : d < 2 ^ 5) :
    Regroups 5 8 (ins ++ [d]) (fillByte s d) ∧ (fillByte s d).count < 8 := by
  have hread := h.read hd (by omega)
  unfold fillByte
  dsimp only
  split
  · rename_i hle
    exact ⟨hread.write hle, by dsimp only; omega⟩
  · rename_i hlt
    exact ⟨hread, Nat.not_le.mp hlt⟩

theorem toNat_lt (bs : Bytes) : ∀ d ∈ bs.map UInt8.toNat, d < 2 ^ 8 := by
  intro d hd
  obtain ⟨b, -, rfl⟩ := mem_map.mp hd
  exact b.toNat_lt

theorem digits_spec (cid : Cid) : spelt 5 cid.digits = spelt 8 (cid.toBytes.map UInt8.toNat) * 4 ∧
    cid.digits.length = 58 ∧ ∀ d ∈ cid.digits, d < 2 ^ 5 := by
  obtain ⟨⟨hvalue, hsize, hsmall⟩, hc⟩ :=
    (Regroups.nil 8 5).foldl writeByte_spec (by decide) (toNat_lt cid.toBytes)
  rw [digits]
  generalize (cid.toBytes.map UInt8.toNat).foldl writeByte ⟨0, 0, []⟩ = s at *
  rw [nil_append, length_map, length_toBytes, bytes] at hsize
  obtain ⟨hcount, hlen⟩ : s.count = 3 ∧ s.out.length = 57 := by omega
  have hlast : s.bits <<< 2 % 2 ^ 32 % 2 ^ 5 = s.bits % 2 ^ 3 * 4 := by
    omega
  rw [nil_append, hcount] at hvalue
  simp only [hcount, Nat.reduceLT, if_true, Nat.reduceSub, hlast]
  refine ⟨?_, by simp [hlen], ?_⟩
  · rw [spelt_append, hvalue]
    omega
  · intro d hd
    rcases mem_append.mp hd with hd | hd
    · exact hsmall d hd
    · rw [mem_singleton.mp hd]
      omega

theorem readDigits_ok {cs : Bytes} (h : cs.foldlM readDigit s = .ok s') :
    ∃ ds : List Nat, cs = ds.map letter ∧ (∀ d ∈ ds, d < 2 ^ 5) ∧ s' = ds.foldl fillByte s := by
  induction cs generalizing s with
  | nil =>
    cases h
    exact ⟨[], rfl, by simp, rfl⟩
  | cons c cs ih =>
    obtain ⟨s₁, hstep, hrest⟩ := ok_of_bind h
    obtain ⟨d, hd, h₁⟩ := ok_of_bind hstep
    obtain ⟨_, _, h₂⟩ := ok_of_bind h₁
    cases h₂
    obtain ⟨hlt, rfl⟩ := findIdx_base32.mp (orError_eq_ok.mp hd)
    obtain ⟨ds, rfl, hds, rfl⟩ := ih hrest
    exact ⟨d :: ds, rfl, forall_mem_cons.mpr ⟨hlt, hds⟩, rfl⟩

theorem readDigits_run (h : Regroups 5 8 ins s) (hc : s.count < 8) (hds : ∀ d ∈ ds, d < 2 ^ 5)
    (hlen : 5 * (ins.length + ds.length) < 8 * (bytes + 1)) :
    (ds.map letter).foldlM readDigit s = .ok (ds.foldl fillByte s) := by
  induction ds generalizing ins s with
  | nil => rfl
  | cons d ds ih =>
    rw [forall_mem_cons] at hds
    rw [length_cons] at hlen
    obtain ⟨h', hc'⟩ := fillByte_spec h hc hds.1
    have hsize := h.size
    have hroom : s.count + 5 < 8 ∨ s.out.length ≠ bytes := by omega
    refine bind_of_ok ?_ (ih h' hc' hds.2 (by rw [length_append, length_singleton]; omega))
    refine bind_of_ok (orError_eq_ok.mpr (findIdx_base32.mpr ⟨hds.1, rfl⟩)) ?_
    exact bind_of_ok (ensure_ok hroom) rfl

end

theorem fromText_toText (cid : Cid) : fromText cid.toText = .ok cid := by
  obtain ⟨hvalue, hlen, hsmall⟩ := digits_spec cid
  have hrun := readDigits_run (.nil 5 8) (by decide) hsmall (by rw [hlen]; decide)
  obtain ⟨⟨hv, hsize, hout⟩, hc⟩ := (Regroups.nil 5 8).foldl fillByte_spec (by decide) hsmall
  rw [toText, fromText, ensure_ok rfl, except_ok_bind, hrun, except_ok_bind]
  generalize cid.digits.foldl fillByte ⟨0, 0, []⟩ = s at *
  rw [nil_append, hlen] at hsize
  obtain ⟨hcount, hl⟩ : s.count = 2 ∧ s.out.length = 36 := by omega
  rw [nil_append, hvalue, hcount] at hv
  have heq : s.out = cid.toBytes.map UInt8.toNat :=
    spelt_inj (by decide : 0 < 8) (by simp [hl, bytes]) hout (toNat_lt _) (by omega)
  rw [Nat.and_two_pow_sub_one_eq_mod, hcount, ensure_ok ⟨by decide, by omega⟩, except_ok_bind, heq, map_map]
  rw [show UInt8.ofNat ∘ UInt8.toNat = id from funext fun _ => UInt8.ofNat_toNat, map_id]
  exact fromBytes_toBytes cid

theorem toText_fromText {text : Bytes} {cid : Cid} (h : fromText text = .ok cid) : cid.toText = text := by
  cases text with
  | nil => cases h
  | cons first cs =>
    obtain ⟨_, hfirst, h₁⟩ := ok_of_bind h
    obtain ⟨s, hread, h₂⟩ := ok_of_bind h₁
    obtain ⟨_, hleft, h₃⟩ := ok_of_bind h₂
    obtain rfl := ensure_eq_ok.mp hfirst
    obtain ⟨hfew, hzero⟩ := ensure_eq_ok.mp hleft
    obtain ⟨ds, rfl, hds, rfl⟩ := readDigits_ok hread
    obtain ⟨⟨hv, hsize, hout⟩, -⟩ := (Regroups.nil 5 8).foldl fillByte_spec (by decide) hds
    generalize ds.foldl fillByte ⟨0, 0, []⟩ = s at *
    obtain ⟨hvalue, hlen, hsmall⟩ := digits_spec cid
    have hb := fromBytes_ok h₃
    have hback : (s.out.map UInt8.ofNat).map UInt8.toNat = s.out := by
      rw [map_map]
      exact (map_congr_left fun d hd => UInt8.toNat_ofNat_of_lt' (hout d hd)).trans (map_id _)
    have hl : s.out.length = 36 := by simpa [bytes] using (congrArg length hb).symm
    rw [nil_append, hl] at hsize
    obtain ⟨hcount, hn⟩ : s.count = 2 ∧ ds.length = 58 := by omega
    rw [Nat.and_two_pow_sub_one_eq_mod, hcount] at hzero
    rw [nil_append, hcount, hzero] at hv
    rw [hb, hback] at hvalue
    have heq : cid.digits = ds := spelt_inj (by decide : 0 < 5) (hlen.trans hn.symm) hsmall hds (by omega)
    rw [toText, heq]

/-- An identifier has one form as bytes and one as text, and what starts with it is read as it. -/
theorem identifiers_one_form : (∀ cid, fromBytes cid.toBytes = .ok cid ∧ fromText cid.toText = .ok cid) ∧
    (∀ b cid, fromBytes b = .ok cid → cid.toBytes = b) ∧ (∀ t cid, fromText t = .ok cid → cid.toText = t) ∧
    ∀ b cid n, read b = .ok (cid, n) ↔ n ≤ b.length ∧ fromBytes (b.take n) = .ok cid := by
  refine ⟨fun cid => ⟨fromBytes_toBytes cid, fromText_toText cid⟩, fun b cid => fromBytes_ok,
    fun t cid => toText_fromText, ?_⟩
  intro b cid n
  constructor
  · intro h
    obtain ⟨rfl, rest, rfl⟩ := read_ok h
    rw [← length_toBytes cid, take_left]
    exact ⟨by simp, fromBytes_toBytes cid⟩
  · rintro ⟨hn, h⟩
    have hb := fromBytes_ok h
    have hlen : n = bytes := by rw [← length_toBytes cid, hb, length_take, Nat.min_eq_left hn]
    rw [hlen, ← take_append_drop n b, ← hb]
    exact read_toBytes cid _

end MindCore.Cid
