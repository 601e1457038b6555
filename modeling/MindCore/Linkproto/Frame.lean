import MindCore.Lib.Bytes
import MindCore.Lib.Runs

/-!
# Frames

`linkproto/src/{cobs,crc,frame}.rs`: a header, a payload and the CRC-32C of both, COBS-encoded and
followed by a zero byte on the line. A range of bytes that is out of range traps, as it does in the
source.
-/

namespace MindCore.Linkproto

open List
open Proc (Stop)

def slice {ε : Type} (bytes : Bytes) (a b : Nat) : Except (Stop ε) Bytes := do
  ensure (a ≤ b ∧ b ≤ bytes.length) .trap
  return (bytes.drop a).take (b - a)

theorem slice_ok {ε : Type} {bytes : Bytes} {a b : Nat} (h : a ≤ b ∧ b ≤ bytes.length) :
    (slice bytes a b : Except (Stop ε) Bytes) = .ok ((bytes.drop a).take (b - a)) := by
  rw [slice, ensure_ok h]
  rfl

section Cobs

/-- `cobs::encode`, with the bytes of the block begun. -/
def cobsEncodeFrom : Bytes → Bytes → Bytes
  | block, [] => UInt8.ofNat (block.length + 1) :: block
  | block, b :: data =>
    if b = 0 then UInt8.ofNat (block.length + 1) :: block ++ cobsEncodeFrom [] data
    else if block.length + 2 = 0xff then 0xff :: (block ++ [b]) ++ cobsEncodeFrom [] data
    else cobsEncodeFrom (block ++ [b]) data

def cobsEncode (data : Bytes) : Bytes := cobsEncodeFrom [] data

/-- `cobs::decode` into `room` bytes. Each block is its code and one byte less than the code says. -/
def cobsDecodeFrom : Nat → Nat → Bytes → Option Bytes
  | _, _, [] => some []
  | 0, _, _ :: _ => none
  | fuel + 1, room, code :: data =>
    if code = 0 ∨ data.length < code.toNat - 1 ∨ room < code.toNat - 1 then none
    else
      let block := data.take (code.toNat - 1)
      let rest := data.drop (code.toNat - 1)
      let room := room - (code.toNat - 1)
      if code < 0xff ∧ rest ≠ [] then
        if room = 0 then none
        else (cobsDecodeFrom fuel (room - 1) rest).map fun out => block ++ 0 :: out
      else (cobsDecodeFrom fuel room rest).map fun out => block ++ out

def cobsDecode (room : Nat) (data : Bytes) : Option Bytes := cobsDecodeFrom data.length room data

end Cobs

section Crc

def crcBit (c : UInt32) : UInt32 := if c &&& 1 ≠ 0 then (0x82f63b78 : UInt32) ^^^ (c >>> 1) else c >>> 1

def crcTable (i : UInt32) : UInt32 := crcBit (crcBit (crcBit (crcBit (crcBit (crcBit (crcBit (crcBit i)))))))

def crcFold (c : UInt32) : Bytes → UInt32
  | [] => c
  | b :: data => crcFold (crcTable ((c ^^^ b.toUInt32) &&& 0xff) ^^^ (c >>> 8)) data

def crc32c (data : Bytes) : UInt32 := ~~~(crcFold (~~~0) data)

end Crc

def version : UInt8 := 1
def versionAddressed : UInt8 := 2
def headerLen : Nat := 8
def headerAddressed : Nat := headerLen + 1
def crcLen : Nat := 4
def maxPayload : Nat := 1024
def maxFrame : Nat := headerAddressed + maxPayload + crcLen
def maxWire : Nat := maxFrame + maxFrame / 254 + 1 + 1
def addressMax : UInt8 := 247

structure Header where
  address : UInt8
  channel : UInt8
  kind : UInt8
  flags : UInt8
  seq : UInt16
deriving DecidableEq

def Header.body (h : Header) (payload : Bytes) : Bytes :=
  (if h.address = 0 then [version] else [versionAddressed, h.address]) ++
    [h.channel, h.kind, h.flags] ++ Bytes.le 2 h.seq.toNat ++ Bytes.le 2 payload.length ++ payload

def encode (h : Header) (payload : Bytes) : Except (Stop UInt8) (Option Bytes) :=
  if payload.length > maxPayload ∨ h.address > addressMax then .ok none
  else do
    let body := h.body payload
    -- the frame is built in an array of `maxFrame` bytes
    ensure (body.length + crcLen ≤ maxFrame) .trap
    let wire := cobsEncode (body ++ Bytes.le crcLen (crc32c body).toNat) ++ [0]
    .ok (if wire.length ≤ maxWire then some wire else none)

def headerOf (raw : Bytes) : Option (Nat × UInt8) :=
  if raw.getD 0 0 = version then some (headerLen, 0)
  else if raw.getD 0 0 = versionAddressed ∧ headerAddressed + crcLen ≤ raw.length ∧
      1 ≤ raw.getD 1 0 ∧ raw.getD 1 0 ≤ addressMax then some (headerAddressed, raw.getD 1 0)
  else none

def check (wire : Bytes) : Except (Stop UInt8) (Option (Header × Bytes)) :=
  match cobsDecode maxFrame wire with
  | none => .ok none
  | some raw =>
    if raw.length < headerLen + crcLen then .ok none
    else match headerOf raw with
      | none => .ok none
      | some (header, address) => do
        let h ← slice raw (header - 7) header
        let payloadLen := Bytes.ofLe (h.drop 5)
        if payloadLen > maxPayload ∨ raw.length ≠ header + payloadLen + crcLen then .ok none
        else do
          let body ← slice raw 0 (header + payloadLen)
          let crc ← slice raw (header + payloadLen) (header + payloadLen + crcLen)
          if crc ≠ Bytes.le crcLen (crc32c body).toNat then .ok none
          else do
            let payload ← slice raw header (header + payloadLen)
            .ok (some (⟨address, h.getD 0 0, h.getD 1 0, h.getD 2 0,
              UInt16.ofNat (Bytes.ofLe ((h.drop 3).take 2))⟩, payload))

structure Decoder where
  wire : {l : Bytes // l.length ≤ maxWire}
  overflow : Bool
  dropped : UInt32

namespace Decoder

def new : Decoder := ⟨⟨[], Nat.zero_le _⟩, false, 0⟩

def finish (d : Decoder) : Except (Stop UInt8) (Option (Header × Bytes)) :=
  if d.overflow then .ok none else check d.wire.val

def push (d : Decoder) (byte : UInt8) : Except (Stop UInt8) (Decoder × Option (Header × Bytes)) :=
  if byte ≠ 0 then
    if h : d.wire.val.length < maxWire then
      .ok ({ d with wire := ⟨d.wire.val ++ [byte], by simpa using Nat.succ_le_of_lt h⟩ }, none)
    else .ok ({ d with overflow := true }, none)
  else if d.wire.val = [] then .ok ({ d with overflow := false }, none)
  else do
    let frame ← d.finish
    .ok (⟨⟨[], Nat.zero_le _⟩, false, if frame.isNone then d.dropped + 1 else d.dropped⟩, frame)

end Decoder

def Fits (f : Header × Bytes) : Prop := f.2.length ≤ maxPayload ∧ f.1.address ≤ addressMax

def Header.lead (h : Header) : Bytes :=
  if h.address = 0 then [version] else [versionAddressed, h.address]

def Header.fields (h : Header) (len : Nat) : Bytes :=
  [h.channel, h.kind, h.flags] ++ Bytes.le 2 h.seq.toNat ++ Bytes.le 2 len

theorem length_fields (h : Header) (len : Nat) : (h.fields len).length = 7 := by
  simp [Header.fields]

theorem body_eq (h : Header) (payload : Bytes) :
    h.body payload = h.lead ++ (h.fields payload.length ++ payload) := by
  simp only [Header.body, Header.lead, Header.fields, append_assoc]

theorem slice_middle {ε : Type} (pre mid post : Bytes) {raw : Bytes} {a b : Nat}
    (hraw : raw = pre ++ (mid ++ post)) (ha : a = pre.length) (hb : b = pre.length + mid.length) :
    (slice raw a b : Except (Stop ε) Bytes) = .ok mid := by
  subst hraw ha hb
  rw [slice_ok ⟨Nat.le_add_right _ _, by simp only [length_append]; omega⟩, drop_left,
    Nat.add_sub_cancel_left, take_left]

theorem exists_append_of_le {l : Bytes} {n : Nat} (h : n ≤ l.length) :
    ∃ front back, l = front ++ back ∧ front.length = n :=
  ⟨l.take n, l.drop n, (take_append_drop n l).symm, length_take_of_le h⟩

theorem fields_eq {f : Bytes} (hf : f.length = 7) (address : UInt8) :
    (⟨address, f.getD 0 0, f.getD 1 0, f.getD 2 0, UInt16.ofNat (Bytes.ofLe ((f.drop 3).take 2))⟩ :
      Header).fields (Bytes.ofLe (f.drop 5)) = f := by
  obtain ⟨a, b, c, d, e, g, i, rfl⟩ : ∃ a b c d e g i, f = [a, b, c, d, e, g, i] := by
    match f, hf with
    | [a, b, c, d, e, g, i], _ => exact ⟨a, b, c, d, e, g, i, rfl⟩
  have hseq : (UInt16.ofNat (Bytes.ofLe [d, e])).toNat = Bytes.ofLe [d, e] := by
    have hlt : Bytes.ofLe [d, e] < 256 ^ 2 := Bytes.ofLe_lt [d, e]
    rw [UInt16.toNat_ofNat']
    omega
  have hfields := congrArg ([a, b, c] ++ ·) (congrArg₂ (· ++ ·) (Bytes.le_ofLe [d, e]) (Bytes.le_ofLe [g, i]))
  change [a, b, c] ++ (Bytes.le 2 (UInt16.ofNat (Bytes.ofLe [d, e])).toNat ++ _) = _
  rw [hseq]
  exact hfields

theorem headerOf_some {raw : Bytes} {header : Nat} {address : UInt8}
    (h : headerOf raw = some (header, address)) (hraw : headerLen + crcLen ≤ raw.length) :
    address ≤ addressMax ∧ ∃ lead rest, raw = lead ++ rest ∧ header = lead.length + 7 ∧
      7 + crcLen ≤ rest.length ∧ 1 ≤ lead.length ∧ ∀ h : Header, h.address = address → h.lead = lead := by
  have hsum : headerLen + crcLen = 12 := rfl
  have hcrc : crcLen = 4 := rfl
  rw [headerOf] at h
  split at h
  · rename_i hv
    cases h
    obtain ⟨v, rest, rfl⟩ := exists_cons_of_length_pos (l := raw) (by omega)
    rw [length_cons] at hraw
    obtain rfl : v = version := hv
    exact ⟨by decide, [version], rest, rfl, rfl, by omega, by decide, fun h ha => if_pos ha⟩
  · split at h
    · rename_i hv
      cases h
      obtain ⟨hv, hlen, hpos, hmax⟩ := hv
      have hlen' : headerAddressed = 9 := rfl
      obtain ⟨v, raw, rfl⟩ := exists_cons_of_length_pos (l := raw) (by omega)
      rw [length_cons] at hlen
      obtain ⟨a, rest, rfl⟩ := exists_cons_of_length_pos (l := raw) (by omega)
      rw [length_cons] at hlen
      obtain rfl : v = versionAddressed := hv
      refine ⟨hmax, [versionAddressed, a], rest, rfl, rfl, by omega, by simp, fun h ha => ?_⟩
      rw [Header.lead, if_neg, ha]
      · rfl
      · rintro h0
        rw [ha] at h0
        rw [h0] at hpos
        exact absurd hpos (by decide)
    · cases h

/-- A frame cut into the version and address, the rest of the header, the payload and the sum. -/
theorem check_parts {wire lead f payload sum : Bytes} {address : UInt8} (hf : f.length = 7)
    (hpayload : payload.length = Bytes.ofLe (f.drop 5)) (hsum : sum.length = crcLen)
    (hdec : cobsDecode maxFrame wire = some (lead ++ (f ++ (payload ++ sum))))
    (hhead : headerOf (lead ++ (f ++ (payload ++ sum))) = some (lead.length + 7, address))
    (hlead : 1 ≤ lead.length) (hmax : payload.length ≤ maxPayload) :
    check wire = if sum ≠ Bytes.le crcLen (crc32c (lead ++ (f ++ payload))).toNat then .ok none
      else .ok (some (⟨address, f.getD 0 0, f.getD 1 0, f.getD 2 0,
        UInt16.ofNat (Bytes.ofLe ((f.drop 3).take 2))⟩, payload)) := by
  have hcrc : headerLen + crcLen = 12 := rfl
  have hcrc' : crcLen = 4 := rfl
  have hraw : (lead ++ (f ++ (payload ++ sum))).length = lead.length + 7 + payload.length + crcLen := by
    simp only [length_append]
    omega
  rw [check, hdec]
  dsimp only
  rw [if_neg (by omega), hhead]
  dsimp only
  rw [slice_middle lead f (payload ++ sum) rfl (by omega) (by omega), except_ok_bind, ← hpayload,
    if_neg (by omega), slice_middle [] (lead ++ (f ++ payload)) sum (by simp only [append_assoc, nil_append])
      length_nil.symm (by simp only [length_append, length_nil]; omega), except_ok_bind,
    slice_middle (lead ++ (f ++ payload)) sum [] (by simp only [append_assoc, append_nil])
      (by simp only [length_append]; omega) (by simp only [length_append]; omega), except_ok_bind,
    slice_middle (lead ++ f) payload sum (append_assoc _ _ _).symm (by rw [length_append, hf])
      (by rw [length_append, hf]), except_ok_bind]

/-- A run is refused, or it is the COBS form of a frame. -/
theorem check_some (wire : Bytes) : ∃ frame, check wire = .ok frame ∧ ∀ f ∈ frame, Fits f ∧
    cobsDecode maxFrame wire =
      some (f.1.body f.2 ++ Bytes.le crcLen (crc32c (f.1.body f.2)).toNat) := by
  cases hdec : cobsDecode maxFrame wire with
  | none => exact ⟨none, by rw [check, hdec], nofun⟩
  | some raw =>
    by_cases hlen : raw.length < headerLen + crcLen
    · exact ⟨none, by rw [check, hdec]; exact if_pos hlen, nofun⟩
    cases hh : headerOf raw with
    | none =>
      refine ⟨none, ?_, nofun⟩
      rw [check, hdec]
      dsimp only
      rw [if_neg hlen, hh]
    | some ha =>
      obtain ⟨header, address⟩ := ha
      obtain ⟨haddress, lead, rest, rfl, rfl, hrest, hpos, hlead⟩ := headerOf_some hh (Nat.not_lt.mp hlen)
      obtain ⟨f, rest, rfl, hf⟩ := exists_append_of_le (Nat.le_trans (Nat.le_add_right 7 crcLen) hrest)
      by_cases hpay : Bytes.ofLe (f.drop 5) > maxPayload ∨
          (lead ++ (f ++ rest)).length ≠ lead.length + 7 + Bytes.ofLe (f.drop 5) + crcLen
      · refine ⟨none, ?_, nofun⟩
        rw [check, hdec]
        dsimp only
        rw [if_neg hlen, hh]
        dsimp only
        rw [slice_middle lead f rest rfl (by omega) (by omega), except_ok_bind, if_pos hpay]
      obtain ⟨hmax, heq⟩ := not_or.mp hpay
      rw [not_not, length_append, length_append] at heq
      obtain ⟨payload, sum, rfl, hpayload⟩ :=
        exists_append_of_le (l := rest) (n := Bytes.ofLe (f.drop 5)) (by omega)
      rw [length_append] at heq
      have hsum : sum.length = crcLen := by omega
      rw [check_parts hf hpayload hsum hdec hh hpos (by omega)]
      split
      · exact ⟨none, rfl, nofun⟩
      rename_i hok
      refine ⟨_, rfl, ?_⟩
      rintro _ ⟨⟩
      refine ⟨⟨Nat.le_trans (Nat.le_of_eq hpayload) (Nat.not_lt.mp hmax), haddress⟩, ?_⟩
      rw [body_eq, hlead _ rfl, hpayload, fields_eq hf, ← not_not.mp hok]
      simp only [append_assoc]

theorem check_ok (wire : Bytes) : ∃ frame, check wire = .ok frame ∧ ∀ f ∈ frame, Fits f := by
  obtain ⟨frame, hcheck, hf⟩ := check_some wire
  exact ⟨frame, hcheck, fun f hmem => (hf f hmem).1⟩

theorem finish_ok (d : Decoder) : ∃ frame, d.finish = .ok frame ∧ ∀ f ∈ frame, Fits f := by
  rw [Decoder.finish]
  split
  · exact ⟨none, rfl, nofun⟩
  · exact check_ok d.wire.val

theorem push_ok (d : Decoder) (byte : UInt8) : ∃ d' frame, d.push byte = .ok (d', frame) ∧
    ∀ f ∈ frame, Fits f := by
  rw [Decoder.push]
  split
  · split
    · exact ⟨_, none, rfl, nofun⟩
    · exact ⟨_, none, rfl, nofun⟩
  · split
    · exact ⟨_, none, rfl, nofun⟩
    · obtain ⟨frame, hf, hle⟩ := finish_ok d
      rw [hf]
      exact ⟨_, frame, rfl, hle⟩

theorem body_length (h : Header) (payload : Bytes) :
    (h.body payload).length ≤ headerAddressed + payload.length := by
  have hlen : headerAddressed = 9 := rfl
  simp only [Header.body, length_append, Bytes.length_le, length_cons, length_nil]
  split
  · simp only [length_cons, length_nil]
    omega
  · simp only [length_cons, length_nil]
    omega

theorem length_cobsEncodeFrom (block data : Bytes) : (cobsEncodeFrom block data).length ≤
    block.length + data.length + 1 + (block.length + data.length) / 254 := by
  induction data generalizing block with
  | nil =>
    simp only [cobsEncodeFrom, length_cons, length_nil]
    omega
  | cons b data ih =>
    have h₀ := ih []
    have h₁ := ih (block ++ [b])
    rw [length_append, length_singleton] at h₁
    rw [cobsEncodeFrom]
    split
    · simp only [length_append, length_cons, length_nil] at h₀ ⊢
      omega
    split
    · simp only [length_append, length_cons, length_nil] at h₀ ⊢
      omega
    · rw [length_cons]
      omega

theorem encode_ok (h : Header) (payload : Bytes) (hp : payload.length ≤ maxPayload)
    (ha : h.address ≤ addressMax) : ∃ wire, encode h payload = .ok (some wire) := by
  have hbody := body_length h payload
  have hmax : maxFrame = headerAddressed + maxPayload + crcLen := rfl
  have hfits : (h.body payload).length + crcLen ≤ maxFrame := by omega
  have hraw := length_cobsEncodeFrom []
    (h.body payload ++ Bytes.le crcLen (crc32c (h.body payload)).toNat)
  rw [length_append, Bytes.length_le, length_nil, Nat.zero_add] at hraw
  have hwire : maxWire = maxFrame + maxFrame / 254 + 1 + 1 := rfl
  rw [encode, if_neg (not_or.mpr ⟨Nat.not_lt.mpr hp, UInt8.not_lt.mpr ha⟩)]
  dsimp only
  rw [ensure_ok hfits, except_ok_bind, if_pos]
  · exact ⟨_, rfl⟩
  · rw [length_append, length_singleton, cobsEncode]
    omega

section RoundTrip

variable {n room : Nat} {block : Bytes} {h : Header}

theorem toNat_code (h : n < 255) : (UInt8.ofNat (n + 1)).toNat = n + 1 := by
  rw [UInt8.toNat_ofNat']
  omega

theorem code_lt (h : n < 254) : UInt8.ofNat (n + 1) < 0xff := by
  rw [UInt8.lt_iff_toNat_lt, toNat_code (by omega)]
  exact Nat.succ_lt_succ h

theorem code_ne_zero (h : n < 255) : UInt8.ofNat (n + 1) ≠ 0 := by
  intro heq
  have := congrArg UInt8.toNat heq
  rw [toNat_code h] at this
  cases this

theorem cobsEncodeFrom_nonzero (data : Bytes) (hblock : ∀ b ∈ block, b ≠ 0)
    (hlen : block.length < 254) : ∀ b ∈ cobsEncodeFrom block data, b ≠ 0 := by
  induction data generalizing block with
  | nil =>
    intro b hb
    rcases mem_cons.mp hb with rfl | hb
    · exact code_ne_zero (by omega)
    · exact hblock b hb
  | cons c data ih =>
    have hnil : ∀ b ∈ cobsEncodeFrom [] data, b ≠ 0 := ih (fun _ h => absurd h not_mem_nil) (by decide)
    rw [cobsEncodeFrom]
    split
    · intro b hb
      rcases mem_append.mp hb with hb | hb
      · rcases mem_cons.mp hb with rfl | hb
        · exact code_ne_zero (by omega)
        · exact hblock b hb
      · exact hnil b hb
    · rename_i hc
      have hmore : ∀ b ∈ block ++ [c], b ≠ 0 := by
        intro b hb
        rcases mem_append.mp hb with hb | hb
        · exact hblock b hb
        · rw [mem_singleton.mp hb]
          exact hc
      split
      · intro b hb
        rcases mem_append.mp hb with hb | hb
        · rcases mem_cons.mp hb with rfl | hb
          · decide
          · exact hmore b hb
        · exact hnil b hb
      · refine ih hmore ?_
        rw [length_append, length_singleton]
        omega

theorem cobsEncodeFrom_ne_nil (block data : Bytes) : cobsEncodeFrom block data ≠ [] := by
  induction data generalizing block with
  | nil => exact cons_ne_nil _ _
  | cons b data ih =>
    rw [cobsEncodeFrom]
    split
    · exact cons_ne_nil _ _
    split
    · exact cons_ne_nil _ _
    · exact ih (block ++ [b])

/-- One block of a code `n + 1`. -/
theorem cobsDecodeFrom_block (fuel : Nat) {code : UInt8} (rest : Bytes)
    (hcode : code.toNat = n + 1) (hblock : block.length = n) (hroom : n ≤ room) :
    cobsDecodeFrom (fuel + 1) room (code :: block ++ rest) =
      if code < 0xff ∧ rest ≠ [] then
        if room - n = 0 then none
        else (cobsDecodeFrom fuel (room - n - 1) rest).map fun out => block ++ 0 :: out
      else (cobsDecodeFrom fuel (room - n) rest).map fun out => block ++ out := by
  have hzero : code ≠ 0 := by
    rintro rfl
    cases hcode
  have hsub : code.toNat - 1 = n := by omega
  have htake : (block ++ rest).take n = block := take_left' hblock
  have hdrop : (block ++ rest).drop n = rest := drop_left' hblock
  rw [cons_append, cobsDecodeFrom, hsub, if_neg, htake, hdrop]
  rintro (h | h | h)
  · exact hzero h
  · rw [length_append] at h
    omega
  · omega

/-- A COBS form of the data: blocks, each a code and one byte less than the code says. A block but the
last stands for a zero after it, unless it is full. -/
inductive CobsForm : Bytes → Bytes → Prop where
  | nil : CobsForm [] []
  | last {code : UInt8} {block : Bytes} : code < 0xff → code.toNat = block.length + 1 →
      CobsForm (code :: block) block
  | zero {code : UInt8} {block wire data : Bytes} : code < 0xff → code.toNat = block.length + 1 →
      wire ≠ [] → CobsForm wire data → CobsForm (code :: block ++ wire) (block ++ 0 :: data)
  | full {block wire data : Bytes} : block.length = 254 → CobsForm wire data →
      CobsForm (0xff :: block ++ wire) (block ++ data)

theorem CobsForm.decode {wire data : Bytes} (h : CobsForm wire data) {fuel : Nat}
    (hfuel : wire.length ≤ fuel) (hroom : data.length ≤ room) :
    cobsDecodeFrom fuel room wire = some data := by
  induction h generalizing fuel room with
  | nil => cases fuel <;> rfl
  | @last code block hcode hlen =>
    cases fuel with
    | zero => cases hfuel
    | succ fuel =>
      have hdec := cobsDecodeFrom_block fuel [] hlen rfl hroom
      rw [append_nil, if_neg fun h => h.2 rfl] at hdec
      rw [hdec]
      cases fuel <;> simp [cobsDecodeFrom]
  | @zero code block wire data hcode hlen hne _ ih =>
    rw [length_append, length_cons] at hfuel hroom
    cases fuel with
    | zero => omega
    | succ fuel =>
      rw [cobsDecodeFrom_block fuel wire hlen rfl (by omega), if_pos ⟨hcode, hne⟩, if_neg (by omega),
        ih (by omega) (by omega)]
      rfl
  | @full block wire data hlen _ ih =>
    rw [length_append] at hfuel hroom
    rw [length_cons] at hfuel
    cases fuel with
    | zero => omega
    | succ fuel =>
      rw [cobsDecodeFrom_block (n := 254) fuel wire rfl hlen (by omega),
        if_neg fun h => absurd h.1 (by decide), ih (by omega) (by omega)]
      rfl

theorem cobsEncodeFrom_form (data : Bytes) (hlen : block.length < 254) :
    CobsForm (cobsEncodeFrom block data) (block ++ data) := by
  induction data generalizing block with
  | nil =>
    rw [append_nil]
    exact .last (code_lt hlen) (toNat_code (by omega))
  | cons b data ih =>
    rw [cobsEncodeFrom]
    split
    · rename_i hb
      rw [hb]
      exact .zero (code_lt hlen) (toNat_code (by omega)) (cobsEncodeFrom_ne_nil [] data) (ih (by decide))
    · have happ : block ++ b :: data = block ++ [b] ++ data := by rw [append_assoc, singleton_append]
      rw [happ]
      have hmore : (block ++ [b]).length = block.length + 1 := by rw [length_append, length_singleton]
      split
      · exact .full (by omega) (ih (by decide))
      · exact ih (by omega)

theorem cobsDecode_encode {data : Bytes} (h : data.length ≤ room) :
    cobsDecode room (cobsEncode data) = some data := by
  have hform : CobsForm (cobsEncodeFrom [] data) ([] ++ data) := cobsEncodeFrom_form data (by decide)
  exact hform.decode (Nat.le_refl _) h

theorem headerOf_body (ha : h.address ≤ addressMax) (payload : Bytes) {rest : Bytes}
    (hrest : rest.length = crcLen) :
    headerOf (h.body payload ++ rest) = some (h.lead.length + 7, h.address) := by
  rw [body_eq, Header.lead]
  by_cases h0 : h.address = 0
  · rw [if_pos h0, h0]
    rfl
  · have hversion : versionAddressed ≠ version := by decide
    rw [if_neg h0, headerOf]
    refine (if_neg hversion).trans ((if_pos ?_).trans rfl)
    · refine ⟨rfl, ?_, ?_, ha⟩
      · rw [length_append, length_append, length_append, length_fields, hrest]
        change 9 + crcLen ≤ 2 + (7 + payload.length) + crcLen
        omega
      · have hpos : h.address.toNat ≠ 0 := fun hz => h0 (UInt8.toNat_inj.mp hz)
        change 1 ≤ h.address.toNat
        omega

theorem check_frame {wire payload : Bytes} (hp : payload.length ≤ maxPayload) (ha : h.address ≤ addressMax)
    (hdec : cobsDecode maxFrame wire =
      some (h.body payload ++ Bytes.le crcLen (crc32c (h.body payload)).toNat)) :
    check wire = .ok (some (h, payload)) := by
  have hmax : maxPayload = 1024 := rfl
  have hlead : 1 ≤ h.lead.length := by
    rw [Header.lead]
    split
    · exact Nat.le_refl 1
    · exact Nat.le_succ 1
  have hlen : Bytes.ofLe ((h.fields payload.length).drop 5) = payload.length := by
    have hdrop : (h.fields payload.length).drop 5 = Bytes.le 2 payload.length := by
      exact drop_left' (by simp)
    rw [hdrop, Bytes.ofLe_le 2 _ (by omega)]
  have hseq : UInt16.ofNat (Bytes.ofLe (((h.fields payload.length).drop 3).take 2)) = h.seq := by
    have htake : ((h.fields payload.length).drop 3).take 2 = Bytes.le 2 h.seq.toNat := by
      change (Bytes.le 2 h.seq.toNat ++ Bytes.le 2 payload.length).take 2 = _
      exact take_left' (by simp)
    rw [htake, Bytes.ofLe_le 2 _ h.seq.toNat_lt, UInt16.ofNat_toNat]
  have hhead := headerOf_body ha payload (Bytes.length_le crcLen (crc32c (h.body payload)).toNat)
  have hbody := body_eq h payload
  rw [hbody, append_assoc, append_assoc, ← hbody] at hdec hhead
  rw [check_parts (length_fields h _) hlen.symm (Bytes.length_le _ _) hdec hhead hlead hp, ← hbody,
    if_neg (not_not.mpr rfl), hseq]
  rfl

theorem length_frame (hp : payload.length ≤ maxPayload) :
    (h.body payload ++ Bytes.le crcLen (crc32c (h.body payload)).toNat).length ≤ maxFrame := by
  have hbody := body_length h payload
  have hmax : maxFrame = headerAddressed + maxPayload + crcLen := rfl
  rw [length_append, Bytes.length_le]
  omega

theorem encode_wire {payload wire : Bytes} (henc : encode h payload = .ok (some wire)) :
    ∃ bytes, wire = bytes ++ [0] ∧ bytes.all (· != 0) = true ∧ bytes ≠ [] ∧
      bytes.length ≤ maxWire ∧ check bytes = .ok (some (h, payload)) := by
  rw [encode] at henc
  split at henc
  · cases henc
  rename_i hfits
  obtain ⟨hp, ha⟩ := not_or.mp hfits
  obtain ⟨_, -, hwire⟩ := ok_of_bind henc
  injection hwire with hwire
  split at hwire
  · rename_i hlen
    injection hwire with hwire
    refine ⟨_, hwire.symm, ?_, cobsEncodeFrom_ne_nil _ _, ?_, check_frame (Nat.not_lt.mp hp)
      (UInt8.not_lt.mp ha) (cobsDecode_encode (length_frame (Nat.not_lt.mp hp)))⟩
    · refine all_eq_true.mpr ?_
      intro b hb
      exact bne_iff_ne.mpr (cobsEncodeFrom_nonzero _ (fun _ h => absurd h not_mem_nil) (by decide) b hb)
    · rw [length_append] at hlen
      omega
  · cases hwire

end RoundTrip

def Decoder.Idle (d : Decoder) : Prop := d.wire.val = [] ∧ d.overflow = false

theorem Decoder.Idle.eq {d : Decoder} (h : d.Idle) : d = ⟨⟨[], Nat.zero_le _⟩, false, d.dropped⟩ := by
  obtain ⟨⟨wire, hle⟩, overflow, dropped⟩ := d
  obtain ⟨hwire, hover⟩ := h
  cases hwire
  cases hover
  rfl

end MindCore.Linkproto
