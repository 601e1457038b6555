import Mathlib.Data.List.Forall2
import Mathlib.Data.List.ReduceOption
import MindCore.Linkproto.Frame

/-!
# Frames on a line

What a `Decoder` makes of all the bytes pushed into it: the frames among the runs that zeros end.
-/

namespace MindCore.Linkproto

open List
open Proc (Stop)

variable {run wire : Bytes} {d : Decoder}

theorem CobsForm.of_decode {fuel room : Nat} {data : Bytes}
    (h : cobsDecodeFrom fuel room wire = some data) : CobsForm wire data := by
  induction fuel generalizing room wire data with
  | zero =>
    cases wire with
    | nil =>
      cases h
      exact .nil
    | cons code wire => cases h
  | succ fuel ih =>
    cases wire with
    | nil =>
      cases h
      exact .nil
    | cons code wire =>
      have hbad : ¬(code = 0 ∨ wire.length < code.toNat - 1 ∨ room < code.toNat - 1) := by
        intro hbad
        rw [cobsDecodeFrom, if_pos hbad] at h
        cases h
      obtain ⟨hzero, hlen, hroom⟩ := (not_or.mp hbad).imp_right not_or.mp
      have hpos : code.toNat ≠ 0 := fun h0 => hzero (UInt8.toNat_inj.mp h0)
      obtain ⟨block, wire, rfl, hblock⟩ := exists_append_of_le (Nat.not_lt.mp hlen)
      have hcode : code.toNat = block.length + 1 := by omega
      rw [← cons_append, cobsDecodeFrom_block fuel wire hcode rfl (by omega)] at h
      split at h
      · rename_i hmore
        split at h
        · cases h
        · obtain ⟨out, hout, rfl⟩ := Option.map_eq_some_iff.mp h
          exact .zero hmore.1 hcode hmore.2 (ih hout)
      · rename_i hlast
        obtain ⟨out, hout, rfl⟩ := Option.map_eq_some_iff.mp h
        by_cases hfull : code < 0xff
        · obtain rfl : wire = [] := not_not.mp fun hne => hlast ⟨hfull, hne⟩
          cases ih hout
          rw [append_nil]
          exact .last hfull hcode
        · have hmax : code.toNat = 255 :=
            Nat.le_antisymm (Nat.le_of_lt_succ code.toNat_lt) (UInt8.not_lt.mp hfull)
          obtain rfl : code = 0xff := UInt8.toNat_inj.mp hmax
          exact .full (by omega) (ih hout)

/-- The run is the COBS form of a frame, of version 1 or, with an address, 2. -/
def Carries (run : Bytes) (f : Header × Bytes) : Prop :=
  run.length ≤ maxWire ∧ Fits f ∧
    CobsForm run (f.1.body f.2 ++ Bytes.le crcLen (crc32c (f.1.body f.2)).toNat)

theorem carries_iff (f : Header × Bytes) :
    Carries run f ↔ run.length ≤ maxWire ∧ check run = .ok (some f) := by
  refine and_congr_right fun _ => ⟨?_, ?_⟩
  · rintro ⟨hfits, hform⟩
    exact check_frame hfits.1 hfits.2 (hform.decode (Nat.le_refl _) (length_frame hfits.1))
  · intro hcheck
    obtain ⟨frame, hframe, hf⟩ := check_some run
    cases hcheck.symm.trans hframe
    obtain ⟨hfits, hdec⟩ := hf f rfl
    exact ⟨hfits, .of_decode hdec⟩

/-- The runs that zeros end, the first of them begun with `run`. -/
def zeroEnded (run : Bytes) : Bytes → List Bytes
  | [] => []
  | b :: bytes => if b = 0 then run :: zeroEnded [] bytes else zeroEnded (run ++ [b]) bytes

/-- What the zero after the run has to return. -/
def Found (run : Bytes) (frame : Option (Header × Bytes)) : Prop := ∀ f, frame = some f ↔ Carries run f

def others (runs : List Bytes) (found : List (Option (Header × Bytes))) : Nat :=
  (runs.zip found).countP fun p => p.1 ≠ [] ∧ p.2 = none

theorem others_cons (run : Bytes) (frame : Option (Header × Bytes)) (runs : List Bytes)
    (found : List (Option (Header × Bytes))) :
    others (run :: runs) (frame :: found) = others [run] [frame] + others runs found := by
  rw [others, zip_cons_cons, ← singleton_append, countP_append]
  rfl

namespace Decoder

/-- All of `bytes` pushed, and the frames returned. -/
def pushAll : Decoder → Bytes → Except (Stop UInt8) (Decoder × List (Header × Bytes))
  | d, [] => .ok (d, [])
  | d, b :: bytes => do
    let (d, frame) ← d.push b
    let (d, frames) ← d.pushAll bytes
    return (d, frame.toList ++ frames)

/-- The decoder has the bytes of `run` since the last zero. -/
def Gathers (d : Decoder) (run : Bytes) : Prop :=
  d.wire.val = run.take maxWire ∧ (d.overflow = true ↔ maxWire < run.length)

theorem push_gathers (hd : d.Gathers run) {b : UInt8} (hb : b ≠ 0) :
    ∃ d', d.push b = .ok (d', none) ∧ d'.Gathers (run ++ [b]) ∧ d'.dropped = d.dropped := by
  obtain ⟨hwire, hover⟩ := hd
  rw [push, if_pos hb]
  have hlen : (run ++ [b]).length = run.length + 1 := by rw [length_append, length_singleton]
  by_cases h : run.length < maxWire
  · have hrun : run.take maxWire = run := take_of_length_le (Nat.le_of_lt h)
    rw [dif_pos (by rwa [hwire, hrun])]
    refine ⟨_, rfl, ⟨?_, ?_⟩, rfl⟩
    · change d.wire.val ++ [b] = _
      rw [hwire, hrun, take_of_length_le (by omega)]
    · rw [hover]
      omega
  · have hfull : d.wire.val.length = maxWire := by
      rw [hwire]
      exact length_take_of_le (Nat.not_lt.mp h)
    rw [dif_neg (by omega)]
    refine ⟨_, rfl, ⟨?_, ?_⟩, rfl⟩
    · rw [take_append_of_le_length (Nat.not_lt.mp h)]
      exact hwire
    · exact iff_of_true rfl (by omega)

theorem gathers_nil (d : Decoder) (hwire : d.wire.val = []) (hover : d.overflow = false) : d.Gathers [] := by
  refine ⟨hwire, ?_⟩
  rw [hover]
  decide

theorem finish_gathers (hd : d.Gathers run) : ∃ frame, d.finish = .ok frame ∧ Found run frame := by
  obtain ⟨hwire, hover⟩ := hd
  rw [finish]
  by_cases h : maxWire < run.length
  · rw [if_pos (hover.mpr h)]
    exact ⟨none, rfl, fun f => iff_of_false (Option.some_ne_none f).symm fun hf => Nat.not_lt.mpr hf.1 h⟩
  · rw [if_neg (mt hover.mp h), hwire, take_of_length_le (Nat.not_lt.mp h)]
    obtain ⟨frame, hframe, -⟩ := check_ok run
    refine ⟨frame, hframe, fun f => ?_⟩
    rw [carries_iff, hframe, Except.ok.injEq]
    exact (and_iff_right (Nat.not_lt.mp h)).symm

theorem push_ends (hd : d.Gathers run) : ∃ d' frame, d.push 0 = .ok (d', frame) ∧ d'.Gathers [] ∧
    Found run frame ∧ d'.dropped = d.dropped + UInt32.ofNat (others [run] [frame]) := by
  have hnil : d.wire.val = [] ↔ run = [] := by
    rw [hd.1, take_eq_nil_iff]
    exact or_iff_right (by decide)
  rw [push, if_neg (not_not.mpr rfl)]
  by_cases hrun : run = []
  · rw [if_pos (hnil.mpr hrun)]
    subst hrun
    refine ⟨_, none, rfl, gathers_nil _ (hnil.mpr rfl) rfl,
      fun f => iff_of_false (Option.some_ne_none f).symm fun hf => ?_, (UInt32.add_zero _).symm⟩
    cases ((carries_iff f).mp hf).2
  · obtain ⟨frame, hframe, hfound⟩ := finish_gathers hd
    rw [if_neg (mt hnil.mp hrun), hframe]
    refine ⟨_, frame, rfl, gathers_nil _ rfl rfl, hfound, ?_⟩
    cases frame with
    | none =>
      have hone : others [run] [none] = 1 := by simp [others, hrun]
      rw [hone]
      rfl
    | some f =>
      have hnone : others [run] [some f] = 0 := by simp [others]
      rw [hnone]
      exact (UInt32.add_zero _).symm

theorem pushAll_found (bytes : Bytes) (hd : d.Gathers run) : ∃ d' found, d.pushAll bytes = .ok (d', found.reduceOption) ∧
    Forall₂ Found (zeroEnded run bytes) found ∧ (∃ rest, d'.Gathers rest) ∧
    d'.dropped = d.dropped + UInt32.ofNat (others (zeroEnded run bytes) found) := by
  induction bytes generalizing d run with
  | nil => exact ⟨d, [], rfl, .nil, ⟨run, hd⟩, (UInt32.add_zero _).symm⟩
  | cons b bytes ih =>
    rw [zeroEnded]
    by_cases hb : b = 0
    · subst hb
      obtain ⟨d₁, frame, hpush, hgathers, hfound, hdropped⟩ := push_ends hd
      obtain ⟨d', found, hall, hfounds, hrest, hcount⟩ := ih hgathers
      rw [if_pos rfl]
      refine ⟨d', frame :: found, ?_, .cons hfound hfounds, hrest, ?_⟩
      · rw [pushAll, hpush, except_ok_bind]
        dsimp only
        rw [hall]
        cases frame <;> rfl
      · rw [hcount, hdropped, others_cons run frame (zeroEnded [] bytes), UInt32.ofNat_add, UInt32.add_assoc]
    · obtain ⟨d₁, hpush, hgathers, hdropped⟩ := push_gathers hd hb
      obtain ⟨d', found, hall, hfounds, hrest, hcount⟩ := ih hgathers
      rw [if_neg hb]
      refine ⟨d', found, ?_, hfounds, hrest, hdropped ▸ hcount⟩
      rw [pushAll, hpush, except_ok_bind]
      dsimp only
      rw [hall]
      rfl

theorem pushAll_append {d₁ d₂ : Decoder} {as bs : Bytes} {fs gs : List (Header × Bytes)}
    (ha : d.pushAll as = .ok (d₁, fs)) (hb : d₁.pushAll bs = .ok (d₂, gs)) :
    d.pushAll (as ++ bs) = .ok (d₂, fs ++ gs) := by
  induction as generalizing d fs with
  | nil =>
    cases ha
    exact hb
  | cons b as ih =>
    obtain ⟨⟨d', frame⟩, hpush, ha⟩ := ok_of_bind ha
    obtain ⟨⟨d'', frames⟩, hall, ha⟩ := ok_of_bind ha
    cases ha
    rw [cons_append, pushAll, hpush, except_ok_bind]
    dsimp only
    rw [ih hall, except_ok_bind, append_assoc]
    rfl

end Decoder

theorem zeroEnded_nonzero (hwire : ∀ b ∈ wire, b ≠ 0) : zeroEnded run (wire ++ [0]) = [run ++ wire] := by
  induction wire generalizing run with
  | nil => rw [append_nil]; rfl
  | cons b wire ih =>
    rw [cons_append, zeroEnded, if_neg (hwire b mem_cons_self), ih fun c hc => hwire c (mem_cons_of_mem b hc),
      append_assoc, singleton_append]

/-- Whatever was pushed before, every frame comes through, and nothing else does. -/
theorem frames_come_through (bytes : Bytes) :
    (∃ d found, Decoder.new.pushAll bytes = .ok (d, found.reduceOption) ∧
      Forall₂ Found (zeroEnded [] bytes) found ∧
      d.dropped = UInt32.ofNat (others (zeroEnded [] bytes) found)) ∧
    ∀ h payload, Fits (h, payload) → ∃ wire, encode h payload = .ok (some (wire ++ [0])) ∧
      (∀ b ∈ wire, b ≠ 0) ∧ ∃ d frames d', Decoder.new.pushAll (bytes ++ [0]) = .ok (d, frames) ∧
        Decoder.new.pushAll (bytes ++ [0] ++ (wire ++ [0])) = .ok (d', frames ++ [(h, payload)]) ∧
        d'.dropped = d.dropped := by
  have hnew : Decoder.new.Gathers [] := Decoder.gathers_nil _ rfl rfl
  obtain ⟨d, found, hall, hfound, ⟨rest, hrest⟩, hdropped⟩ := Decoder.pushAll_found bytes hnew
  refine ⟨⟨d, found, hall, hfound, hdropped.trans (UInt32.zero_add _)⟩, ?_⟩
  intro h payload hfits
  obtain ⟨sent, hsent⟩ := encode_ok h payload hfits.1 hfits.2
  obtain ⟨wire, rfl, hnz, -, hlen, hcheck⟩ := encode_wire hsent
  have hnz : ∀ b ∈ wire, b ≠ 0 := fun b hb => bne_iff_ne.mp (all_eq_true.mp hnz b hb)
  obtain ⟨d₁, frame, hpush, hidle, -, -⟩ := Decoder.push_ends hrest
  have hzero : d.pushAll [0] = .ok (d₁, frame.toList ++ []) := by
    rw [Decoder.pushAll, hpush]
    rfl
  obtain ⟨d', found', hall', hfound', -, hdropped'⟩ := Decoder.pushAll_found (wire ++ [0]) hidle
  rw [zeroEnded_nonzero hnz, nil_append] at hfound' hdropped'
  cases hfound' with
  | @cons _ got _ _ hgot hnil =>
    cases hnil
    obtain rfl : got = some (h, payload) := (hgot (h, payload)).mpr ((carries_iff _).mpr ⟨hlen, hcheck⟩)
    have hgarbage := Decoder.pushAll_append hall hzero
    refine ⟨wire, hsent, hnz, d₁, _, d', hgarbage, Decoder.pushAll_append hgarbage hall', ?_⟩
    have hnone : others [wire] [some (h, payload)] = 0 := by simp [others]
    rw [hdropped', hnone]
    exact UInt32.add_zero _

end MindCore.Linkproto
