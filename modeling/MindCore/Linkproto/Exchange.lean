import Mathlib.Data.List.Pairwise
import MindCore.Linkproto.Slave

/-!
# Calls and answers

`Master::exchange` and `Slave::serve` of `linkproto/src/endpoint.rs` over two lines that keep the
order of what they carry and may lose any of it. What a line carries is a list of frames: one with a
byte lost or damaged does not pass its checksum, so it is lost as a whole. Each frame is marked with
the number of the call it belongs to, which neither end reads.
-/

namespace MindCore.Linkproto

open List Proc

inductive CallError where
  | line
  | timeout
  | tooBig
  | refused (code : UInt8)
  | protocol
deriving DecidableEq

structure Ask where
  channel : UInt8
  kind : UInt8
  payload : Bytes
deriving DecidableEq

structure Parcel where
  head : Header
  payload : Bytes
  call : Nat

/-- A request that was carried out: the call it came from and what `handle` answered. -/
structure Deed where
  call : Nat
  ask : Ask
  answer : Except UInt8 Bytes

abbrev Mark := UInt8 × UInt8 × UInt16 × UInt32

def Ask.mark (a : Ask) (seq : UInt16) : Mark := (a.channel, a.kind, seq, crc32c a.payload)

class Service (S : Type) where
  handle : UInt8 → UInt8 → Bytes → S → Except UInt8 Bytes × S

/-- A master and a slave of one address, and the lines between them. `asked` is what each call asked,
`deeds` what was carried out and `results` what the calls returned, the newest first. -/
structure Exchange (S : Type) where
  seq : UInt16
  calls : Nat
  asked : Nat → Ask
  waiting : Bool
  up : List Parcel
  down : List Parcel
  service : S
  last : Option Mark
  answer : Parcel
  deeds : List Deed
  results : List (Nat × Except CallError Bytes)

namespace Exchange

variable {S : Type}

section Steps
variable (address : UInt8)

/-- A call begins: it takes the next sequence number, also when its request is too big to send. -/
def start (ask : Ask) (s : Exchange S) : Exchange S :=
  let s' := { s with
    seq := s.seq + 1
    calls := s.calls + 1
    asked := fun c => if c = s.calls + 1 then ask else s.asked c }
  if ask.payload.length ≤ maxPayload ∧ address ≤ addressMax then { s' with waiting := true }
  else { s' with results := (s.calls + 1, .error .tooBig) :: s.results }

def request (s : Exchange S) : Parcel :=
  ⟨⟨address, (s.asked s.calls).channel, (s.asked s.calls).kind, 0, s.seq⟩, (s.asked s.calls).payload, s.calls⟩

def replyTo (kind : UInt8) : Except UInt8 Bytes → UInt8 × Bytes
  | .ok data => (kind ||| reply, data)
  | .error code => (errorKind, [code])

def answerTo (f : Parcel) (r : Except UInt8 Bytes) : Parcel :=
  ⟨⟨address, f.head.channel, (replyTo f.head.kind r).1, 0, f.head.seq⟩, (replyTo f.head.kind r).2, f.call⟩

def write (written : Bool) (s : Exchange S) : Exchange S :=
  if written = true then { s with down := s.down ++ [s.answer] } else s

/-- A request the slave does not remember. An answer is at most what a frame carries. -/
def carryOut [Service S] (f : Parcel) (s : Exchange S) : Exchange S :=
  let r := Service.handle f.head.channel f.head.kind f.payload s.service
  let answer := r.1.map (List.take maxPayload)
  { s with
    service := r.2
    last := some (Ask.mark ⟨f.head.channel, f.head.kind, f.payload⟩ f.head.seq)
    answer := answerTo address f answer
    deeds := ⟨f.call, ⟨f.head.channel, f.head.kind, f.payload⟩, answer⟩ :: s.deeds }

def onRequest [Service S] (f : Parcel) (written : Bool) (s : Exchange S) : Exchange S :=
  if f.head.kind &&& reply ≠ 0 ∨ f.head.address ≠ address then s
  else if s.last = some (Ask.mark ⟨f.head.channel, f.head.kind, f.payload⟩ f.head.seq) then
    write written s
  else write written (carryOut address f s)

def outcome (kind : UInt8) (room : Nat) (f : Parcel) : Except CallError Bytes :=
  if f.head.kind = errorKind then .error (.refused (f.payload.headD 0))
  else if f.head.kind ≠ kind ||| reply then .error .protocol
  else if f.payload.length ≤ room then .ok f.payload
  else .error .tooBig

def onAnswer (f : Parcel) (room : Nat) (s : Exchange S) : Exchange S :=
  if f.head.kind &&& reply = 0 ∨ f.head.seq ≠ s.seq ∨ f.head.channel ≠ (s.asked s.calls).channel ∨
      f.head.address ≠ address then s
  else { s with
    waiting := false
    results := (s.calls, outcome (s.asked s.calls).kind room f) :: s.results }

/-- What happens next: a call begins, its request is written, now or again, the call gives up, a line
loses a frame, the slave takes a request off its line and writes an answer, or fails to, and the
master takes an answer off its own. -/
inductive Act where
  | call (ask : Ask)
  | send
  | giveUp (e : CallError)
  | loseUp (i : Nat)
  | loseDown (i : Nat)
  | serve (written : Bool)
  | receive (room : Nat)

def act [Service S] (a : Act) (s : Exchange S) : Exchange S :=
  match a with
  | .call ask => if s.waiting = true then s else s.start address ask
  | .send => if s.waiting = true then { s with up := s.up ++ [s.request address] } else s
  | .giveUp e =>
    if s.waiting = true ∧ (e = .line ∨ e = .timeout) then
      { s with waiting := false, results := (s.calls, .error e) :: s.results }
    else s
  | .loseUp i => { s with up := s.up.eraseIdx i }
  | .loseDown i => { s with down := s.down.eraseIdx i }
  | .serve written =>
    match s.up with
    | [] => s
    | f :: up => onRequest address f written { s with up := up }
  | .receive room =>
    match s.down with
    | [] => s
    | f :: down => if s.waiting = true then onAnswer address f room { s with down := down } else s

end Steps

def new (seq : UInt16) (service : S) : Exchange S :=
  ⟨seq, 0, fun _ => ⟨0, 0, []⟩, false, [], [], service, none, ⟨⟨0, 0, 0, 0, 0⟩, [], 0⟩, [], []⟩

/-! ### The slave of a file service

`Slave.onFrame` writes bytes and `onRequest` parcels; on the same frames they keep the same state. -/

section Speaks
variable {F : Type} [Files F] [Sha256] {address : UInt8} {x : Exchange (FileService F)} {s : Slave F}
variable {h : Header} {p : Bytes}

/-- What a slave hands its service. A trap is no answer: `handle_answers`. -/
instance : Service (FileService F) where
  handle channel kind p service :=
    match (handle channel kind p maxPayload).run service with
    | .ok data t => (.ok data, t)
    | .error (.fail code) t => (.error code.byte, t)
    | .error _ t => (.error Code.io.byte, t)

structure Speaks (address : UInt8) (x : Exchange (FileService F)) (s : Slave F) : Prop where
  service : s.service = x.service
  address : s.address = address
  last : s.last = x.last
  answer : x.last ≠ none →
    encode x.answer.head x.answer.payload = .ok (some s.answer) ∧ s.shown = x.answer.payload

/-- What the slave wrote is on the line. -/
def Sends (x x' : Exchange (FileService F)) (s t : Slave F) : Prop :=
  x'.down = x.down ∧ t.sent = s.sent ∨ ∃ parcel sent, x'.down = x.down ++ [parcel] ∧
    t.sent = sent :: s.sent ∧ encode parcel.head parcel.payload = .ok (some sent.wire)

omit [Files F] [Sha256] in
theorem Speaks.write (hx : Speaks address x s) (hl : x.last ≠ none) :
    ((Slave.write : Proc _ (Slave F) PUnit).run s).Meets
      (fun _ t => Speaks address (write true x) t ∧ Sends x (write true x) s t)
      fun e t => e = .fail .line ∧ Speaks address (write false x) t := by
  rw [Slave.write, get_bind, bind_ok (run_set _ s)]
  by_cases hw : s.writes.headD true = true
  · rw [ensure_pos hw]
    refine ⟨⟨hx.service, hx.address, hx.last, hx.answer⟩, .inr ⟨x.answer, _, rfl, rfl, ?_⟩⟩
    exact (hx.answer hl).1
  · rw [ensure_neg hw]
    exact ⟨rfl, hx.service, hx.address, hx.last, hx.answer⟩

theorem Speaks.redo (hF : Files.Keeps F) (hx : Speaks address x s) (hs : Served s.service) (hfits : Fits (h, p))
    (ha : h.address = address) (call : Nat) : ∃ t, (Slave.redo h p).run s = .ok ⟨⟩ t ∧ t.sent = s.sent ∧
      Speaks address (carryOut address ⟨h, p, call⟩ x) t := by
  have hanswer := handle_answers hF h.channel h.kind p s.service hs
  have hlast : some (Ask.mark ⟨h.channel, h.kind, p⟩ h.seq) = some (h.channel, h.kind, h.seq, crc32c p) := rfl
  cases hr : (handle h.channel h.kind p maxPayload).run s.service with
  | ok data t =>
    obtain ⟨wire, hwire, hframed⟩ := Slave.framed_ok ⟨h.address, h.channel, h.kind ||| reply, 0, h.seq⟩
      (data.take maxPayload) (length_take_le _ _) hfits.2
    refine ⟨_, Slave.redo_run hfits.1 (Slave.onService_ok hr) rfl hframed, rfl, ?_⟩
    rw [hx.service] at hr
    simp only [carryOut, Service.handle, hr]
    exact ⟨rfl, hx.address, hlast.symm, fun _ => ⟨ha ▸ hwire, rfl⟩⟩
  | error e t =>
    rw [hr] at hanswer
    obtain ⟨⟨code, rfl⟩, -⟩ := hanswer
    obtain ⟨wire, hwire, hframed⟩ := Slave.framed_ok ⟨h.address, h.channel, errorKind, 0, h.seq⟩ [code.byte]
      (show 1 ≤ maxPayload by decide) hfits.2
    refine ⟨_, Slave.redo_run hfits.1 (Slave.onService_error hr) rfl hframed, rfl, ?_⟩
    rw [hx.service] at hr
    simp only [carryOut, Service.handle, hr]
    exact ⟨rfl, hx.address, hlast.symm, fun _ => ⟨ha ▸ hwire, rfl⟩⟩

/-- A frame does to the slave what the parcel does. -/
theorem Speaks.onFrame (hF : Files.Keeps F) (hx : Speaks address x s) (hs : Served s.service)
    (hfits : Fits (h, p)) (call : Nat) :
    ((Slave.onFrame h p).run s).Meets
      (fun _ t => Speaks address (onRequest address ⟨h, p, call⟩ true x) t ∧
        Sends x (onRequest address ⟨h, p, call⟩ true x) s t)
      fun e t => e = .fail .line ∧ Speaks address (onRequest address ⟨h, p, call⟩ false x) t := by
  unfold Slave.onFrame
  rw [get_bind, hx.address, hx.last]
  by_cases hother : h.kind &&& reply ≠ 0 ∨ h.address ≠ address
  · have hreq : ∀ w, onRequest address ⟨h, p, call⟩ w x = x := fun w => if_pos hother
    simp only [hreq, if_pos hother]
    exact ⟨hx, .inl ⟨rfl, rfl⟩⟩
  have hmine : h.address = address := not_not.mp (not_or.mp hother).2
  rw [if_neg hother, bind_ok (run_modify _ s)]
  have hx' : Speaks address x { s with requests := s.requests + 1 } := ⟨hx.service, hx.address, hx.last, hx.answer⟩
  by_cases hagain : x.last = some (h.channel, h.kind, h.seq, crc32c p)
  · have hreq : ∀ w, onRequest address ⟨h, p, call⟩ w x = Exchange.write w x := by
      intro w
      rw [onRequest, if_neg hother]
      exact if_pos hagain
    simp only [hreq, if_pos hagain]
    rw [bind_ok (run_modify _ _)]
    refine Speaks.write (s := { s with requests := s.requests + 1, retries := s.retries + 1 })
      ⟨hx.service, hx.address, hx.last, hx.answer⟩ ?_
    rw [hagain]
    exact Option.some_ne_none _
  · have hreq : ∀ w, onRequest address ⟨h, p, call⟩ w x = Exchange.write w (carryOut address ⟨h, p, call⟩ x) := by
      intro w
      rw [onRequest, if_neg hother]
      exact if_neg hagain
    simp only [hreq, if_neg hagain]
    obtain ⟨t, hrun, hsent, ht⟩ := hx'.redo hF hs hfits hmine call
    rw [bind_ok hrun]
    refine meets_mono (ht.write (Option.some_ne_none _)) ?_ fun e u he => he
    rintro _ u ⟨hu, hsends⟩
    refine ⟨hu, ?_⟩
    rw [Sends, hsent] at hsends
    exact hsends

/-- So do all the frames of a read whose answers are written. -/
theorem Speaks.frames (hF : Files.Keeps F) (fs : List Parcel) (hx : Speaks address x s) (hs : Slave.Fine s)
    (hfits : ∀ f ∈ fs, Fits (f.head, f.payload)) {t : Slave F}
    (hr : (Proc.each (fun f : Parcel => Slave.onFrame f.head f.payload) fs).run s = .ok ⟨⟩ t) :
    Speaks address (fs.foldl (fun x f => onRequest address f true x) x) t := by
  induction fs generalizing x s with
  | nil =>
    cases hr
    exact hx
  | cons f fs ih =>
    rw [each_cons] at hr
    obtain ⟨_, u, hf, hrest⟩ := bind_eq_ok.mp hr
    have hfit := hfits f mem_cons_self
    have hu := hx.onFrame hF hs.served hfit f.call
    have hfine := Slave.onFrame_fine hF hfit s hs
    rw [hf] at hu hfine
    exact ih hu.1 hfine (fun g hg => hfits g (mem_cons_of_mem _ hg)) hrest

end Speaks

/-- Every request was carried out at most once, in the order of the calls; and a call that returned an
answer or a refusal returned what `handle` answered for it. -/
structure Own (s : Exchange S) : Prop where
  order : s.deeds.Pairwise fun d e => e.call < d.call
  asked : ∀ d ∈ s.deeds, d.call ≤ s.calls ∧ d.ask = s.asked d.call
  ok : ∀ c data, (c, .ok data) ∈ s.results → ∃ d ∈ s.deeds, d.call = c ∧ d.answer = .ok data
  refused : ∀ c code, (c, .error (.refused code)) ∈ s.results →
    ∃ d ∈ s.deeds, d.call = c ∧ d.answer = .error code

theorem Own.lines {s : Exchange S} (h : Own s) (up down : List Parcel) :
    Own { s with up := up, down := down } := ⟨h.order, h.asked, h.ok, h.refused⟩

section Invariant
variable (address : UInt8) (first : UInt16)

def markOf (s : Exchange S) (c : Nat) : Mark := (s.asked c).mark (first + UInt16.ofNat c)

def Requests (s : Exchange S) (f : Parcel) : Prop :=
  f = ⟨⟨address, (s.asked f.call).channel, (s.asked f.call).kind, 0, first + UInt16.ofNat f.call⟩,
    (s.asked f.call).payload, f.call⟩

def answerOf (d : Deed) : Parcel :=
  ⟨⟨address, d.ask.channel, (replyTo d.ask.kind d.answer).1, 0, first + UInt16.ofNat d.call⟩,
    (replyTo d.ask.kind d.answer).2, d.call⟩

/-- The calls whose requests are in flight or may still be sent. -/
def Open (s : Exchange S) (c : Nat) : Prop := (s.waiting = true ∧ c = s.calls) ∨ ∃ f ∈ s.up, f.call = c

structure Inv (s : Exchange S) : Prop where
  own : Own s
  seq : s.seq = first + UInt16.ofNat s.calls
  requests : ∀ f ∈ s.up, Requests address first s f ∧ f.call ≤ s.calls ∧ s.calls < f.call + 65535
  inOrder : s.up.Pairwise fun f g => f.call ≤ g.call
  after : ∀ d ∈ s.deeds, ∀ f ∈ s.up, d.call ≤ f.call
  answers : ∀ f ∈ s.down, s.calls < f.call + 65535 ∧ ∃ d ∈ s.deeds, f = answerOf address first d
  kinds : ∀ d ∈ s.deeds, d.ask.kind &&& reply = 0
  unlike : ∀ c ≤ s.calls, (s.asked c).kind ≠ 0x7f
  last : ∀ d ∈ s.deeds.head?, s.last = some (markOf first s d.call) ∧ s.answer = answerOf address first d
  unmarked : ∀ c, Open s c → s.last = some (markOf first s c) → ∃ d ∈ s.deeds.head?, d.call = c

variable {address first}

theorem seq_inj {a b : Nat} (h : first + UInt16.ofNat a = first + UInt16.ofNat b) (hle : a ≤ b)
    (hlt : b < a + 65536) : a = b := by
  have hmod : a % 65536 = b % 65536 := by
    have := congrArg UInt16.toNat ((UInt16.add_right_inj first).mp h)
    simpa using this
  omega

theorem new_inv (service : S) : Inv address first (new first service) where
  own := ⟨.nil, nofun, nofun, nofun⟩
  seq := by simp [new]
  requests := nofun
  inOrder := .nil
  after := nofun
  answers := nofun
  kinds := nofun
  unlike := by
    intro c _
    change (0 : UInt8) ≠ 0x7f
    decide
  last := nofun
  unmarked := by
    nofun

theorem reply_ne_error {k : UInt8} (h : k &&& reply = 0) (hne : k ≠ 0x7f) : k ||| reply ≠ errorKind := by
  have hall : ∀ i : Fin 256, UInt8.ofNat i &&& reply = 0 → UInt8.ofNat i ≠ 0x7f →
      UInt8.ofNat i ||| reply ≠ errorKind := by decide +kernel
  have hk : UInt8.ofNat k.toNat = k := UInt8.ofNat_toNat
  have := hall ⟨k.toNat, k.toNat_lt⟩
  rw [hk] at this
  exact this h hne

variable (address first) in
theorem outcome_answerOf (room : Nat) {d : Deed} (hkind : d.ask.kind &&& reply = 0)
    (hne : d.ask.kind ≠ 0x7f) :
    (∀ data, outcome d.ask.kind room (answerOf address first d) = .ok data → d.answer = .ok data) ∧
    ∀ code, outcome d.ask.kind room (answerOf address first d) = .error (.refused code) →
      d.answer = .error code := by
  cases hd : d.answer with
  | ok data =>
    have hout : outcome d.ask.kind room (answerOf address first d) =
        if data.length ≤ room then .ok data else .error .tooBig := by
      rw [outcome, answerOf, hd]
      change (if d.ask.kind ||| reply = errorKind then _ else
        if d.ask.kind ||| reply ≠ d.ask.kind ||| reply then _ else _) = _
      rw [if_neg (reply_ne_error hkind hne), if_neg (not_not.mpr rfl)]
      rfl
    rw [hout]
    split
    · refine ⟨?_, nofun⟩
      intro data' h
      injection h with h
      rw [h]
    · exact ⟨nofun, nofun⟩
  | error code =>
    have hout : outcome d.ask.kind room (answerOf address first d) = .error (.refused code) := by
      rw [outcome, answerOf, hd]
      rfl
    rw [hout]
    refine ⟨nofun, ?_⟩
    intro code' h
    injection h with h
    injection h with h
    rw [h]

section Keeps
variable {s : Exchange S} (hi : Inv address first s) {up : List Parcel} {f : Parcel}

include hi

theorem Inv.lose {down : List Parcel} (hup : up.Sublist s.up) (hdown : down.Sublist s.down) :
    Inv address first { s with up := up, down := down } where
  own := hi.own.lines _ _
  seq := hi.seq
  requests := fun f hf => hi.requests f (hup.subset hf)
  inOrder := hi.inOrder.sublist hup
  after := fun d hd f hf => hi.after d hd f (hup.subset hf)
  answers := fun f hf => hi.answers f (hdown.subset hf)
  kinds := hi.kinds
  unlike := hi.unlike
  last := hi.last
  unmarked := by
    intro c hc
    refine hi.unmarked c ?_
    rcases hc with hw | ⟨f, hf, hfc⟩
    · exact .inl hw
    · exact .inr ⟨f, hup.subset hf, hfc⟩

theorem Inv.finish {r : Except CallError Bytes}
    (hok : ∀ data, r = .ok data → ∃ d ∈ s.deeds, d.call = s.calls ∧ d.answer = .ok data)
    (hrefused : ∀ code, r = .error (.refused code) →
      ∃ d ∈ s.deeds, d.call = s.calls ∧ d.answer = .error code) :
    Inv address first { s with waiting := false, results := (s.calls, r) :: s.results } where
  own := by
    refine ⟨hi.own.order, hi.own.asked, ?_, ?_⟩
    · intro c data h
      rcases mem_cons.mp h with heq | h
      · obtain ⟨rfl, hr⟩ := Prod.mk.inj heq
        exact hok data hr.symm
      · exact hi.own.ok c data h
    · intro c code h
      rcases mem_cons.mp h with heq | h
      · obtain ⟨rfl, hr⟩ := Prod.mk.inj heq
        exact hrefused code hr.symm
      · exact hi.own.refused c code h
  seq := hi.seq
  requests := hi.requests
  inOrder := hi.inOrder
  after := hi.after
  answers := hi.answers
  kinds := hi.kinds
  unlike := hi.unlike
  last := hi.last
  unmarked := by
    intro c hc
    refine hi.unmarked c ?_
    rcases hc with hw | hf
    · cases hw.1
    · exact .inr hf

theorem Inv.send (hw : s.waiting = true) :
    Inv address first { s with up := s.up ++ [s.request address] } where
  own := hi.own.lines _ _
  seq := hi.seq
  requests := by
    intro f hf
    rcases mem_append.mp hf with hf | hf
    · exact hi.requests f hf
    · obtain rfl := mem_singleton.mp hf
      refine ⟨?_, Nat.le_refl _, by change s.calls < s.calls + 65535; omega⟩
      rw [Requests, request, hi.seq]
  inOrder := by
    refine pairwise_append.mpr ⟨hi.inOrder, pairwise_singleton _ _, ?_⟩
    intro f hf g hg
    obtain rfl := mem_singleton.mp hg
    exact (hi.requests f hf).2.1
  after := by
    intro d hd f hf
    rcases mem_append.mp hf with hf | hf
    · exact hi.after d hd f hf
    · obtain rfl := mem_singleton.mp hf
      exact (hi.own.asked d hd).1
  answers := hi.answers
  kinds := hi.kinds
  unlike := hi.unlike
  last := hi.last
  unmarked := by
    intro c hc
    refine hi.unmarked c ?_
    rcases hc with hw | ⟨f, hf, hfc⟩
    · exact .inl hw
    · rcases mem_append.mp hf with hf | hf
      · exact .inr ⟨f, hf, hfc⟩
      · obtain rfl := mem_singleton.mp hf
        exact .inl ⟨hw, hfc.symm⟩

theorem Inv.write (written : Bool) {d : Deed} (hd : d ∈ s.deeds.head?)
    (hnear : s.calls < d.call + 65535) : Inv address first (s.write written) := by
  rw [Exchange.write]
  split
  · refine ⟨hi.own.lines _ _, hi.seq, hi.requests, hi.inOrder, hi.after, ?_, hi.kinds, hi.unlike, hi.last,
      hi.unmarked⟩
    intro f hf
    rcases mem_append.mp hf with hf | hf
    · exact hi.answers f hf
    · obtain rfl := mem_singleton.mp hf
      rw [(hi.last d hd).2]
      exact ⟨hnear, d, mem_of_mem_head? hd, rfl⟩
  · exact hi

theorem Inv.fresh (hup : s.up = f :: up)
    (hnew : s.last ≠ some (markOf first s f.call)) : ∀ d ∈ s.deeds, d.call < f.call := by
  intro d hd
  have hle : ∀ e ∈ s.deeds, e.call ≤ f.call :=
    fun e he => hi.after e he f (by rw [hup]; exact mem_cons_self)
  refine lt_of_le_of_ne (hle d hd) ?_
  intro heq
  cases hdeeds : s.deeds with
  | nil =>
    rw [hdeeds] at hd
    cases hd
  | cons e es =>
    have hhead : e ∈ s.deeds.head? := by rw [hdeeds]; rfl
    have horder := hi.own.order
    rw [hdeeds] at horder hd
    have hmax : d.call ≤ e.call := by
      rcases mem_cons.mp hd with rfl | hd
      · exact Nat.le_refl _
      · exact Nat.le_of_lt (rel_of_pairwise_cons horder hd)
    have hsame : e.call = f.call := Nat.le_antisymm (hle e (mem_of_mem_head? hhead)) (heq ▸ hmax)
    apply hnew
    rw [← hsame]
    exact (hi.last e hhead).1

theorem Inv.carryOut [Service S] (hup : s.up = f :: up)
    (hkind : f.head.kind &&& reply = 0) (hnew : s.last ≠ some (markOf first s f.call)) :
    Inv address first (Exchange.carryOut address f { s with up := up }) := by
  obtain ⟨hf, hle, hnear⟩ := hi.requests f (by rw [hup]; exact mem_cons_self)
  have hbefore := hi.fresh hup hnew
  have hrest : ∀ g ∈ up, g ∈ s.up := fun g hg => by rw [hup]; exact mem_cons_of_mem f hg
  have hlater : ∀ g ∈ up, f.call ≤ g.call := by
    have horder := hi.inOrder
    rw [hup] at horder
    exact fun g hg => rel_of_pairwise_cons horder hg
  have hask : (⟨f.head.channel, f.head.kind, f.payload⟩ : Ask) = s.asked f.call := by
    rw [hf]
  have hseq : f.head.seq = first + UInt16.ofNat f.call := by
    rw [hf]
  rw [Exchange.carryOut]
  refine ⟨⟨?_, ?_, ?_, ?_⟩, hi.seq, ?_, ?_, ?_, ?_, ?_, hi.unlike, ?_, ?_⟩
  · exact pairwise_cons.mpr ⟨hbefore, hi.own.order⟩
  · intro d hd
    rcases mem_cons.mp hd with rfl | hd
    · exact ⟨hle, hask⟩
    · exact hi.own.asked d hd
  · intro c data h
    obtain ⟨d, hd, h⟩ := hi.own.ok c data h
    exact ⟨d, mem_cons_of_mem _ hd, h⟩
  · intro c code h
    obtain ⟨d, hd, h⟩ := hi.own.refused c code h
    exact ⟨d, mem_cons_of_mem _ hd, h⟩
  · exact fun g hg => hi.requests g (hrest g hg)
  · have horder := hi.inOrder
    rw [hup] at horder
    exact (pairwise_cons.mp horder).2
  · intro d hd g hg
    rcases mem_cons.mp hd with rfl | hd
    · exact hlater g hg
    · exact hi.after d hd g (hrest g hg)
  · intro g hg
    obtain ⟨hg, d, hd, h⟩ := hi.answers g hg
    exact ⟨hg, d, mem_cons_of_mem _ hd, h⟩
  · intro d hd
    rcases mem_cons.mp hd with rfl | hd
    · exact hkind
    · exact hi.kinds d hd
  · intro d hd
    obtain rfl := Option.some.inj hd
    refine ⟨?_, ?_⟩
    · change some (Ask.mark _ f.head.seq) = some (Ask.mark _ _)
      rw [hask, hseq]
    · rw [answerTo, answerOf, hseq]
  · intro c hc hmark
    refine ⟨_, rfl, ?_⟩
    change f.call = c
    -- The two calls are open at once, so their numbers are close.
    have hbounds : f.call ≤ c ∧ c ≤ s.calls := by
      rcases hc with ⟨_, rfl⟩ | ⟨g, hg, rfl⟩
      · exact ⟨hle, Nat.le_refl _⟩
      · exact ⟨hlater g hg, (hi.requests g (hrest g hg)).2.1⟩
    have hsame : f.head.seq = first + UInt16.ofNat c :=
      congrArg (fun m : Mark => m.2.2.1) (Option.some.inj hmark)
    rw [hseq] at hsame
    exact seq_inj hsame hbounds.1 (by omega)

theorem Inv.onRequest [Service S] (hup : s.up = f :: up)
    (written : Bool) : Inv address first (Exchange.onRequest address f written { s with up := up }) := by
  have hrest : Inv address first { s with up := up } := by
    refine hi.lose ?_ (List.Sublist.refl _)
    rw [hup]
    exact sublist_cons_self f up
  obtain ⟨hf, hle, hnear⟩ := hi.requests f (by rw [hup]; exact mem_cons_self)
  have hmark : Ask.mark ⟨f.head.channel, f.head.kind, f.payload⟩ f.head.seq =
      markOf first s f.call := by
    rw [hf]
    rfl
  rw [Exchange.onRequest]
  split
  · exact hrest
  · rename_i hmine
    rw [hmark]
    split
    · rename_i hlast
      obtain ⟨d, hd, hcall⟩ := hi.unmarked f.call (.inr ⟨f, by rw [hup]; exact mem_cons_self, rfl⟩) hlast
      exact hrest.write written hd (by rw [hcall]; exact hnear)
    · rename_i hlast
      have hkind : f.head.kind &&& reply = 0 := by
        by_contra h
        exact hmine (.inl h)
      exact (hi.carryOut hup hkind hlast).write written rfl hnear

theorem Inv.answered (hf : f ∈ s.down) (hseq : f.head.seq = s.seq) :
    ∃ d ∈ s.deeds, f = answerOf address first d ∧ d.call = s.calls := by
  obtain ⟨hnear, d, hd, rfl⟩ := hi.answers f hf
  refine ⟨d, hd, rfl, ?_⟩
  rw [hi.seq] at hseq
  change s.calls < d.call + 65535 at hnear
  exact seq_inj hseq (hi.own.asked d hd).1 (by omega)

theorem Inv.onAnswer {down : List Parcel} (hdown : s.down = f :: down) (room : Nat) :
    Inv address first (Exchange.onAnswer address f room { s with down := down }) := by
  have hrest : Inv address first { s with down := down } := by
    refine hi.lose (List.Sublist.refl _) ?_
    rw [hdown]
    exact sublist_cons_self f down
  rw [Exchange.onAnswer]
  split
  · exact hrest
  · rename_i hmine
    have hseq : f.head.seq = s.seq := by
      by_contra h
      exact hmine (.inr (.inl h))
    obtain ⟨d, hd, rfl, hcall⟩ := hi.answered (by rw [hdown]; exact mem_cons_self) hseq
    have hask : d.ask = s.asked s.calls := by
      rw [← hcall]
      exact (hi.own.asked d hd).2
    have hout := outcome_answerOf address first room (hi.kinds d hd) (by
      rw [hask]
      exact hi.unlike s.calls (Nat.le_refl _))
    rw [hask] at hout
    refine hrest.finish ?_ ?_
    · intro data h
      exact ⟨d, hd, hcall, hout.1 data h⟩
    · intro code h
      exact ⟨d, hd, hcall, hout.2 code h⟩

/-- A call begins when no frame in flight is as many calls old as there are sequence numbers, and the
slave does not remember a request like its own. -/
theorem Inv.start {ask : Ask} (hw : s.waiting = false)
    (hnear : ∀ f, f ∈ s.up ∨ f ∈ s.down → s.calls + 1 < f.call + 65535)
    (hkind : ask.kind ≠ 0x7f) (hlast : s.last ≠ some (ask.mark (s.seq + 1))) :
    Inv address first (s.start address ask) := by
  have hasked : ∀ c ≤ s.calls, (if c = s.calls + 1 then ask else s.asked c) = s.asked c := by
    intro c hc
    rw [if_neg (by omega)]
  have hseq : s.seq + 1 = first + UInt16.ofNat (s.calls + 1) := by
    rw [hi.seq, UInt16.ofNat_add, UInt16.add_assoc]
    rfl
  have hbegun : Inv address first { s with
      seq := s.seq + 1
      calls := s.calls + 1
      asked := fun c => if c = s.calls + 1 then ask else s.asked c
      waiting := true } := by
    refine ⟨⟨hi.own.order, ?_, hi.own.ok, hi.own.refused⟩, hseq, ?_, hi.inOrder, hi.after, ?_,
      hi.kinds, ?_, ?_, ?_⟩
    · intro d hd
      obtain ⟨hle, heq⟩ := hi.own.asked d hd
      exact ⟨Nat.le_succ_of_le hle, heq.trans (hasked d.call hle).symm⟩
    · intro f hf
      obtain ⟨hreq, hle, _⟩ := hi.requests f hf
      refine ⟨?_, Nat.le_succ_of_le hle, hnear f (.inl hf)⟩
      change f = ⟨⟨address, (if f.call = s.calls + 1 then ask else s.asked f.call).channel,
        (if f.call = s.calls + 1 then ask else s.asked f.call).kind, 0, _⟩,
        (if f.call = s.calls + 1 then ask else s.asked f.call).payload, f.call⟩
      rw [hasked f.call hle]
      exact hreq
    · intro f hf
      exact ⟨hnear f (.inr hf), (hi.answers f hf).2⟩
    · intro c hc
      change (if c = s.calls + 1 then ask else s.asked c).kind ≠ 0x7f
      split
      · exact hkind
      · exact hi.unlike c (by change c ≤ s.calls + 1 at hc; omega)
    · intro d hd
      obtain ⟨hmark, hans⟩ := hi.last d hd
      refine ⟨?_, hans⟩
      change s.last = some (Ask.mark (if d.call = s.calls + 1 then ask else s.asked d.call) _)
      rw [hasked d.call (hi.own.asked d (mem_of_mem_head? hd)).1]
      exact hmark
    · intro c hc hmark
      change s.last = some (Ask.mark (if c = s.calls + 1 then ask else s.asked c) _) at hmark
      rcases hc with ⟨_, rfl⟩ | ⟨f, hf, rfl⟩
      · rw [if_pos rfl, ← hseq] at hmark
        exact (hlast hmark).elim
      · rw [hasked f.call (hi.requests f hf).2.1] at hmark
        exact hi.unmarked f.call (.inr ⟨f, hf, rfl⟩) hmark
  rw [Exchange.start]
  split
  · exact hbegun
  · have hfinished := hbegun.finish (r := .error .tooBig) nofun nofun
    rw [← hw] at hfinished
    exact hfinished

end Keeps

end Invariant

section Runs
variable (address : UInt8) [Service S]

/-- The line is not slower than the sequence numbers wrap: no call begins while bytes of one 65535
calls old are still on it. -/
def Prompt (s : Exchange S) : Act → Prop
  | .call _ => ∀ f, f ∈ s.up ∨ f ∈ s.down → s.calls + 1 < f.call + 65535
  | _ => True

/-- The request is of no kind whose answer looks like an error, and not what the slave remembers of
an older call. -/
def Told (s : Exchange S) : Act → Prop
  | .call ask => ask.kind ≠ 0x7f ∧ s.last ≠ some (ask.mark (s.seq + 1))
  | _ => True

variable {address}

theorem act_inv {first : UInt16} {s : Exchange S} {a : Act} (hi : Inv address first s)
    (hprompt : s.Prompt a) (htold : s.Told a) : Inv address first (s.act address a) := by
  cases a with
  | call ask =>
    rw [act]
    split
    · exact hi
    · rename_i hw
      exact hi.start (Bool.eq_false_iff.mpr hw) hprompt htold.1 htold.2
  | send =>
    rw [act]
    split
    · rename_i hw
      exact hi.send hw
    · exact hi
  | giveUp e =>
    rw [act]
    split
    · rename_i h
      refine hi.finish nofun ?_
      intro code heq
      injection heq with heq
      rcases h.2 with rfl | rfl
      · cases heq
      · cases heq
    · exact hi
  | loseUp i => exact hi.lose (eraseIdx_sublist _ _) (List.Sublist.refl _)
  | loseDown i => exact hi.lose (List.Sublist.refl _) (eraseIdx_sublist _ _)
  | serve written =>
    rw [act]
    split
    · exact hi
    · rename_i f up hup
      exact hi.onRequest hup written
  | receive room =>
    rw [act]
    split
    · exact hi
    · rename_i f down hdown
      split
      · exact hi.onAnswer hdown room
      · exact hi

variable (address) in
/-- The runs of a master that began at some sequence number, each of whose steps is as `P` has it. -/
inductive Reaches (P : Exchange S → Act → Prop) : Exchange S → Prop
  | new (first : UInt16) (service : S) : Reaches P (new first service)
  | act {s : Exchange S} {a : Act} : Reaches P s → s.Prompt a → P s a → Reaches P (s.act address a)

theorem reaches_inv {s : Exchange S} (h : Reaches address Told s) : ∃ first, Inv address first s := by
  induction h with
  | new first service => exact ⟨first, new_inv service⟩
  | act _ hprompt htold ih =>
    obtain ⟨first, hi⟩ := ih
    exact ⟨first, act_inv hi hprompt htold⟩

theorem requests_done_once {s : Exchange S} (h : Reaches address Told s) : Own s := by
  obtain ⟨first, hi⟩ := reaches_inv h
  exact hi.own

end Runs

section Counting

structure Counter where
  done : Nat

instance : Service Counter where
  handle _ _ _ s := (.ok [UInt8.ofNat s.done], ⟨s.done + 1⟩)

def exchange (kind : UInt8) (s : Exchange Counter) : Exchange Counter :=
  (((s.act 0 (.call ⟨0, kind, []⟩)).act 0 .send).act 0 (.serve true)).act 0 (.receive 64)

variable {s : Exchange Counter}

theorem reaches_exchange {P : Exchange Counter → Act → Prop}
    (h : Reaches 0 P s) (kind : UInt8) (hprompt : s.Prompt (.call ⟨0, kind, []⟩))
    (hP : P s (.call ⟨0, kind, []⟩)) (hrest : ∀ t a, (∀ ask, a ≠ .call ask) → P t a) :
    Reaches 0 P (s.exchange kind) := by
  have hcall := h.act hprompt hP
  have hsend := hcall.act (a := .send) trivial (hrest _ _ nofun)
  have hserve := hsend.act (a := .serve true) trivial (hrest _ _ nofun)
  exact hserve.act (a := .receive 64) trivial (hrest _ _ nofun)

theorem prompt_of_empty (hup : s.up = []) (hdown : s.down = []) (ask : Ask) : s.Prompt (.call ask) := by
  intro f hf
  rw [hup, hdown] at hf
  rcases hf with hf | hf
  · cases hf
  · cases hf

theorem reaches_first {P : Exchange Counter → Act → Prop} (kind : UInt8)
    (hP : P (new 0 ⟨0⟩) (.call ⟨0, kind, []⟩)) (hrest : ∀ t a, (∀ ask, a ≠ .call ask) → P t a) :
    Reaches 0 P (exchange kind (new 0 ⟨0⟩)) := by
  have hnew : Reaches 0 P (new 0 (Counter.mk 0)) := Reaches.new 0 _
  have hprompt : (new 0 (Counter.mk 0)).Prompt (.call ⟨0, kind, []⟩) := prompt_of_empty rfl rfl _
  exact reaches_exchange hnew kind hprompt hP hrest

def firstAnswer (kind : UInt8) : Parcel := ⟨⟨0, 0, kind ||| reply, 0, 1⟩, [0], 1⟩

def answeredOnce (kind : UInt8) : Exchange Counter where
  seq := 1
  calls := 1
  asked := fun c => if c = 1 then ⟨0, kind, []⟩ else ⟨0, 0, []⟩
  waiting := false
  up := []
  down := []
  service := ⟨1⟩
  last := some (Ask.mark ⟨0, kind, []⟩ 1)
  answer := firstAnswer kind
  deeds := [⟨1, ⟨0, kind, []⟩, .ok [0]⟩]
  results := [(1, outcome kind 64 (firstAnswer kind))]

theorem first_call_answered : ∃ s : Exchange Counter, Reaches 0 Told s ∧ s.results = [(1, .ok [0])] ∧
    Own s := by
  have hreach : Reaches 0 Told (exchange 2 (new 0 ⟨0⟩)) := by
    refine reaches_first 2 ⟨by decide, (Option.some_ne_none _).symm⟩ ?_
    intro t a ha
    cases a with
    | call ask => exact (ha ask rfl).elim
    | _ => trivial
  exact ⟨_, hreach, rfl, requests_done_once hreach⟩

/-- The slave remembers the first call, and `n` more were made that never reached it. -/
structure Remembers (n : Nat) (s : Exchange Counter) : Prop where
  up : s.up = []
  down : s.down = []
  waiting : s.waiting = false
  calls : s.calls = n + 1
  seq : s.seq = UInt16.ofNat (n + 1)
  last : s.last = some (Ask.mark ⟨0, 2, []⟩ 1)
  answer : s.answer = ⟨⟨0, 0, 0x82, 0, 1⟩, [0], 1⟩
  deeds : s.deeds = [⟨1, ⟨0, 2, []⟩, .ok [0]⟩]

theorem Remembers.skip {n : Nat} (h : Remembers n s) :
    Remembers (n + 1) ((s.act 0 (.call ⟨0, 2, []⟩)).act 0 (.giveUp .line)) := by
  have hcall : s.act 0 (.call ⟨0, 2, []⟩) = { s with
      seq := s.seq + 1
      calls := s.calls + 1
      asked := fun c => if c = s.calls + 1 then ⟨0, 2, []⟩ else s.asked c
      waiting := true } := by
    rw [act, h.waiting]
    rfl
  rw [hcall, act, if_pos ⟨rfl, .inl rfl⟩]
  refine ⟨h.up, h.down, rfl, ?_, ?_, h.last, h.answer, h.deeds⟩
  · rw [h.calls]
  · rw [h.seq, UInt16.ofNat_add (n + 1) 1]
    rfl

theorem remembered (n : Nat) : ∃ s, Reaches 0 (fun _ _ => True) s ∧ Remembers n s := by
  induction n with
  | zero =>
    refine ⟨_, reaches_first 2 trivial fun _ _ _ => trivial, ?_⟩
    exact ⟨rfl, rfl, rfl, rfl, rfl, rfl, rfl, rfl⟩
  | succ n ih =>
    obtain ⟨s, hreach, hs⟩ := ih
    have hcall := hreach.act (prompt_of_empty hs.up hs.down ⟨0, 2, []⟩) trivial
    exact ⟨_, hcall.act (a := .giveUp .line) trivial trivial, hs.skip⟩

theorem Remembers.repeated (h : Remembers 65535 s) :
    (s.exchange 2).results = (s.calls + 1, .ok [0]) :: s.results ∧ (s.exchange 2).deeds = s.deeds := by
  have hseq : s.seq + 1 = 1 := by
    rw [h.seq]
    rfl
  let asking : Exchange Counter := { s with
    seq := 1
    calls := s.calls + 1
    asked := fun c => if c = s.calls + 1 then ⟨0, 2, []⟩ else s.asked c
    waiting := true }
  have hcall : s.act 0 (.call ⟨0, 2, []⟩) = asking := by
    rw [act, h.waiting, if_neg (by decide), start, if_pos ⟨by decide, by decide⟩]
    rw [hseq]
  have hasked : asking.asked asking.calls = ⟨0, 2, []⟩ := by
    change (if s.calls + 1 = s.calls + 1 then _ else _) = _
    rw [if_pos rfl]
  have hsend : asking.act 0 .send = { asking with up := [⟨⟨0, 0, 2, 0, 1⟩, [], s.calls + 1⟩] } := by
    change { asking with up := s.up ++ [asking.request 0] } = _
    rw [h.up, request, hasked]
    rfl
  have hserve : act 0 (.serve true) { asking with up := [⟨⟨0, 0, 2, 0, 1⟩, [], s.calls + 1⟩] } =
      { asking with up := [], down := [s.answer] } := by
    change onRequest 0 _ true { asking with up := [] } = _
    have hmine : ¬((2 : UInt8) &&& reply ≠ 0 ∨ (0 : UInt8) ≠ 0) := by decide
    rw [onRequest, if_neg hmine, if_pos h.last, write, if_pos rfl]
    rw [h.down]
    rfl
  have hreceive : act 0 (.receive 64) { asking with up := [], down := [s.answer] } =
      { asking with up := [], down := [], waiting := false, results := (s.calls + 1, .ok [0]) :: s.results } := by
    change onAnswer 0 s.answer 64 { asking with up := [], down := [] } = _
    change (if s.answer.head.kind &&& reply = 0 ∨ s.answer.head.seq ≠ 1 ∨
      s.answer.head.channel ≠ (asking.asked asking.calls).channel ∨ s.answer.head.address ≠ 0 then _
      else { asking with
        up := []
        down := []
        waiting := false
        results := (s.calls + 1, outcome (asking.asked asking.calls).kind 64 s.answer) :: s.results }) = _
    have hout : outcome 2 64 s.answer = .ok [0] := by
      rw [h.answer]
      rfl
    rw [hasked, hout, if_neg (by rw [h.answer]; decide)]
  rw [exchange, hcall, hsend, hserve, hreceive]
  exact ⟨rfl, rfl⟩

/-- An answer of the one kind looks like a refusal; and a call 65536 after the one the slave
remembers is answered though it was never carried out. -/
theorem old_answer_returned : (∃ s : Exchange Counter, Reaches 0 (fun _ _ => True) s ∧
      s.results = [(1, .error (.refused 0))] ∧ s.deeds = [⟨1, ⟨0, 0x7f, []⟩, .ok [0]⟩] ∧ ¬Own s) ∧
    ∃ s : Exchange Counter, Reaches 0 (fun _ _ => True) s ∧
      s.results.head? = some (65537, .ok [0]) ∧ s.deeds = [⟨1, ⟨0, 2, []⟩, .ok [0]⟩] ∧ ¬Own s := by
  refine ⟨⟨answeredOnce 0x7f, ?_, rfl, rfl, ?_⟩, ?_⟩
  · exact reaches_first 0x7f trivial fun _ _ _ => trivial
  · intro hown
    obtain ⟨d, hd, -, hans⟩ := hown.refused 1 0 mem_cons_self
    obtain rfl := mem_singleton.mp hd
    cases hans
  · obtain ⟨s, hreach, hs⟩ := remembered 65535
    obtain ⟨hresults, hdeeds⟩ := hs.repeated
    have hcalls : s.calls + 1 = 65537 := by rw [hs.calls]
    rw [hcalls] at hresults
    refine ⟨s.exchange 2, ?_, ?_, ?_, ?_⟩
    · exact reaches_exchange hreach 2 (prompt_of_empty hs.up hs.down _) trivial fun _ _ _ => trivial
    · rw [hresults]
      rfl
    · rw [hdeeds, hs.deeds]
    · intro hown
      obtain ⟨d, hd, hcall, -⟩ := hown.ok 65537 [0] (by rw [hresults]; exact mem_cons_self)
      rw [hdeeds, hs.deeds] at hd
      obtain rfl := mem_singleton.mp hd
      cases hcall

end Counting

end Exchange

end MindCore.Linkproto
