import MindCore.Libmind.DagBuild
import MindCore.Linkproto.FileService

/-!
# The slave

`Slave::serve` of `linkproto/src/endpoint.rs` with the requests of a `FileService`: each whole
request on the line is answered, and the last answer is sent again when its request comes again.
-/

namespace MindCore.Linkproto

open List Proc

section Steps
variable {F : Type} {α β : Type}

/-- The answer's limit is `L`, and a hello's answer fits the least limit there is. -/
structure Ready (L : Nat) (s : FileService F) : Prop where
  limit : s.limit = L
  least : minPayload ≤ L
  most : L ≤ maxPayload
  name : s.name.val.length ≤ 60

def Fails (L : Nat) (e : Stop Code) (s : FileService F) : Prop := (∃ c, e = .fail c) ∧ Ready L s

def Steps (L : Nat) (x : Serving F α) (Q : α → Prop) : Prop :=
  Triple (Ready L) x (fun a s => Q a ∧ Ready L s) (Fails L)

variable {n at_ : Nat} {p : Bytes}

namespace Steps

variable {L : Nat} {Q : α → Prop} {R : β → Prop}

theorem pure {a : α} (h : Q a) : Steps L (Pure.pure a : Serving F α) Q := Triple.pure fun _ hs => ⟨h, hs⟩

theorem bind {x : Serving F α} {f : α → Serving F β} (hx : Steps L x Q)
    (hf : ∀ a, Q a → Steps L (f a) R) : Steps L (x >>= f) R :=
  Triple.bind hx fun a s hs => hf a hs.1 s hs.2

variable {c : Code} {x : Proc Code F α}

theorem orCode {o : Option α} : Steps L (orCode o c : Serving F α) (fun a => o = some a) :=
  Triple.orError fun _ hs => ⟨⟨c, rfl⟩, hs⟩

theorem ensure {p : Prop} [Decidable p] :
    Steps L (MindCore.ensure p (.fail c) : Serving F PUnit) (fun _ => p) :=
  Triple.ensure fun _ hs _ => ⟨⟨c, rfl⟩, hs⟩

theorem within {len : Nat} (h : n ≤ len) : Steps L (within n len : Serving F PUnit) (fun _ => True) := by
  intro s hs
  rw [Linkproto.within, ensure_pos h]
  exact ⟨trivial, hs⟩

theorem get : Steps L (MonadState.get : Serving F (FileService F)) (Ready L) := fun _ hs => ⟨hs, hs⟩

theorem onFiles (h : ∀ f f' a, x.run f = .ok a f' → Q a) : Steps L (onFiles x) Q := by
  intro s hs
  cases hr : x.run s.files with
  | ok a f =>
    rw [onFiles_ok hr]
    exact ⟨h _ _ _ hr, hs.limit, hs.least, hs.most, hs.name⟩
  | error e f =>
    rw [onFiles_error hr]
    exact ⟨⟨e, rfl⟩, hs.limit, hs.least, hs.most, hs.name⟩

theorem onFiles_any : Steps L (Linkproto.onFiles x) (fun _ => True) := onFiles fun _ _ _ _ => trivial

theorem writing {w : Option Put} :
    Steps L (modify fun s => { s with writing := w } : Serving F PUnit) (fun _ => True) :=
  fun _ hs => ⟨trivial, hs.limit, hs.least, hs.most, hs.name⟩

theorem reading {g : Option Get} :
    Steps L (modify fun s => { s with reading := g } : Serving F PUnit) (fun _ => True) :=
  fun _ hs => ⟨trivial, hs.limit, hs.least, hs.most, hs.name⟩

end Steps

def Answers (L : Nat) (x : Serving F Bytes) : Prop := Steps L x fun data => data.length ≤ L

@[simp] theorem length_put32 (v : UInt32) : (put32 v).length = 4 := Bytes.length_le 4 _

@[simp] theorem length_put64 (v : UInt64) : (put64 v).length = 8 := Bytes.length_le 8 _

theorem uintAt_length {v : Nat} (h : uintAt n p at_ = some v) : at_ + n ≤ p.length := by
  rw [uintAt] at h
  split at h
  · assumption
  · cases h

theorem u64At_length {v : UInt64} (h : u64At p at_ = some v) : at_ + 8 ≤ p.length := by
  obtain ⟨n, hn, _⟩ := Option.map_eq_some_iff.mp h
  exact uintAt_length hn

theorem u32At_length {v : UInt32} (h : u32At p at_ = some v) : at_ + 4 ≤ p.length := by
  obtain ⟨n, hn, _⟩ := Option.map_eq_some_iff.mp h
  exact uintAt_length hn

theorem head_length {b : UInt8} (h : p.head? = some b) : 1 ≤ p.length := by
  cases p with
  | nil => cases h
  | cons c p => exact Nat.succ_le_succ (Nat.zero_le _)

theorem guarded {c : Prop} [Decidable c] {a b : Bytes} (h : (if c then some a else none) = some b) : c := by
  split at h
  · assumption
  · cases h

section Requests
variable {L : Nat}

theorem least_le (hL : minPayload ≤ L) (h : n ≤ minPayload) : n ≤ L := Nat.le_trans h hL

theorem getClose_answers [Sha256] (hL : minPayload ≤ L) : Answers L (getClose L : Serving F Bytes) := by
  have h32 : 32 ≤ L := least_le hL (by decide)
  refine .bind .get fun s _ => .bind .orCode fun g _ => .bind .reading fun _ _ => ?_
  refine .bind (.within h32) fun _ _ => .pure ?_
  rw [(Sha256.digest g.hashed).2]
  exact h32

theorem onPath_answers (act : Bytes → Proc Code F PUnit) (p : Bytes) :
    Answers L (onPath act p : Serving F Bytes) :=
  .bind .orCode fun _ _ => .bind .onFiles_any fun _ _ => .pure (Nat.zero_le L)

theorem page_answers (hL : minPayload ≤ L) {read : Nat → Proc Code F (Bytes × Option UInt32)}
    (hread : ∀ len f f' r, (read len).run f = .ok r f' → r.1.length ≤ len) :
    Answers L (page L read : Serving F Bytes) := by
  have h4 : 4 ≤ L := least_le hL (by decide)
  refine .bind (.within h4) fun _ _ => .bind (.onFiles fun f f' r hr => hread _ f f' r hr) ?_
  rintro ⟨data, next⟩ hlen
  refine .pure ?_
  rw [length_append, length_put32]
  have hlen' : data.length ≤ L - 4 := hlen
  omega

variable [Files F]

theorem putOpen_answers (hL : minPayload ≤ L) (p : Bytes) : Answers L (putOpen L p : Serving F Bytes) := by
  have h8 : 8 ≤ L := least_le hL (by decide)
  refine .bind .orCode fun size hsize => ?_
  refine .bind (.within (by simpa using u64At_length hsize)) fun _ _ => ?_
  refine .bind .orCode fun name hname => ?_
  refine .bind .get fun s _ => ?_
  split
  · exact .bind (.within h8) fun _ _ => .pure (by simpa using h8)
  · refine .bind .writing fun _ _ => .bind .onFiles_any fun _ _ => ?_
    refine .bind (.within (pathName_length hname).2) fun _ _ => ?_
    exact .bind .writing fun _ _ => .bind (.within h8) fun _ _ => .pure (by simpa using h8)

theorem putData_answers (p : Bytes) : Answers L (putData p : Serving F Bytes) := by
  refine .bind .orCode fun offset ho => ?_
  refine .bind (.within (Nat.le_of_add_left_le (u64At_length ho))) fun _ _ => ?_
  refine .bind .get fun s _ => .bind .orCode fun w _ => ?_
  exact .bind .ensure fun _ _ => .bind .onFiles_any fun _ _ => .bind .writing fun _ _ =>
    .pure (Nat.zero_le L)

theorem putClose_answers [Sha256] (p : Bytes) : Answers L (putClose p : Serving F Bytes) := by
  refine .bind .orCode fun digest _ => .bind .get fun s _ => .bind .orCode fun w _ => ?_
  exact .bind .writing fun _ _ => .bind .onFiles_any fun _ _ => .bind .ensure fun _ _ =>
    .pure (Nat.zero_le L)

theorem getOpen_answers (hL : minPayload ≤ L) (p : Bytes) : Answers L (getOpen L p : Serving F Bytes) := by
  have h8 : 8 ≤ L := least_le hL (by decide)
  refine .bind .orCode fun name _ => .bind .onFiles_any fun size _ => ?_
  exact .bind .reading fun _ _ => .bind (.within h8) fun _ _ => .pure (by simpa using h8)

theorem getData_answers (hF : Files.Keeps F) (p : Bytes) : Answers L (getData L p : Serving F Bytes) := by
  refine .bind .orCode fun offset _ => .bind .orCode fun want _ => ?_
  refine .bind .get fun s _ => .bind .orCode fun g _ => .bind .ensure fun _ _ => ?_
  have hwant : Nat.min (Nat.min want L) (g.size - offset).toNat ≤ L :=
    Nat.le_trans (Nat.min_le_left _ _) (Nat.min_le_right _ _)
  refine .bind (.within hwant) fun _ _ => ?_
  refine .bind (.onFiles fun f f' data hr => hF.readAt _ _ f f' data hr) fun data hdata => ?_
  have hlen := Nat.le_trans hdata hwant
  exact .bind (.within hlen) fun _ _ => .bind .reading fun _ _ => .pure hlen

theorem stat_answers (hL : minPayload ≤ L) (p : Bytes) : Answers L (stat L p : Serving F Bytes) := by
  have h40 : 40 ≤ L := least_le hL (by decide)
  refine .bind .orCode fun name _ => .bind .onFiles_any ?_
  rintro ⟨size, digest⟩ _
  refine .bind (.within (Nat.le_trans (by decide) h40)) fun _ _ => .bind (.within h40) fun _ _ =>
    .pure ?_
  rw [length_append, length_put64, digest.2]
  exact h40

theorem move_answers (p : Bytes) : Answers L (move p : Serving F Bytes) := by
  refine .bind .orCode fun flags _ => .bind .orCode fun len _ => .bind .orCode fun raw hraw => ?_
  refine .bind .orCode fun from_ _ => .bind (.within (guarded hraw)) fun _ _ => ?_
  exact .bind .orCode fun to_ _ => .bind .onFiles_any fun _ _ => .pure (Nat.zero_le L)

theorem rmdir_answers (p : Bytes) : Answers L (rmdir p : Serving F Bytes) := by
  refine .bind .orCode fun flags hp => .bind (.within (head_length hp)) fun _ _ => ?_
  exact .bind .orCode fun path _ => .bind .onFiles_any fun _ _ => .pure (Nat.zero_le L)

section
variable (hL : minPayload ≤ L)
include hL

theorem list_answers (hF : Files.Keeps F) (p : Bytes) : Answers L (list L p : Serving F Bytes) :=
  .bind .orCode fun cursor _ => page_answers hL (hF.list cursor)

theorem listDir_answers (hF : Files.Keeps F) (p : Bytes) : Answers L (listDir L p : Serving F Bytes) := by
  refine .bind .orCode fun cursor hc => .bind (Q := fun _ => True) ?_ fun path _ =>
    page_answers hL (hF.listDir path cursor)
  rw [dirOf]
  split
  · exact .pure trivial
  · refine .bind (.within (by simpa using u32At_length hc)) fun _ _ => ?_
    exact Triple.weaken Steps.orCode (fun _ h => h) (fun _ _ h => ⟨trivial, h.2⟩) fun _ _ h => h

theorem runs_answers (hF : Files.Keeps F) (p : Bytes) : Answers L (runs L p : Serving F Bytes) :=
  .bind .orCode fun cursor _ => page_answers hL (hF.runs cursor)

theorem log_answers (hF : Files.Keeps F) (p : Bytes) : Answers L (log L p : Serving F Bytes) := by
  have h8 : 8 ≤ L := least_le hL (by decide)
  refine .bind .orCode fun cursor _ => .bind (.within h8) fun _ _ => ?_
  refine .bind (.onFiles fun f f' r hr => hF.log _ _ f f' r hr) ?_
  rintro ⟨data, next⟩ hlen
  refine .pure ?_
  rw [length_append, length_put64]
  have hlen' : data.length ≤ L - 8 := hlen
  omega

theorem input_answers (p : Bytes) : Answers L (input L p : Serving F Bytes) := by
  have h4 : 4 ≤ L := least_le hL (by decide)
  refine .bind .ensure fun _ hp => .bind (.within ?_) fun _ _ => ?_
  · omega
  · exact .bind .onFiles_any fun posted _ => .bind (.within h4) fun _ _ => .pure (by simpa using h4)

theorem run_answers (p : Bytes) : Answers L (run L p : Serving F Bytes) := by
  have h12 : 12 ≤ L := least_le hL (by decide)
  refine .bind .orCode fun len _ => .bind .orCode fun raw hraw => .bind .orCode fun path _ => ?_
  refine .bind (.within (guarded hraw)) fun _ _ => .bind .ensure fun _ _ => ?_
  refine .bind .onFiles_any ?_
  rintro ⟨run, pid⟩ _
  refine .bind (.within (Nat.le_trans (by decide) h12)) fun _ _ => .bind (.within h12) fun _ _ =>
    .pure ?_
  exact h12

theorem output_answers (hF : Files.Keeps F) (p : Bytes) : Answers L (output L p : Serving F Bytes) := by
  have h13 : outputHead ≤ L := least_le hL (by decide)
  have heq : outputHead = 13 := rfl
  refine .bind .orCode fun run _ => .bind .orCode fun cursor _ => .bind (.within h13) fun _ _ => ?_
  refine .bind (.onFiles fun f f' o hr => hF.output _ _ _ f f' o hr) fun o hlen => ?_
  refine .bind .ensure fun _ _ => .pure ?_
  simp only [length_append, length_put32, length_put64, length_singleton]
  omega

end

theorem stop_answers (p : Bytes) : Answers L (stop p : Serving F Bytes) :=
  .bind .orCode fun _ _ => .bind .onFiles_any fun _ _ => .pure (Nat.zero_le L)

theorem command_answers (hL : minPayload ≤ L) (p : Bytes) : Answers L (command L p : Serving F Bytes) := by
  have h4 : 4 ≤ L := least_le hL (by decide)
  refine .bind .orCode fun line _ => .bind .ensure fun _ _ => .bind .onFiles_any fun run _ => ?_
  exact .bind (.within h4) fun _ _ => .pure (by simpa using h4)

theorem replace_answers (p : Bytes) : Answers L (replace p : Serving F Bytes) := by
  refine .bind .orCode fun len _ => .bind .orCode fun unit hunit => .bind .ensure fun _ _ => ?_
  refine .bind (.within (guarded hunit)) fun _ _ => .bind (Q := fun _ => True) ?_ fun path _ => ?_
  · rw [sourceOf]
    split
    · exact .pure trivial
    · exact Triple.weaken Steps.orCode (fun _ h => h) (fun _ _ h => ⟨trivial, h.2⟩) fun _ _ h => h
  · exact .bind .ensure fun _ _ => .bind .onFiles_any fun _ _ => .pure (Nat.zero_le L)

theorem serve_answers [Sha256] (hL : minPayload ≤ L) (hF : Files.Keeps F) (p : Bytes)
    {r : Request} (hr : r ≠ .hello) :
    Answers L (r.serve L p : Serving F Bytes) := by
  cases r with
  | hello => exact absurd rfl hr
  | poll => exact .pure (Nat.zero_le L)
  | reboot => exact .bind .onFiles_any fun _ _ => .pure (Nat.zero_le L)
  | putOpen => exact putOpen_answers hL p
  | putData => exact putData_answers p
  | putClose => exact putClose_answers p
  | getOpen => exact getOpen_answers hL p
  | getData => exact getData_answers hF p
  | getClose => exact getClose_answers hL
  | list => exact list_answers hL hF p
  | stat => exact stat_answers hL p
  | delete => exact onPath_answers Files.delete p
  | mkdir => exact onPath_answers Files.mkdir p
  | move => exact move_answers p
  | rmdir => exact rmdir_answers p
  | listDir => exact listDir_answers hL hF p
  | console => exact .onFiles fun f f' data h => hF.console p L f f' data h
  | log => exact log_answers hL hF p
  | input => exact input_answers hL p
  | run => exact run_answers hL p
  | output => exact output_answers hL hF p
  | stop => exact stop_answers p
  | runs => exact runs_answers hL hF p
  | command => exact command_answers hL p
  | replace => exact replace_answers p

def Served (s : FileService F) : Prop := ∃ L, Ready L s

def Refuses (e : Stop Code) (s : FileService F) : Prop := (∃ c, e = .fail c) ∧ Served s

omit [Files F] in
theorem hello_answers (p : Bytes) : Triple (Ready L) (hello L p : Serving F Bytes)
    (fun data s => data.length ≤ s.limit ∧ Served s) Refuses := by
  intro s hs
  rw [hello]
  cases hu : u16At p 2 with
  | none => exact ⟨⟨.badRequest, rfl⟩, L, hs⟩
  | some theirs =>
    have hmin : minPayload = 64 := rfl
    have hleast := hs.least
    have hname := hs.name
    have h4 : 4 ≤ L := by omega
    have hfit : 4 + s.name.val.length ≤ L := by omega
    let L' := Nat.max minPayload (Nat.min theirs maxPayload)
    have hL' : minPayload ≤ L' := Nat.le_max_left _ _
    have hmost : L' ≤ maxPayload := Nat.max_le.mpr ⟨by decide, Nat.min_le_right _ _⟩
    change ((within 4 L >>= fun _ => _ : Serving F Bytes).run { s with limit := L' }).Meets _ _
    rw [within, ensure_pos h4, pure_bind, get_bind]
    rw [within, ensure_pos hfit, pure_bind]
    refine ⟨?_, L', rfl, hL', hmost, hname⟩
    simp only [length_append, Bytes.length_le, length_cons, length_nil]
    omega

theorem handle_answers [Sha256] (hF : Files.Keeps F) (channel kind : UInt8) (p : Bytes) :
    Triple Served (handle channel kind p maxPayload : Serving F Bytes)
      (fun data s => data.length ≤ s.limit ∧ Served s) Refuses := by
  rintro s ⟨L, hs⟩
  have hmin : Nat.min s.limit maxPayload = L := by
    rw [hs.limit]
    exact Nat.min_eq_left hs.most
  rw [handle, get_bind, hmin]
  cases Request.of channel kind with
  | none => exact ⟨⟨.unsupported, rfl⟩, L, hs⟩
  | some r =>
    by_cases hr : r = .hello
    · rw [hr]
      exact hello_answers p s hs
    · refine (serve_answers hs.least hF p hr).weaken (fun _ h => h) ?_ ?_ s hs
      · rintro data t ⟨hlen, ht⟩
        exact ⟨ht.limit ▸ hlen, L, ht⟩
      · rintro e t ⟨he, ht⟩
        exact ⟨he, L, ht⟩

end Requests

end Steps

def reply : UInt8 := 0x80
def errorKind : UInt8 := 0xff

inductive Failure where
  | line
  | tooBig
deriving DecidableEq

/-- A frame given to the line, its payload, and the largest payload asked for when it was sent. -/
structure Sent where
  wire : Bytes
  payload : Bytes
  limit : Nat

/-- The slave, the line's bytes to come apart: whether its next writes succeed, and what was
written. -/
structure Slave (F : Type) where
  service : FileService F
  decoder : Decoder
  address : UInt8
  last : Option (UInt8 × UInt8 × UInt16 × UInt32)
  answer : Bytes
  shown : Bytes
  requests : UInt32
  retries : UInt32
  writes : List Bool
  sent : List Sent

variable {wire : Bytes}

namespace Slave

variable {F : Type}

def new (service : FileService F) (address : UInt8) (writes : List Bool) : Slave F :=
  ⟨service, .new, address, none, [], [], 0, 0, writes, []⟩

def answered (kind : UInt8) : Except (Stop Code) Bytes → Except (Stop Failure) (UInt8 × Bytes)
  | .ok data => .ok (kind ||| reply, data.take maxPayload)
  | .error (.fail c) => .ok (errorKind, [c.byte])
  | .error .answer => .error .trap
  | .error .trap => .error .trap

def onService {α : Type} (x : Serving F α) : Proc (Stop Failure) (Slave F) (Except (Stop Code) α) :=
  ⟨fun s => match x.run s.service with
    | .ok a t => .ok (.ok a) { s with service := t }
    | .error e t => .ok (.error e) { s with service := t }⟩

variable {t : FileService F} {h : Header} {p : Bytes} {s : Slave F}

theorem onService_run {α : Type} (x : Serving F α) (s : Slave F) :
    (onService x).run s = match x.run s.service with
      | .ok a t => .ok (.ok a) { s with service := t }
      | .error e t => .ok (.error e) { s with service := t } := rfl

theorem onService_ok {α : Type} {x : Serving F α} {a : α}
    (h : x.run s.service = .ok a t) : (onService x).run s = .ok (.ok a) { s with service := t } := by
  rw [onService_run, h]

theorem onService_error {α : Type} {x : Serving F α} {e : Stop Code} (h : x.run s.service = .error e t) :
    (onService x).run s = .ok (.error e) { s with service := t } := by
  rw [onService_run, h]

def write : Proc (Stop Failure) (Slave F) PUnit := do
  let s ← get
  set { s with writes := s.writes.tail, sent := ⟨s.answer, s.shown, s.service.limit⟩ :: s.sent }
  ensure (s.writes.headD true = true) (.fail .line)

variable [Files F] [Sha256]

def redo (h : Header) (p : Bytes) : Proc (Stop Failure) (Slave F) PUnit := do
  ensure (p.length ≤ maxPayload) .trap
  let answer ← onService (handle h.channel h.kind p maxPayload)
  let (kind, payload) ← Proc.ofExcept (answered h.kind answer)
  let frame ← Proc.ofExcept (framed ⟨h.address, h.channel, kind, 0, h.seq⟩ payload)
  modify fun s => { s with
    answer := frame, shown := payload, last := some (h.channel, h.kind, h.seq, crc32c p) }
where
  framed (h : Header) (payload : Bytes) : Except (Stop Failure) Bytes :=
    match encode h payload with
    | .ok (some wire) => .ok wire
    | .ok none => .error (.fail .tooBig)
    | .error _ => .error .trap

/-- A whole frame. An answer, or a request to another, is passed over. -/
def onFrame (h : Header) (p : Bytes) : Proc (Stop Failure) (Slave F) PUnit := do
  let s ← get
  if h.kind &&& reply ≠ 0 ∨ h.address ≠ s.address then return ⟨⟩
  else do
    modify fun s => { s with requests := s.requests + 1 }
    if s.last = some (h.channel, h.kind, h.seq, crc32c p) then
      modify fun s => { s with retries := s.retries + 1 }
    else redo h p
    write

def onByte (b : UInt8) : Proc (Stop Failure) (Slave F) PUnit := do
  let s ← get
  match s.decoder.push b with
  | .error _ => throw .trap
  | .ok (d, frame) => do
    set { s with decoder := d }
    match frame with
    | some (h, p) => onFrame h p
    | none => return ⟨⟩

/-- What `serve` does with the bytes it read; a failed write leaves the rest of them. -/
def serve (bytes : Bytes) : Proc (Stop Failure) (Slave F) PUnit := Proc.each onByte bytes

/-- Reads one after another, whatever each ends with, unless one traps. -/
def serves : List Bytes → Slave F → Option (Slave F)
  | [], s => some s
  | bytes :: reads, s =>
    match (serve bytes).run s with
    | .ok _ t => serves reads t
    | .error (.fail _) t => serves reads t
    | .error _ _ => none

/-- Every answer sent was at most the limit then in force, and the one kept still is. -/
structure Fine (s : Slave F) : Prop where
  served : Served s.service
  shown : s.shown.length ≤ s.service.limit
  sent : ∀ f ∈ s.sent, f.payload.length ≤ f.limit

def Ends (e : Stop Failure) (s : Slave F) : Prop := (∃ f, e = .fail f) ∧ Fine s

omit [Files F] [Sha256] in
theorem write_fine : Triple Fine (write : Proc _ (Slave F) PUnit) (fun _ => Fine) Ends := by
  intro s hs
  have hfine : Fine { s with
      writes := s.writes.tail, sent := ⟨s.answer, s.shown, s.service.limit⟩ :: s.sent } := by
    refine ⟨hs.served, hs.shown, ?_⟩
    intro f hf
    rcases mem_cons.mp hf with rfl | hf
    · exact hs.shown
    · exact hs.sent f hf
  rw [write, get_bind, bind_ok (run_set _ s)]
  by_cases hw : s.writes.headD true = true
  · rw [ensure_pos hw]
    exact hfine
  · rw [ensure_neg hw]
    exact ⟨⟨.line, rfl⟩, hfine⟩

omit [Files F] [Sha256] in
theorem framed_ok (h : Header) (payload : Bytes) (hp : payload.length ≤ maxPayload) (ha : h.address ≤ addressMax) :
    ∃ wire, encode h payload = .ok (some wire) ∧ redo.framed h payload = .ok wire := by
  obtain ⟨wire, hw⟩ := encode_ok h payload hp ha
  refine ⟨wire, hw, ?_⟩
  rw [redo.framed, hw]

variable {payload : Bytes}

theorem redo_run {r : Except (Stop Code) Bytes} {kind : UInt8} (hp : p.length ≤ maxPayload)
    (hrun : (onService (handle h.channel h.kind p maxPayload)).run s = .ok r { s with service := t })
    (hkind : answered h.kind r = .ok (kind, payload))
    (hwire : redo.framed ⟨h.address, h.channel, kind, 0, h.seq⟩ payload = .ok wire) :
    (redo h p).run s = .ok ⟨⟩ { s with
      service := t, answer := wire, shown := payload,
      last := some (h.channel, h.kind, h.seq, crc32c p) } := by
  rw [redo, ensure_pos hp, pure_bind, bind_ok hrun, hkind, ofExcept_ok, pure_bind]
  dsimp only
  rw [hwire, ofExcept_ok, pure_bind]
  rfl

theorem redo_trap (hp : p.length ≤ maxPayload)
    (ht : (handle h.channel h.kind p maxPayload).run s.service = .error .trap t) :
    (redo h p).run s = .error .trap { s with service := t } := by
  rw [redo, ensure_pos hp, pure_bind, bind_ok (onService_error ht)]
  rfl

theorem onFrame_redo (hkind : h.kind &&& reply = 0)
    (ha : h.address = s.address) (hlast : s.last ≠ some (h.channel, h.kind, h.seq, crc32c p)) :
    (onFrame h p).run s =
      (redo h p >>= fun _ => write).run { s with requests := s.requests + 1 } := by
  rw [onFrame, get_bind, if_neg (not_or.mpr ⟨not_not.mpr hkind, not_not.mpr ha⟩), if_neg hlast]
  rfl

section
variable (hF : Files.Keeps F)
include hF

theorem redo_fine (hfits : Fits (h, p)) :
    Triple Fine (redo h p : Proc _ (Slave F) PUnit) (fun _ => Fine) Ends := by
  intro s hs
  have hanswer := handle_answers hF h.channel h.kind p s.service hs.served
  -- the kind and payload of the answer, and the service after it
  obtain ⟨r, t, kind, payload, hrun, hkind, hserved, hlen⟩ : ∃ r t kind payload,
      (onService (handle h.channel h.kind p maxPayload)).run s = .ok r { s with service := t } ∧
      answered h.kind r = .ok (kind, payload) ∧ Served t ∧ payload.length ≤ t.limit := by
    cases hr : (handle h.channel h.kind p maxPayload).run s.service with
    | ok data t =>
      rw [hr] at hanswer
      refine ⟨.ok data, t, _, _, ?_, rfl, hanswer.2, ?_⟩
      · rw [onService_ok hr]
      · exact Nat.le_trans (length_take_le' _ _) hanswer.1
    | error e t =>
      rw [hr] at hanswer
      obtain ⟨⟨c, rfl⟩, hserved⟩ := hanswer
      refine ⟨.error (.fail c), t, _, _, ?_, rfl, hserved, ?_⟩
      · rw [onService_error hr]
      · obtain ⟨L, hL⟩ := hserved
        rw [hL.limit]
        exact least_le hL.least (show 1 ≤ minPayload by decide)
  obtain ⟨L, hL⟩ := hserved
  have hpay : payload.length ≤ maxPayload := Nat.le_trans hlen (hL.limit ▸ hL.most)
  obtain ⟨wire, -, hwire⟩ := framed_ok ⟨h.address, h.channel, kind, 0, h.seq⟩ _ hpay hfits.2
  rw [redo_run hfits.1 hrun hkind hwire]
  exact ⟨⟨L, hL⟩, hlen, hs.sent⟩

theorem onFrame_fine (hfits : Fits (h, p)) :
    Triple Fine (onFrame h p : Proc _ (Slave F) PUnit) (fun _ => Fine) Ends := by
  intro s hs
  rw [onFrame, get_bind]
  split
  · exact hs
  · have hcount : Fine { s with requests := s.requests + 1 } := ⟨hs.served, hs.shown, hs.sent⟩
    split
    · exact write_fine _ ⟨hcount.served, hcount.shown, hcount.sent⟩
    · exact Triple.bind (redo_fine hF hfits) (fun _ => write_fine) _ hcount

theorem onByte_fine (b : UInt8) : Triple Fine (onByte b : Proc _ (Slave F) PUnit) (fun _ => Fine) Ends := by
  intro s hs
  obtain ⟨d, frame, hpush, hfits⟩ := push_ok s.decoder b
  have hgathered : Fine { s with decoder := d } := ⟨hs.served, hs.shown, hs.sent⟩
  rw [onByte, get_bind, hpush]
  cases frame with
  | none => exact hgathered
  | some f => exact onFrame_fine hF (hfits f rfl) _ hgathered

theorem serve_fine (bytes : Bytes) :
    Triple Fine (serve bytes : Proc _ (Slave F) PUnit) (fun _ => Fine) Ends := by
  induction bytes with
  | nil => exact fun _ hs => hs
  | cons b bytes ih => exact Triple.bind (onByte_fine hF b) fun _ => ih

theorem serves_fine (reads : List Bytes) (hs : Fine s) : ∃ t, serves reads s = some t ∧ Fine t := by
  induction reads generalizing s with
  | nil => exact ⟨s, rfl, hs⟩
  | cons bytes reads ih =>
    have h := serve_fine hF bytes s hs
    rw [serves]
    cases hr : (serve bytes).run s with
    | ok u t =>
      rw [hr] at h
      exact ih h
    | error e t =>
      rw [hr] at h
      obtain ⟨⟨f, rfl⟩, ht⟩ := h
      exact ih ht

end

section Frames

variable {s : Slave F} {bytes : Bytes}

theorem serve_gather (hnz : ∀ b ∈ bytes, b ≠ 0) (got : Bytes)
    (hgot : s.decoder.wire.val = got) (hlen : got.length + bytes.length ≤ maxWire) :
    ∃ wire, wire.val = got ++ bytes ∧
      (serve bytes).run s = .ok ⟨⟩ { s with decoder := { s.decoder with wire := wire } } := by
  induction bytes generalizing s got with
  | nil => exact ⟨s.decoder.wire, by simpa using hgot, rfl⟩
  | cons b bytes ih =>
    rw [length_cons] at hlen
    have hlt : s.decoder.wire.val.length < maxWire := by
      rw [hgot]
      omega
    have hpush : s.decoder.push b = .ok ({ s.decoder with
        wire := ⟨s.decoder.wire.val ++ [b], by simpa using Nat.succ_le_of_lt hlt⟩ }, none) := by
      rw [Decoder.push, if_pos (hnz b mem_cons_self), dif_pos hlt]
    have hbyte : (onByte b).run s = .ok ⟨⟩ { s with decoder := { s.decoder with
        wire := ⟨s.decoder.wire.val ++ [b], by simpa using Nat.succ_le_of_lt hlt⟩ } } := by
      rw [onByte, get_bind, hpush]
      rfl
    obtain ⟨wire, hwire, hrun⟩ := ih (fun c hc => hnz c (mem_cons_of_mem b hc))
      (s := { s with decoder := { s.decoder with
        wire := ⟨s.decoder.wire.val ++ [b], by simpa using Nat.succ_le_of_lt hlt⟩ } })
      (got ++ [b]) (congrArg (· ++ [b]) hgot) (by
        rw [length_append, length_singleton]
        omega)
    refine ⟨wire, by rw [hwire, append_assoc, singleton_append], ?_⟩
    change (onByte b >>= fun _ => serve bytes).run s = _
    rw [bind_ok hbyte]
    exact hrun

theorem serve_frame (hall : bytes.all (· != 0) = true) (hne : bytes ≠ []) (hlen : bytes.length ≤ maxWire)
    (hcheck : check bytes = .ok (some (h, p))) (hs : s.decoder.Idle) :
    (serve (bytes ++ [0])).run s = (onFrame h p).run s := by
  have hnz : ∀ b ∈ bytes, b ≠ 0 := fun b hb => bne_iff_ne.mp (all_eq_true.mp hall b hb)
  obtain ⟨wire, hwire, hrun⟩ := serve_gather hnz (s := s) [] hs.1
    (by simpa using hlen)
  rw [nil_append] at hwire
  have hpush : ({ s.decoder with wire := wire } : Decoder).push 0 = .ok (s.decoder, some (h, p)) := by
    rw [Decoder.push, if_neg (by decide), if_neg (by rw [hwire]; exact hne), Decoder.finish, hs.2]
    rw [hwire, hcheck]
    exact congrArg (fun d => Except.ok (d, some (h, p))) hs.eq.symm
  rw [serve, each_append]
  change (serve bytes >>= fun _ => Proc.each onByte [0]).run s = _
  rw [bind_ok hrun]
  change (onByte 0 >>= fun _ => (pure ⟨⟩ : Proc (Stop Failure) (Slave F) PUnit)).run
    { s with decoder := { s.decoder with wire := wire } } = _
  rw [bind_pure_unit, onByte, get_bind, hpush]
  rfl

end Frames

end Slave

inductive NoFiles where
  | mk

instance : Files NoFiles where
  create _ _ := throw .unsupported
  writeAt _ _ := throw .unsupported
  commit _ _ := throw .unsupported
  openFile _ := throw .unsupported
  readAt _ _ := throw .unsupported
  list _ _ := throw .unsupported

theorem noFiles_keeps : Files.Keeps NoFiles where
  readAt := nofun
  list := nofun
  log := nofun
  console := nofun
  listDir := nofun
  output := nofun
  runs := nofun

def slaveNamed {F : Type} (files : F) (name : Bytes) (address : UInt8) (writes : List Bool) : Slave F :=
  .new ((FileService.new files).setName name) address writes

/-- The frame of a hello that asks for answers of at most 64 bytes, before its zero. -/
def helloWire : Bytes := [2, 1, 2, 1, 2, 1, 2, 4, 2, 1, 2, 64, 5, 36, 60, 220, 8]

def helloAgain : Bytes := [2, 1, 2, 1, 2, 2, 2, 4, 2, 1, 2, 64, 5, 77, 187, 152, 211]

theorem check_of_toOption {f : Header × Bytes}
    (h : (check wire).toOption = some (some f)) : check wire = .ok (some f) := by
  cases hc : check wire with
  | ok frame =>
    rw [hc] at h
    exact congrArg Except.ok (Option.some.inj h)
  | error e =>
    rw [hc] at h
    cases h

theorem check_helloWire : check helloWire = .ok (some (⟨0, 0, 1, 0, 1⟩, [1, 0, 64, 0])) :=
  check_of_toOption (by decide +kernel)

theorem check_helloAgain : check helloAgain = .ok (some (⟨0, 0, 1, 0, 2⟩, [1, 0, 64, 0])) :=
  check_of_toOption (by decide +kernel)

def Survives (F : Type) [Files F] [Sha256] (name : Bytes) : Prop :=
  ∀ (files : F) (address : UInt8) (writes : List Bool) (reads : List Bytes), ∃ t,
    Slave.serves reads (slaveNamed files name address writes) = some t ∧
      ∀ f ∈ t.sent, f.payload.length ≤ f.limit

theorem survives_of_short {F : Type} [Files F] [Sha256] (hF : Files.Keeps F) {name : Bytes}
    (h : name.length ≤ 60) : Survives F name := by
  intro files address writes reads
  have hfine : (slaveNamed files name address writes).Fine := by
    refine ⟨⟨maxPayload, rfl, by decide, Nat.le_refl _, ?_⟩, Nat.zero_le _, nofun⟩
    change (name.take 64).length ≤ 60
    rw [length_take]
    exact Nat.le_trans (Nat.min_le_right _ _) h
  obtain ⟨t, ht, hsent⟩ := Slave.serves_fine hF reads hfine
  exact ⟨t, ht, hsent.sent⟩

theorem hello_run [Sha256] (name : Bytes) :
    (handle 0 1 [1, 0, 64, 0] maxPayload).run ((FileService.new NoFiles.mk).setName name) =
      .ok ([version, roleSlave] ++ Bytes.le 2 maxPayload ++ name.take 64)
        { (FileService.new NoFiles.mk).setName name with limit := 64 } := by
  have hfit : 4 + (name.take 64).length ≤ maxPayload := by
    rw [length_take]
    have hmax : maxPayload = 1024 := rfl
    omega
  change (within (4 + (name.take 64).length) maxPayload >>= fun _ => _ : Serving NoFiles Bytes).run
    { (FileService.new NoFiles.mk).setName name with limit := 64 } = _
  rw [within, ensure_pos hfit]
  rfl

def greeting (name : Bytes) : Bytes :=
  ([version, roleSlave] ++ Bytes.le 2 maxPayload ++ name.take 64).take maxPayload

theorem length_greeting (name : Bytes) : (greeting name).length = 4 + (name.take 64).length := by
  have hmax : maxPayload = 1024 := rfl
  simp only [greeting, length_take, length_append, Bytes.length_le, length_cons,
    length_nil]
  omega

def greeted (name wire : Bytes) : Slave NoFiles where
  service := { (FileService.new NoFiles.mk).setName name with limit := 64 }
  decoder := .new
  address := 0
  last := some (0, 1, 1, crc32c [1, 0, 64, 0])
  answer := wire
  shown := greeting name
  requests := 1
  retries := 0
  writes := []
  sent := [⟨wire, greeting name, 64⟩]

theorem hello_served [Sha256] (name : Bytes) : ∃ wire,
    (Slave.serve (helloWire ++ [0])).run (slaveNamed NoFiles.mk name 0 []) =
      .ok ⟨⟩ (greeted name wire) := by
  have hrun := Slave.onService_ok (s := { slaveNamed NoFiles.mk name 0 [] with requests := 1 })
    (hello_run name)
  obtain ⟨wire, -, hwire⟩ := Slave.framed_ok ⟨0, 0, 1 ||| reply, 0, 1⟩ (greeting name)
    (length_take_le _ _) (by decide)
  have hredo := Slave.redo_run (h := ⟨0, 0, 1, 0, 1⟩) (by decide) hrun rfl hwire
  refine ⟨wire, ?_⟩
  rw [Slave.serve_frame (by decide) (by decide) (by decide) check_helloWire ⟨rfl, rfl⟩,
    Slave.onFrame_redo (by decide) rfl (Option.some_ne_none _).symm]
  exact (bind_ok hredo).trans rfl

/-- The slave survives exactly when its name leaves room in the smallest answer. -/
theorem slave_survives_iff (name : Bytes) :
    (∀ (F : Type) [Files F] [Sha256], Files.Keeps F → Survives F name) ↔ name.length ≤ 60 := by
  constructor
  · intro h
    let := Dag.lengthDigest
    obtain ⟨t, ht, hsent⟩ := h NoFiles noFiles_keeps .mk 0 [] [helloWire ++ [0]]
    obtain ⟨wire, hserve⟩ := hello_served name
    rw [Slave.serves, hserve] at ht
    obtain rfl := Option.some.inj ht
    have hle := hsent _ mem_cons_self
    rw [length_greeting, length_take] at hle
    change _ ≤ 64 at hle
    omega
  · intro h F _ _ hF
    exact survives_of_short hF h

theorem hello_traps [Sha256] {s : FileService NoFiles} (hlimit : s.limit = 64)
    (hname : 60 < s.name.val.length) :
    ∃ t, (handle 0 1 [1, 0, 64, 0] maxPayload).run s = .error .trap t := by
  refine ⟨{ s with limit := 64 }, ?_⟩
  have hmin : Nat.min s.limit maxPayload = 64 := by
    rw [hlimit]
    rfl
  rw [handle, get_bind, hmin]
  change (within (4 + s.name.val.length) 64 >>= fun _ => _ : Serving NoFiles Bytes).run
    { s with limit := 64 } = _
  rw [within, ensure_neg (by omega)]
  rfl

/-- A name of 64 bytes: the second hello traps. -/
theorem long_name_stops_the_slave : letI := Dag.lengthDigest
    ¬Survives NoFiles (List.replicate 64 0x61) := by
  let := Dag.lengthDigest
  intro h
  obtain ⟨t, ht, _⟩ := h .mk 0 [] [helloWire ++ [0], helloAgain ++ [0]]
  obtain ⟨wire, hserve⟩ := hello_served (List.replicate 64 0x61)
  have hname : 60 < (greeted (List.replicate 64 0x61) wire).service.name.val.length := by
    change 60 < ((List.replicate 64 (0x61 : UInt8)).take 64).length
    decide
  obtain ⟨t', htrap⟩ := hello_traps rfl hname
  have hredo := Slave.redo_trap (h := ⟨0, 0, 1, 0, 2⟩) (p := [1, 0, 64, 0])
    (s := { greeted (List.replicate 64 0x61) wire with requests := 2 }) (by decide) htrap
  have hagain : (Slave.serve (helloAgain ++ [0])).run (greeted (List.replicate 64 0x61) wire) =
      .error .trap { greeted (List.replicate 64 0x61) wire with requests := 2, service := t' } := by
    rw [Slave.serve_frame (by decide) (by decide) (by decide) check_helloAgain ⟨rfl, rfl⟩,
      Slave.onFrame_redo (by decide) rfl (by
        intro hlast
        cases hlast)]
    exact bind_error hredo
  rw [Slave.serves, hserve] at ht
  dsimp only at ht
  rw [Slave.serves, hagain] at ht
  cases ht

end MindCore.Linkproto
