import MindCore.Linkproto.Transfers

/-!
# Files over the link

`Client::put` and `Client::get` of `linkproto/src/app.rs` against a `FileService`, over a line on
which any call may fail, before the request is carried out or after.
-/

namespace MindCore.Linkproto

open List Proc

/-- `trap` is a panic of the master's own. -/
inductive ClientError where
  | line
  | timeout
  | tooBig
  | refused (code : Code)
  | protocol
  | trap

/-- How a call fares: whether its request reaches the slave, whether the answer comes back, and what
the call fails with when one of them does not. -/
structure Turn where
  reaches : Bool
  answers : Bool
  error : ClientError

/-- A client and its slave: the calls to come, the caller's own state, the bytes its `read` gave to
the put in progress and those its `write` was given by the get in progress. -/
structure Link (F R : Type) where
  service : FileService (Recorder F)
  /-- The slave has stopped. -/
  stopped : Bool
  turns : List Turn
  caller : R
  given : Bytes
  taken : Bytes

section Calls
variable {F R : Type}

abbrev Calling (F R : Type) := Proc ClientError (Link F R)

def Link.answered (l : Link F R) (turn : Turn) (room : Nat) :
    Outcome (Stop Code) (FileService (Recorder F)) Bytes → Outcome ClientError (Link F R) Bytes
  | .ok data s =>
    if turn.answers = true then
      if (data.take maxPayload).length ≤ room then .ok (data.take maxPayload) { l with service := s }
      else .error .tooBig { l with service := s }
    else .error turn.error { l with service := s }
  | .error (.fail c) s =>
    .error (if turn.answers = true then .refused c else turn.error) { l with service := s }
  | .error _ s => .error turn.error { l with service := s, stopped := true }

variable [Files F] [Sha256]

def Link.asked (l : Link F R) (channel kind : UInt8) (payload : Bytes) (room : Nat) :
    List Turn → Outcome ClientError (Link F R) Bytes
  | [] => .error .line l
  | turn :: turns =>
    if turn.reaches = true ∧ l.stopped = false then
      answered { l with turns := turns } turn room
        ((handle channel kind payload maxPayload).run l.service)
    else .error turn.error { l with turns := turns }

def call (channel kind : UInt8) (payload : Bytes) (room : Nat) : Calling F R Bytes := do
  ensure (payload.length ≤ maxPayload) .tooBig
  ⟨fun l => l.asked channel kind payload room l.turns⟩

omit [Files F] [Sha256] in
def give (read : R → UInt64 → Nat → Bytes × R) (offset : UInt64) (want : Nat) : Calling F R Bytes := do
  let l ← get
  let data := (read l.caller offset want).1.take want
  set { l with caller := (read l.caller offset want).2, given := l.given ++ data }
  return data

/-- The loops of `put`: `left` bytes from `offset` on, each piece given to `act`. -/
def readUpTo (read : R → UInt64 → Nat → Bytes × R) (chunk head : Nat)
    (act : UInt64 → Bytes → Calling F R PUnit) (left : Nat) (offset : UInt64) :
    Calling F R UInt64 :=
  if left = 0 then return offset
  else do
    ensure (head + Nat.min left chunk ≤ maxPayload) .trap
    let data ← give read offset (Nat.min left chunk)
    if data = [] then throw .line
    else do
      act offset data
      readUpTo read chunk head act (left - data.length) (offset + UInt64.ofNat data.length)
termination_by left
decreasing_by
  have := List.length_pos_iff.mpr ‹_›
  omega

def sendData (offset : UInt64) (data : Bytes) : Calling F R PUnit := do
  let _ ← call 2 11 (put64 offset ++ data) 64

def put (read : R → UInt64 → Nat → Bytes × R) (chunk : Nat) (name : Bytes) (size : UInt64) :
    Calling F R (Digest × UInt64) := do
  ensure (name ≠ [] ∧ name.length ≤ nameMax) .tooBig
  modify fun l => { l with given := [] }
  let r ← call 2 10 (put64 size ++ name) 64
  let resume ← orError (u64At r 0) .protocol
  ensure (resume ≤ size) .protocol
  let offset ← readUpTo read chunk 0 (fun _ _ => return) resume.toNat 0
  let _ ← readUpTo read chunk dataHead sendData (size - offset).toNat offset
  let l ← get
  let _ ← call 2 12 (Sha256.digest l.given).val 64
  return (Sha256.digest l.given, resume)

def take (write : R → UInt64 → Bytes → Bool × R) (offset : UInt64) (data : Bytes) : Calling F R PUnit := do
  let l ← get
  set { l with caller := (write l.caller offset data).2, taken := l.taken ++ data }
  ensure ((write l.caller offset data).1 = true) .line

def writeUpTo (write : R → UInt64 → Bytes → Bool × R) (chunk left : Nat) (offset : UInt64) :
    Calling F R PUnit :=
  if left = 0 then return
  else do
    let want := Nat.min left chunk % 65536
    let data ← call 2 14 (put64 offset ++ Bytes.le 2 want) maxPayload
    if data ≠ [] ∧ data.length ≤ want then do
      take write offset data
      writeUpTo write chunk (left - data.length) (offset + UInt64.ofNat data.length)
    else throw .protocol
termination_by left
decreasing_by
  have := List.length_pos_iff.mpr (And.left ‹_›)
  omega

def get (write : R → UInt64 → Bytes → Bool × R) (chunk : Nat) (name : Bytes) :
    Calling F R (UInt64 × Digest) := do
  modify fun l => { l with taken := [] }
  let r ← call 2 13 name maxPayload
  let size ← orError (u64At r 0) .protocol
  writeUpTo write chunk size.toNat 0
  let r ← call 2 15 [] maxPayload
  let l ← MonadState.get
  ensure (r = (Sha256.digest l.taken).val) (.refused .mismatch)
  return (size, Sha256.digest l.taken)

end Calls

variable {head : Nat}

section Keeping
variable {F R : Type}

/-- The slave serves, and its puts and gets are what its files were asked. -/
def Alive (l : Link F R) : Prop := l.stopped = false ∧ Faithful l.service

/-- The slave serves so or has stopped, and no file was committed whole that was not written. -/
def Sound (l : Link F R) : Prop := Whole l.service.files.log ∧ (l.stopped = false → Faithful l.service)

variable {l : Link F R}

theorem Alive.sound (h : Alive l) : Sound l := ⟨h.2.commits, fun _ => h.2⟩

/-- What a call that succeeds brings: an answer as `Q` has it, cut to a frame. -/
def Brings (l : Link F R) (Q : Bytes → FileService (Recorder F) → Prop) (a : Bytes) (t : Link F R) : Prop :=
  Alive t ∧ t.given = l.given ∧ t.taken = l.taken ∧ ∃ b, Q b t.service ∧ a = b.take maxPayload

variable {o : Outcome (Stop Code) (FileService (Recorder F)) Bytes}

theorem answered_meets {Q : Bytes → FileService (Recorder F) → Prop} {turn : Turn} {room : Nat}
    (hl : l.stopped = false) (ho : o.Meets (fun a s => Faithful s ∧ Q a s) Left) :
    (l.answered turn room o).Meets (Brings l Q) fun _ t => Sound t := by
  cases o with
  | ok data s =>
    have halive : Alive { l with service := s } := ⟨hl, ho.1⟩
    rw [Link.answered]
    split
    · split
      · exact ⟨halive, rfl, rfl, data, ho.2, rfl⟩
      · exact halive.sound
    · exact halive.sound
  | error e s =>
    obtain ⟨hwhole, hkept⟩ := ho
    cases e with
    | fail c => exact ⟨hwhole, fun _ => hkept (by simp)⟩
    | answer | trap => exact ⟨hwhole, nofun⟩

section Calls
variable [Files F] [Sha256] {Q : Bytes → FileService (Recorder F) → Prop}

theorem call_meets (channel kind : UInt8) (payload : Bytes) (room : Nat) (hl : Sound l)
    (hh : Faithful l.service → ((handle channel kind payload maxPayload).run l.service).Meets
      (fun a s => Faithful s ∧ Q a s) Left) :
    ((call channel kind payload room).run l).Meets (Brings l Q) fun _ t => Sound t := by
  refine meets_bind (meets_ensure fun _ => hl) ?_
  rintro _ _ ⟨_, rfl⟩
  change (l.asked channel kind payload room l.turns).Meets _ _
  cases l.turns with
  | nil => exact hl
  | cons turn turns =>
    rw [Link.asked]
    split
    · rename_i h
      exact answered_meets (l := { l with turns := turns }) h.2 (hh (hl.2 h.2))
    · exact hl

theorem call_sound (channel kind : UInt8) (payload : Bytes) (room : Nat)
    (hl : Sound l) : Sound ((call channel kind payload room).run l).state := by
  have h := call_meets (Q := fun _ _ => True) channel kind payload room hl fun hs =>
    meets_mono (handle_meets hs channel kind payload maxPayload) (fun _ _ h => ⟨h, trivial⟩)
      fun _ _ h => h
  exact meets_state (meets_mono h (fun _ _ hb => hb.1.sound) fun _ _ he => he)

omit [Files F] [Sha256] in
theorem meets_left (h : o.Meets Q fun _ t => Faithful t) : o.Meets Q Left :=
  meets_mono h (fun _ _ hq => hq) fun _ _ he => he.left

theorem call_request {channel kind : UInt8}
    (r : Request) (hr : Request.of channel kind = some r) (payload : Bytes) (room : Nat) (hl : Sound l)
    (hh : ∀ limit ≤ maxPayload, Faithful l.service →
      ((r.serve limit payload).run l.service).Meets (fun a s => Faithful s ∧ Q a s) Left) :
    ((call channel kind payload room).run l).Meets (Brings l Q) fun _ t => Sound t := by
  refine call_meets channel kind payload room hl ?_
  intro hs
  refine meets_bind meets_get ?_
  rintro _ _ ⟨rfl, rfl⟩
  rw [hr]
  exact hh _ (Nat.min_le_right _ _) hs

omit [Files F] [Sha256] in
theorem u64At_put64 (v : UInt64) (rest : Bytes) : u64At (put64 v ++ rest) 0 = some v := by
  have hlt : v.toNat < 256 ^ 8 := v.toNat_lt
  have htake : (put64 v ++ rest).take 8 = put64 v := take_left' (length_put64 v)
  rw [u64At, uintAt, if_pos (by simp), drop_zero, htake, put64, Bytes.ofLe_le 8 _ hlt]
  simp

section Puts
variable {read : R → UInt64 → Nat → Bytes × R} {chunk : Nat}

omit [Files F] [Sha256] in
theorem toNat_add_length (offset : UInt64) (data : Bytes) (h : offset.toNat + data.length < 2 ^ 64) :
    (offset + UInt64.ofNat data.length).toNat = offset.toNat + data.length := by
  rw [UInt64.toNat_add, UInt64.toNat_ofNat']
  omega

omit [Files F] [Sha256] in
theorem readUpTo_meets {I : UInt64 → Link F R → Prop} {act : UInt64 → Bytes → Calling F R PUnit}
    (hsound : ∀ offset l, I offset l → Sound l)
    (hact : ∀ offset l caller data, I offset l → offset.toNat + data.length < 2 ^ 64 →
      ((act offset data).run { l with caller := caller, given := l.given ++ data }).Meets
        (fun _ t => I (offset + UInt64.ofNat data.length) t) fun _ t => Sound t) (left : Nat) :
    ∀ offset l, offset.toNat + left < 2 ^ 64 → I offset l →
      ((readUpTo read chunk head act left offset).run l).Meets
        (fun o t => o.toNat = offset.toNat + left ∧ I o t) fun _ t => Sound t := by
  induction left using Nat.strong_induction_on with
  | _ left ih =>
    intro offset l hlt hl
    rw [readUpTo]
    split
    · rename_i h
      exact ⟨by rw [h]; rfl, hl⟩
    · refine meets_bind (meets_ensure fun _ => hsound offset l hl) ?_
      rintro _ _ ⟨_, rfl⟩
      refine meets_bind (Q := fun data t => data.length ≤ left ∧ t = { l with
        caller := (read l.caller offset (Nat.min left chunk)).2, given := l.given ++ data }) ?_ ?_
      · refine ⟨?_, rfl⟩
        exact (length_take_le _ _).trans (Nat.min_le_left _ _)
      rintro data _ ⟨hlen, rfl⟩
      split
      · exact hsound offset l hl
      · rename_i hne
        have hpos := length_pos_iff.mpr hne
        have hnext := toNat_add_length offset data (by omega)
        refine meets_bind (hact offset l _ data hl (by omega)) ?_
        intro _ t ht
        refine meets_mono (ih (left - data.length) (by omega) _ t (by omega) ht) ?_
          fun _ _ he => he
        rintro o u ⟨ho, hu⟩
        exact ⟨by omega, hu⟩

/-- What a put that returns leaves: the writes since the create and one commit. -/
structure Landed (name : Bytes) (size : UInt64) (l : Link F R) : Prop where
  sound : Sound l
  given : l.given.length = size.toNat
  written : ∃ bytes, Sha256.digest bytes = Sha256.digest l.given ∧
    replay l.service.files.log = some ⟨name, size, bytes, true, [true]⟩

omit [Files F] [Sha256] in
theorem hashPiece_meets {w : Put} (offset : UInt64) (l : Link F R) (caller : R) (data : Bytes)
    (hl : Alive l ∧ l.service.writing = some w ∧ l.given.length = offset.toNat)
    (hlt : offset.toNat + data.length < 2 ^ 64) :
    ((pure ⟨⟩ : Calling F R PUnit).run { l with caller := caller, given := l.given ++ data }).Meets
      (fun _ t => Alive t ∧ t.service.writing = some w ∧
        t.given.length = (offset + UInt64.ofNat data.length).toNat) fun _ t => Sound t := by
  refine ⟨hl.1, hl.2.1, ?_⟩
  rw [toNat_add_length offset data hlt, length_append, hl.2.2]

def Stands (name : Bytes) (size offset : UInt64) (l : Link F R) : Prop :=
  Alive l ∧ l.given.length = offset.toNat ∧
    ∃ w, l.service.writing = some w ∧ w.name = name ∧ w.size = size ∧ w.done = offset

variable {name : Bytes} {size : UInt64}

theorem sendData_meets (offset : UInt64) (l : Link F R) (caller : R)
    (data : Bytes) (hl : Stands name size offset l) (hlt : offset.toNat + data.length < 2 ^ 64) :
    ((sendData offset data).run { l with caller := caller, given := l.given ++ data }).Meets
      (fun _ t => Stands name size (offset + UInt64.ofNat data.length) t) fun _ t => Sound t := by
  obtain ⟨halive, hgiven, w, hw, hname, hsize, hdone⟩ := hl
  refine meets_bind (call_request .putData rfl _ 64 halive.sound fun _ _ hs =>
    meets_left (putData_meets hs _)) ?_
  rintro _ t ⟨ht, hsame, -, -, ⟨-, w', -, hw', -, hnow⟩, -⟩
  obtain rfl : w = w' := Option.some.inj (hw.symm.trans hw')
  have hdrop : (put64 offset ++ data).drop dataHead = data := by
    rw [put64, dataHead, drop_append_of_le_length (by simp)]
    simp
  rw [hdrop] at hnow
  refine ⟨ht, ?_, _, hnow, hname, hsize, ?_⟩
  · rw [hsame, toNat_add_length offset data hlt, length_append, hgiven]
  · rw [hdone]

variable {l : Link F R}

theorem putOpen_call (name : Bytes) (size : UInt64) (hl : Sound l) :
    ((call 2 10 (put64 size ++ name) 64).run l).Meets (fun r t => Alive t ∧ t.given = l.given ∧
      ∃ w, t.service.writing = some w ∧ w.name = name ∧ w.size = size ∧
        u64At r 0 = some w.done) fun _ t => Sound t := by
  refine meets_mono (call_request .putOpen rfl _ 64 hl fun _ _ hs =>
    meets_left (putOpen_meets hs _ _)) ?_ fun _ _ he => he
  rintro _ t ⟨ht, hgiven, -, _, ⟨size', w, hsize', hw, hname, hsize, rfl⟩, rfl⟩
  rw [u64At_put64] at hsize'
  refine ⟨ht, hgiven, w, hw, ?_, ?_, ?_⟩
  · rw [hname]
    exact drop_left' (length_put64 size)
  · rw [hsize, Option.some.inj hsize']
  · exact u64At_put64 w.done []

theorem putClose_call {offset : UInt64} (hl : Stands name size offset l) (hsize : offset = size) :
    ((call 2 12 (Sha256.digest l.given).val 64).run l).Meets
      (fun _ t => Landed name size t ∧ t.given = l.given) fun _ t => Sound t := by
  obtain ⟨halive, hgiven, w, hw, rfl, rfl, hdone⟩ := hl
  refine meets_mono (call_request .putClose rfl _ 64 halive.sound fun _ _ hs =>
    meets_left (putClose_meets hs _)) ?_ fun _ _ he => he
  rintro _ t ⟨ht, hsame, -, _, ⟨digest, w', hdigest, hw', -, hhashed, hlog⟩, -⟩
  obtain rfl : w = w' := Option.some.inj (hw.symm.trans hw')
  have hof : digestOf (Sha256.digest l.given).val = some (Sha256.digest l.given) := by
    rw [digestOf, dif_pos (Sha256.digest l.given).property]
  refine ⟨⟨ht.sound, ?_, w.hashed, ?_, ?_⟩, hsame⟩
  · rw [hsame, hgiven, hsize]
  · rw [hhashed, hsame, ← Option.some.inj (hof.symm.trans hdigest)]
  · rw [hlog]
    change (replay l.service.files.log).map _ = _
    rw [(halive.2.writing w hw).1]
    rfl

theorem put_meets (name : Bytes) (size : UInt64) (hl : Sound l) : ((put read chunk name size).run l).Meets
      (fun r t => Landed name size t ∧ r.1 = Sha256.digest t.given) fun _ t => Sound t := by
  refine meets_bind (meets_ensure fun _ => hl) ?_
  rintro _ _ ⟨_, rfl⟩
  refine meets_bind meets_modify ?_
  rintro _ _ rfl
  have hcleared : Sound { l with given := [] } := hl
  refine meets_bind (putOpen_call name size hcleared) ?_
  rintro r t ⟨ht, hgiven, w, hw, hname, hsize, hr⟩
  refine meets_bind (meets_orError ht.sound) ?_
  rintro resume _ ⟨hresume, rfl⟩
  obtain rfl : w.done = resume := Option.some.inj (hr.symm.trans hresume)
  refine meets_bind (meets_ensure fun _ => ht.sound) ?_
  rintro _ _ ⟨hle, rfl⟩
  have hzero : t.given.length = (0 : UInt64).toNat := by
    rw [hgiven]
    rfl
  have hdone := w.done.toNat_lt
  refine meets_bind (readUpTo_meets (fun _ _ h => h.1.sound) hashPiece_meets w.done.toNat 0 t
    (by simpa using hdone) ⟨ht, hw, hzero⟩) ?_
  rintro offset t' ⟨hoffset, ht', hw', hgiven'⟩
  obtain rfl : offset = w.done := UInt64.toNat_inj.mp (by simpa using hoffset)
  have hleft : w.done.toNat + (size - w.done).toNat = size.toNat := by
    rw [UInt64.toNat_sub_of_le _ _ hle]
    have := UInt64.le_iff_toNat_le.mp hle
    omega
  have hlt := size.toNat_lt
  refine meets_bind (readUpTo_meets (fun _ _ h => h.1.sound) sendData_meets _ w.done t'
    (by omega) ⟨ht', hgiven', w, hw', hname, hsize, rfl⟩) ?_
  rintro offset t'' ⟨hend, hstands⟩
  refine meets_bind meets_get ?_
  rintro _ _ ⟨rfl, rfl⟩
  have hwhole : offset = size := UInt64.toNat_inj.mp (by omega)
  refine meets_bind (putClose_call hstands hwhole) ?_
  rintro _ _ ⟨hlanded, hsame⟩
  refine ⟨hlanded, ?_⟩
  rw [hsame]

end Puts

section Gets
variable {write : R → UInt64 → Bytes → Bool × R} {chunk : Nat}

/-- What a get that returns leaves: what was read since the open, all of it given to `write`. -/
structure Fetched (size : UInt64) (l : Link F R) : Prop where
  sound : Sound l
  taken : l.taken.length = size.toNat
  read : replayGet l.service.files.log = some (size, l.taken)

def Getting (size : UInt64) (l : Link F R) : Prop :=
  Alive l ∧ ∃ g, l.service.reading = some g ∧ g.size = size ∧ g.hashed = l.taken

variable {l : Link F R} {size : UInt64}

theorem getOpen_call (name : Bytes) (hl : Sound l) (htaken : l.taken = []) :
    ((call 2 13 name maxPayload).run l).Meets (fun r t => t.taken = [] ∧
      ∃ size, u64At r 0 = some size ∧ Getting size t) fun _ t => Sound t := by
  refine meets_mono (call_request .getOpen rfl _ maxPayload hl fun _ _ hs =>
    meets_left (getOpen_meets hs _ _)) ?_ fun _ _ he => he
  rintro _ t ⟨ht, -, hsame, _, ⟨size, hreading, rfl⟩, rfl⟩
  rw [htaken] at hsame
  refine ⟨hsame, size, ?_, ht, _, hreading, rfl, hsame.symm⟩
  exact u64At_put64 size []

theorem getData_call (payload : Bytes) (hl : Getting size l) :
    ((call 2 14 payload maxPayload).run l).Meets (fun data t => t.taken = l.taken ∧
      Getting size { t with taken := t.taken ++ data }) fun _ t => Sound t := by
  obtain ⟨halive, g, hg, hsize, hhashed⟩ := hl
  have hdata : ∀ limit ≤ maxPayload, Faithful l.service →
      ((getData limit payload).run l.service).Meets (fun data s => Faithful s ∧
        data.length ≤ maxPayload ∧ ∃ g, l.service.reading = some g ∧ s.reading = some { g with
          done := g.done + UInt64.ofNat data.length, hashed := g.hashed ++ data }) Left := by
    intro limit hle hs
    refine meets_mono (getData_meets hs limit payload) ?_ fun _ _ he => he
    rintro data s ⟨hkept, hlen, _, g, -, hg, -, hreading⟩
    exact ⟨hkept, hlen.trans hle, g, hg, hreading⟩
  refine meets_mono (call_request .getData rfl payload maxPayload halive.sound hdata) ?_
    fun _ _ he => he
  rintro _ t ⟨ht, -, hsame, data, ⟨hlen, g', hg', hreading⟩, rfl⟩
  obtain rfl : g = g' := Option.some.inj (hg.symm.trans hg')
  rw [take_of_length_le hlen]
  refine ⟨hsame, ht, _, hreading, hsize, ?_⟩
  rw [hhashed, hsame]

theorem getClose_call (hl : Getting size l) :
    ((call 2 15 [] maxPayload).run l).Meets (fun _ t => Sound t ∧ t.taken = l.taken ∧
      replayGet t.service.files.log = some (size, l.taken)) fun _ t => Sound t := by
  obtain ⟨halive, g, hg, hsize, hhashed⟩ := hl
  refine meets_mono (call_request .getClose rfl _ maxPayload halive.sound fun _ _ hs =>
    meets_left (getClose_meets hs _)) ?_ fun _ _ he => he
  rintro _ t ⟨ht, -, hsame, _, ⟨hlog, -⟩, -⟩
  refine ⟨ht.sound, hsame, ?_⟩
  rw [hlog, (halive.2.reading g hg).1, hsize, hhashed]

theorem writeUpTo_meets (left : Nat) : ∀ offset (l : Link F R), Getting size l →
    ((writeUpTo write chunk left offset).run l).Meets
      (fun _ t => Getting size t ∧ t.taken.length = l.taken.length + left) fun _ t => Sound t := by
  induction left using Nat.strong_induction_on with
  | _ left ih =>
    intro offset l hl
    rw [writeUpTo]
    split
    · rename_i h
      exact ⟨hl, by rw [h]; rfl⟩
    · refine meets_bind (getData_call _ hl) ?_
      rintro data t ⟨hsame, ht⟩
      split
      · rename_i h
        have hpos := length_pos_iff.mpr h.1
        have hle : data.length ≤ left := h.2.trans ((Nat.mod_le _ _).trans (Nat.min_le_left _ _))
        refine meets_bind (Q := fun _ u => Getting size u ∧
          u.taken.length = l.taken.length + data.length) ?_ ?_
        · refine meets_bind meets_get ?_
          rintro _ _ ⟨rfl, rfl⟩
          refine meets_bind meets_set ?_
          rintro _ _ rfl
          refine meets_mono (meets_ensure fun _ => ht.1.sound) ?_ fun _ _ he => he
          rintro _ _ ⟨-, rfl⟩
          refine ⟨ht, ?_⟩
          rw [length_append, hsame]
        · rintro _ u ⟨hu, hlen⟩
          refine meets_mono (ih (left - data.length) (by omega) _ u hu) ?_ fun _ _ he => he
          rintro _ v ⟨hv, hlen'⟩
          exact ⟨hv, by omega⟩
      · exact ht.1.sound

theorem get_meets (name : Bytes) (hl : Sound l) :
    ((get write chunk name).run l).Meets (fun r t => Fetched r.1 t) fun _ t => Sound t := by
  refine meets_bind meets_modify ?_
  rintro _ _ rfl
  have hcleared : Sound { l with taken := [] } := hl
  refine meets_bind (getOpen_call name hcleared rfl) ?_
  rintro r t ⟨htaken, size, hsize, ht⟩
  refine meets_bind (meets_orError ht.1.sound) ?_
  rintro size' _ ⟨hsize', rfl⟩
  obtain rfl : size = size' := Option.some.inj (hsize.symm.trans hsize')
  refine meets_bind (writeUpTo_meets size.toNat 0 t ht) ?_
  rintro _ u ⟨hu, hlen⟩
  refine meets_bind (getClose_call hu) ?_
  rintro r' v ⟨hv, hsame, hread⟩
  refine meets_bind meets_get ?_
  rintro _ _ ⟨rfl, rfl⟩
  refine meets_bind (meets_ensure fun _ => hv) ?_
  rintro _ _ ⟨-, rfl⟩
  refine ⟨hv, ?_, ?_⟩
  · rw [hsame, hlen, htaken]
    simp
  · rw [hsame]
    exact hread

end Gets

end Calls

end Keeping

section Runs
variable {F R : Type} [Files F] [Sha256]

/-- What a client does next: a put, a get or any other request, on a line that fares as `turns` has
it. A call that fails leaves what it did. -/
inductive Link.Step : Link F R → Link F R → Prop
  | put (l : Link F R) (turns : List Turn) (caller : R) (read : R → UInt64 → Nat → Bytes × R)
      (chunk : Nat) (name : Bytes) (size : UInt64) :
      Step l ((put read chunk name size).run { l with turns := turns, caller := caller }).state
  | get (l : Link F R) (turns : List Turn) (caller : R) (write : R → UInt64 → Bytes → Bool × R)
      (chunk : Nat) (name : Bytes) :
      Step l ((get write chunk name).run { l with turns := turns, caller := caller }).state
  | request (l : Link F R) (turns : List Turn) (channel kind : UInt8) (payload : Bytes) (room : Nat) :
      Step l ((call channel kind payload room).run { l with turns := turns }).state

structure Link.Fresh (l : Link F R) : Prop where
  writing : l.service.writing = none
  reading : l.service.reading = none
  log : l.service.files.log = []

variable {l : Link F R}

omit [Files F] [Sha256] in
theorem Link.Fresh.sound (h : l.Fresh) : Sound l := by
  have hwhole : Whole l.service.files.log := by
    intro digest ok before hsuf
    rw [h.log] at hsuf
    cases suffix_nil.mp hsuf
  refine ⟨hwhole, fun _ => ⟨?_, ?_, hwhole⟩⟩
  · rw [h.writing]
    nofun
  · rw [h.reading]
    nofun

theorem Link.Step.sound {l' : Link F R} (h : Step l l') (hl : Sound l) : Sound l' := by
  cases h with
  | put turns caller read chunk name size =>
    have hstart : Sound { l with turns := turns, caller := caller } := hl
    exact meets_state (meets_mono (put_meets name size hstart) (fun _ _ hs => hs.1.sound)
      fun _ _ he => he)
  | get turns caller write chunk name =>
    have hstart : Sound { l with turns := turns, caller := caller } := hl
    exact meets_state (meets_mono (get_meets name hstart) (fun _ _ hs => hs.sound) fun _ _ he => he)
  | request turns channel kind payload room =>
    have hstart : Sound { l with turns := turns } := hl
    exact call_sound channel kind payload room hstart

def Link.Reaches (l : Link F R) : Prop := ∃ start, Fresh start ∧ Relation.ReflTransGen Step start l

theorem Link.Reaches.sound (h : l.Reaches) : Sound l := by
  obtain ⟨start, hfresh, hrun⟩ := h
  induction hrun with
  | refl => exact hfresh.sound
  | tail _ hstep ih => exact hstep.sound ih

/-- A put that returns has written the bytes `read` gave, and then committed them whole; a get that
returns has given `write` what was read; and a commit of a whole file follows writes of all of it,
each where the one before ended. -/
theorem file_sent_is_the_file {l : Link F R} (hl : l.Reaches) :
    (∀ turns (caller : R) read chunk name size digest resume t,
      (put read chunk name size).run { l with turns := turns, caller := caller } =
        .ok (digest, resume) t →
      (∀ p, replay t.service.files.log = some p →
        Set.InjOn Sha256.digest {b : Bytes | b = p.written ∨ b = t.given}) →
      t.given.length = size.toNat ∧ digest = Sha256.digest t.given ∧
        replay t.service.files.log = some ⟨name, size, t.given, true, [true]⟩) ∧
    (∀ turns (caller : R) write chunk name size digest t,
      (get write chunk name).run { l with turns := turns, caller := caller } =
        .ok (size, digest) t →
      t.taken.length = size.toNat ∧ replayGet t.service.files.log = some (size, t.taken)) ∧
    ∀ digest ok before, .commit digest true ok :: before <:+ l.service.files.log →
      ∃ p, replay before = some p ∧ p.inOrder = true ∧ p.commits = [] ∧
        p.size.toNat ≤ p.written.length := by
  refine ⟨?_, ?_, ?_⟩
  · intro turns caller read chunk name size digest resume t hrun hinj
    have hstart : Sound { l with turns := turns, caller := caller } := hl.sound
    obtain ⟨⟨-, hlen, bytes, hbytes, hreplay⟩, hdigest⟩ := meets_ok (put_meets name size hstart) hrun
    obtain rfl := hinj _ hreplay (.inl rfl) (.inr rfl) hbytes
    exact ⟨hlen, hdigest, hreplay⟩
  · intro turns caller write chunk name size digest t hrun
    have hstart : Sound { l with turns := turns, caller := caller } := hl.sound
    have hfetched := meets_ok (get_meets name hstart) hrun
    exact ⟨hfetched.taken, hfetched.read⟩
  · intro digest ok before hsuf
    obtain ⟨p, hreplay, horder, hcommits, hsize⟩ := hl.sound.1 digest ok before hsuf
    refine ⟨p, hreplay, horder, hcommits, ?_⟩
    rw [hsize, UInt64.toNat_ofNat']
    exact Nat.mod_le _ _

end Runs

section OneFile

structure OneFile where
  bytes : Bytes

instance : Files OneFile where
  create _ _ := set (OneFile.mk [])
  writeAt offset data := modify fun f => ⟨f.bytes.take offset.toNat ++ data⟩
  commit _ _ := return
  openFile _ := do
    let f ← MonadState.get
    return UInt64.ofNat f.bytes.length
  readAt offset len := do
    let f ← MonadState.get
    return (f.bytes.drop offset.toNat).take len
  list _ _ := throw .unsupported

def newLink : Link OneFile Unit := ⟨.new ⟨⟨[]⟩, []⟩, false, [], (), [], []⟩

def readsOne (_ : Unit) (_ : UInt64) (_ : Nat) : Bytes × Unit := ([65], ())

def Turn.good : Turn := ⟨true, true, .timeout⟩

theorem readUpTo_zero {F R : Type} {read : R → UInt64 → Nat → Bytes × R} {chunk : Nat}
    {act : UInt64 → Bytes → Calling F R PUnit} (offset : UInt64) :
    readUpTo read chunk head act 0 offset = return offset := by
  rw [readUpTo, if_pos rfl]

def sending (service : FileService (Recorder OneFile)) (n : Nat) (given : Bytes) : Link OneFile Unit :=
  ⟨service, false, List.replicate (3 - n) .good, (), given, []⟩

def opened : FileService (Recorder OneFile) :=
  { FileService.new ⟨⟨[]⟩, [.create [97] 1 true]⟩ with writing := some ⟨[97], 1, 0, []⟩ }

def written : FileService (Recorder OneFile) :=
  { FileService.new ⟨⟨[65]⟩, [.write 0 [65] true, .create [97] 1 true]⟩ with
    writing := some ⟨[97], 1, 1, [65]⟩ }

theorem sends_one [Sha256] : (readUpTo readsOne 8 dataHead sendData 1 0).run (sending opened 1 []) =
      .ok 1 (sending written 2 [65]) := by
  have hgive : (give readsOne 0 (Nat.min 1 8)).run (sending opened 1 []) =
      .ok [65] (sending opened 1 [65]) := rfl
  have hsend : (sendData 0 [65]).run (sending opened 1 [65]) = .ok ⟨⟩ (sending written 2 [65]) := rfl
  rw [readUpTo, if_neg (by decide), ensure_pos (by decide), pure_bind, bind_ok hgive,
    if_neg (by decide), bind_ok hsend]
  exact congrArg (fun x => Proc.run x _) (readUpTo_zero 1)

def sentOne [Sha256] : Link OneFile Unit :=
  sending (.new ⟨⟨[65]⟩, .commit (Sha256.digest [65]) true true :: written.files.log⟩) 3 [65]

theorem puts_one : letI := Dag.lengthDigest
    (put readsOne 8 [97] 1).run (sending newLink.service 0 []) = .ok (Sha256.digest [65], 0) sentOne := by
  let := Dag.lengthDigest
  have hopen : (call 2 10 (put64 1 ++ [97]) 64).run (sending newLink.service 0 []) =
      .ok (put64 0) (sending opened 1 []) := rfl
  have hhash : (readUpTo readsOne 8 0 (fun _ _ => return) (0 : UInt64).toNat 0 :
      Calling OneFile Unit UInt64).run (sending opened 1 []) = .ok 0 (sending opened 1 []) :=
    congrArg (fun x => Proc.run x _) (readUpTo_zero 0)
  have hclose : (call 2 12 (Sha256.digest [65]).val 64).run (sending written 2 [65]) =
      .ok [] sentOne := rfl
  have hcleared : (modify fun l => { l with given := [] } : Calling OneFile Unit PUnit).run
      (sending newLink.service 0 []) = .ok ⟨⟩ (sending newLink.service 0 []) := rfl
  rw [put, ensure_pos (by decide), pure_bind, bind_ok hcleared, bind_ok hopen,
    show u64At (put64 0) 0 = some 0 from rfl, Proc.orError_some, pure_bind,
    ensure_pos (by decide), pure_bind, bind_ok hhash]
  refine (bind_ok sends_one).trans ?_
  refine (bind_ok rfl).trans ?_
  refine (bind_ok hclose).trans ?_
  rfl

/-- A put of one byte, begun when the line was down and made again. -/
theorem one_byte_sent : letI := Dag.lengthDigest
    ∃ l : Link OneFile Unit, l.Reaches ∧
      (put readsOne 8 [97] 1).run { l with turns := List.replicate 3 .good, caller := () } =
        .ok (Sha256.digest [65], 0) sentOne ∧ sentOne.given = [65] ∧
      replay sentOne.service.files.log = some ⟨[97], 1, sentOne.given, true, [true]⟩ := by
  let := Dag.lengthDigest
  have hreach : ((put readsOne 8 [97] 1).run
      { newLink with turns := [], caller := () }).state.Reaches :=
    ⟨newLink, ⟨rfl, rfl, rfl⟩, .single (.put newLink [] () readsOne 8 [97] 1)⟩
  refine ⟨newLink, hreach, puts_one, rfl, ?_⟩
  refine ((file_sent_is_the_file hreach).1 (List.replicate 3 .good) () readsOne 8 [97] 1 _ 0 sentOne
    puts_one ?_).2.2
  intro p hp a ha b hb _
  have hwritten : sentOne.given = p.written := congrArg Progress.written (Option.some.inj hp)
  rw [hwritten] at ha hb
  exact (or_self_iff.mp ha).trans (or_self_iff.mp hb).symm

end OneFile

end MindCore.Linkproto
