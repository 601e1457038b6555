import Mathlib.Algebra.Group.Nat.Hom
import Mathlib.Order.Nat
import MindCore.Lib.Bytes

/-!
# The agent's session

Which command is answered and with what (`session.rs`): the answer is stored before it is sent, and a
command already stored is never answered anew. A call that fails may still have changed the session,
so each gives its result and the session it leaves.
-/

namespace MindCore.Effector

def recordsMax : Nat := 64

def textMax : Nat := 512

inductive Error where
  | identifier | text | wrongAgent | clock | clockRange | full | busy | conflict | journal | stale
  | sequence
  deriving DecidableEq

/-! ### Numbers of 64 bits -/

def u64Max : Nat := 2 ^ 64 - 1

def checked (n : Nat) : Option Nat := if n ≤ u64Max then some n else none

def orError {α : Type} (e : Error) : Option α → Except Error α
  | some a => .ok a
  | none => .error e

/-! ### Names, times and commands -/

def idByte (dot : Bool) (b : UInt8) : Bool :=
  (0x30 ≤ b && b ≤ 0x39) || (0x41 ≤ b && b ≤ 0x5a) || (0x61 ≤ b && b ≤ 0x7a) || b == 0x5f ||
    b == 0x2d || (dot && b == 0x2e)

def idForm (dot : Bool) (text : Bytes) : Bool :=
  text != [] && text.length ≤ 64 && text.all (idByte dot) && text.head? != some 0x2e

structure Id where
  bytes : Bytes
  valid : idForm true bytes = true
  deriving DecidableEq

theorem idForm_dot {dot : Bool} {text : Bytes} (h : idForm dot text = true) : idForm true text = true := by
  simp only [idForm, Bool.and_eq_true, List.all_eq_true] at h ⊢
  refine ⟨⟨h.1.1, fun b hb => ?_⟩, h.2⟩
  have hbyte := h.1.2 b hb
  simp only [idByte, Bool.or_eq_true, Bool.and_eq_true] at hbyte ⊢
  tauto

def Id.checked (dot : Bool) (text : Bytes) : Except Error Id :=
  if h : idForm dot text = true then .ok ⟨text, idForm_dot h⟩ else .error .identifier

def Id.new (text : Bytes) : Except Error Id := Id.checked false text

def Id.command (text : Bytes) : Except Error Id := Id.checked true text

structure Time where
  monotonicMs : Nat
  unixSeconds : Option Nat
  deriving DecidableEq

structure Command where
  id : Bytes
  agentId : Bytes
  action : Bytes
  program : Bytes
  payload : Bytes
  expiresUnix : Option Nat
  deriving DecidableEq

def hashLabel : Bytes := "MIND effector denied command 1\x00".toList.map fun c => UInt8.ofNat c.toNat

def Command.hashed (c : Command) : Bytes :=
  hashLabel ++
    [c.id, c.agentId, c.action, c.program, c.payload].flatMap (fun f => Bytes.le 2 f.length ++ f) ++
    [if c.expiresUnix.isSome then 1 else 0] ++ Bytes.le 8 (c.expiresUnix.getD 0)

variable {Digest : Type} [DecidableEq Digest] (sha256 : Bytes → Digest)

def Command.identity (c : Command) (agent : Id) : Except Error (Id × Digest) := do
  let id ← Id.command c.id
  let asked ← Id.new c.agentId
  if asked ≠ agent then .error .wrongAgent
  else if c.action = [] ∨ [c.action, c.program, c.payload].any (fun s => textMax < s.length) then
    .error .text
  else .ok (id, sha256 c.hashed)

inductive Failure where
  | denied | noPolicy | notFound | bounds | digest | busy | expired | audit | io | malformed
  | unsupported | upload
  deriving DecidableEq

inductive Artifact where
  | screen | log
  deriving DecidableEq

inductive Final where
  | denied | expired | completed | captured (a : Artifact) | reported | failed (f : Failure)
  deriving DecidableEq

structure Record (Digest : Type) where
  agent : Id
  id : Id
  identity : Digest
  result : Final
  expiresUnix : Option Nat
  deriving DecidableEq

/-- A record to make durable; `rewrite` when another was dropped for it. -/
structure Store (Digest : Type) where
  sequence : Nat
  slot : Nat
  record : Record Digest
  rewrite : Bool
  deriving DecidableEq

inductive Accepted (Digest : Type) where
  | store (s : Store Digest)
  | replay
  | inProgress
  deriving DecidableEq

structure Attempt where
  sequence : Nat
  startedMs : Nat
  deadlineMs : Nat
  deriving DecidableEq

/-! ### Lanes -/

structure Lane where
  due : Nat
  active : Option Attempt
  sequence : Nat
  failures : Nat
  stopped : Bool
  deriving DecidableEq

namespace Lane

def new (now : Nat) : Lane := ⟨now, none, 0, 0, false⟩

def reset (l : Lane) (now : Nat) : Lane :=
  { l with due := now, active := none, failures := 0, stopped := false }

end Lane

/-! ### The session -/

structure Saved (Digest : Type) where
  record : Record Digest
  durable : Bool
  done : Bool
  sequence : Nat
  deriving DecidableEq

structure Session (Digest : Type) where
  agent : Id
  records : List (Option (Saved Digest))
  pending : Option Nat
  saving : Option (Store Digest)
  storeSequence : Nat
  journalFailed : Bool
  registered : Bool
  stopping : Bool
  wakePending : Bool
  shutdownAttempt : Option Attempt
  shutdownDone : Bool
  heartbeat : Lane
  poll : Lane
  ack : Lane
  deriving DecidableEq

namespace Session

def empty (agent : Id) (now : Nat) : Session Digest where
  agent
  records := List.replicate recordsMax none
  pending := none
  saving := none
  storeSequence := 0
  journalFailed := false
  registered := false
  stopping := false
  wakePending := false
  shutdownAttempt := none
  shutdownDone := false
  heartbeat := Lane.new now
  poll := Lane.new now
  ack := Lane.new now

def slotOf (s : Session Digest) (id : Id) : Option Nat :=
  s.records.findIdx? fun o => o.any fun saved => saved.record.id = id

def at? (s : Session Digest) (slot : Nat) : Option (Saved Digest) := s.records[slot]?.join

def unsent (o : Option (Saved Digest)) : Bool := o.any fun saved => saved.durable && !saved.done

def busy (s : Session Digest) : Bool := s.pending.isSome || s.journalFailed || s.records.any unsent

def fresh (s : Session Digest) (command : Command) : Except Error Bool := do
  let (id, identity) ← command.identity sha256 s.agent
  match (s.slotOf id).bind s.at? with
  | some saved => if saved.record.identity ≠ identity then .error .conflict else .ok false
  | none => .ok true

def past (expires : Option Nat) (now : Time) : Bool := expires.any fun e => now.unixSeconds.any fun u => e ≤ u

/-- The slots of acknowledged records past their expiry, with when they were stored. -/
def droppable (s : Session Digest) (now : Time) : List (Nat × Nat) :=
  s.records.zipIdx.filterMap fun (o, i) =>
    (o.filter fun saved => saved.durable && saved.done && past saved.record.expiresUnix now).map
      fun saved => (i, saved.sequence)

/-- The first of the least, as `min_by_key` gives it. -/
def oldest : List (Nat × Nat) → Option (Nat × Nat)
  | [] => none
  | x :: rest => match oldest rest with
    | none => some x
    | some y => if y.2 < x.2 then some y else some x

def room (s : Session Digest) (now : Time) : Option (Nat × Bool) :=
  match s.records.findIdx? Option.isNone with
  | some slot => some (slot, false)
  | none => (oldest (s.droppable now)).map fun x => (x.1, true)

end Session

def deadline (expires : Option Nat) (now : Time) : Except Error (Option Nat) :=
  match expires with
  | none => .ok none
  | some expires => do
    let wall ← orError .clock now.unixSeconds
    let remaining ← orError .clockRange (checked ((expires - wall) * 1000))
    let at' ← orError .clockRange (checked (now.monotonicMs + remaining))
    .ok (some at')

namespace Session

def runnable (s : Session Digest) (command : Command) (now : Time) : Bool :=
  !s.busy && !s.stopping &&
    (match s.fresh sha256 command with | .ok new => new | .error _ => false) &&
    (s.room now).isSome &&
    match deadline command.expiresUnix now with
    | .ok d => d.all fun d => now.monotonicMs < d
    | .error _ => false

def take (s : Session Digest) (slot : Nat) (store : Store Digest) (now : Time) : Session Digest :=
  { s with
    storeSequence := store.sequence
    records := s.records.set slot (some ⟨store.record, false, false, store.sequence⟩)
    pending := some slot
    saving := some store
    ack := s.ack.reset now.monotonicMs }

def answer (s : Session Digest) (id : Id) (identity : Digest) (command : Command) (now : Time)
    (done : Final) (slot : Nat) (rewrite : Bool) : Except Error (Store Digest) := do
  let deadlineMs ← deadline command.expiresUnix now
  let expired := deadlineMs.any fun d => d ≤ now.monotonicMs
  let record := ⟨s.agent, id, identity, if expired then .expired else done, command.expiresUnix⟩
  let sequence ← orError .sequence (checked (s.storeSequence + 1))
  .ok ⟨sequence, slot, record, rewrite⟩

/-- `done` is the answer of a new command that is in time. -/
def receiveWith (s : Session Digest) (command : Command) (now : Time) (done : Final) :
    Except Error (Accepted Digest) × Session Digest :=
  if s.stopping then (.error .busy, s)
  else if s.journalFailed then (.error .journal, s)
  else match command.identity sha256 s.agent with
    | .error e => (.error e, s)
    | .ok (id, identity) =>
      match (s.slotOf id).bind fun slot => (s.at? slot).map fun saved => (slot, saved) with
      | some (slot, saved) =>
        if saved.record.identity ≠ identity then (.error .conflict, s)
        else match s.pending with
          | some pending => if pending = slot then (.ok .inProgress, s) else (.error .busy, s)
          | none =>
            if !saved.durable then (.error .journal, s)
            else (.ok .replay, { s with pending := some slot, ack := s.ack.reset now.monotonicMs })
      | none =>
        if s.busy then (.error .busy, s)
        else match s.room now with
          | none => (.error .full, s)
          | some (slot, rewrite) =>
            match s.answer id identity command now done slot rewrite with
            | .error e => (.error e, s)
            | .ok store => (.ok (.store store), s.take slot store now)

end Session

/-! ### An action's answer -/

/-- The wall clock, once known, stays known. -/
structure Time.NotAfter (t₁ t₂ : Time) : Prop where
  monotonic : t₁.monotonicMs ≤ t₂.monotonicMs
  wall : ∀ u₁, t₁.unixSeconds = some u₁ → ∃ u₂, t₂.unixSeconds = some u₂ ∧ u₁ ≤ u₂

/-- The command's time is not over, and its end can be counted. -/
def InTime (command : Command) (now : Time) (done : Final) : Prop :=
  ∀ e, command.expiresUnix = some e → ∃ u, now.unixSeconds = some u ∧
    now.monotonicMs + (e - u) * 1000 ≤ u64Max ∧ (u < e ∨ done = .expired)

variable {expires : Option Nat} {now t₁ t₂ : Time} {s : Session Digest}

namespace Session

theorem oldest_isSome {xs : List (Nat × Nat)} : (oldest xs).isSome = true ↔ xs ≠ [] := by
  cases xs with
  | nil => simp [oldest]
  | cons x rest =>
    simp only [oldest, ne_eq, reduceCtorEq, not_false_eq_true, iff_true]
    cases oldest rest with
    | none => rfl
    | some y => dsimp only; split <;> rfl

theorem past_iff : past expires now = true ↔ ∃ e u, expires = some e ∧ now.unixSeconds = some u ∧ e ≤ u := by
  unfold past
  cases expires <;> cases now.unixSeconds <;> simp

theorem past_later (ht : t₁.NotAfter t₂) (h : past expires t₁ = true) : past expires t₂ = true := by
  obtain ⟨e, u₁, he, hu₁, hle⟩ := past_iff.mp h
  obtain ⟨u₂, hu₂, hle'⟩ := ht.wall u₁ hu₁
  exact past_iff.mpr ⟨e, u₂, he, hu₂, hle.trans hle'⟩

omit [DecidableEq Digest] in
theorem room_later (ht : t₁.NotAfter t₂) (h : (s.room t₁).isSome = true) : (s.room t₂).isSome = true := by
  unfold room at h ⊢
  cases hfree : s.records.findIdx? Option.isNone with
  | some slot => rfl
  | none =>
    rw [hfree] at h
    simp only [Option.isSome_map, oldest_isSome, ne_eq, List.eq_nil_iff_forall_not_mem, not_forall,
      not_not] at h ⊢
    obtain ⟨x, hx⟩ := h
    refine ⟨x, ?_⟩
    simp only [droppable, List.mem_filterMap, Option.map_eq_some_iff, Option.filter_eq_some_iff,
      Bool.and_eq_true] at hx ⊢
    obtain ⟨entry, hentry, saved, ⟨ho, hd, hp⟩, heq⟩ := hx
    exact ⟨entry, hentry, saved, ⟨ho, hd, past_later ht hp⟩, heq⟩

end Session

theorem deadline_eq_ok {d : Option Nat} : deadline expires now = .ok d ↔
      (expires = none ∧ d = none) ∨ ∃ e u, expires = some e ∧ now.unixSeconds = some u ∧
        now.monotonicMs + (e - u) * 1000 ≤ u64Max ∧ d = some (now.monotonicMs + (e - u) * 1000) := by
  cases expires with
  | none => simp [deadline, eq_comm]
  | some e =>
    cases hu : now.unixSeconds with
    | none => simp [deadline, orError, hu, bind, Except.bind]
    | some u =>
      by_cases hr : now.monotonicMs + (e - u) * 1000 ≤ u64Max
      · have hx : (e - u) * 1000 ≤ u64Max := by omega
        simp [deadline, orError, checked, hu, hx, hr, bind, Except.bind, eq_comm]
      · by_cases hx : (e - u) * 1000 ≤ u64Max
        · simp [deadline, orError, checked, hu, hx, hr, bind, Except.bind]
        · simp [deadline, orError, checked, hu, hx, hr, bind, Except.bind]

namespace Session

omit [DecidableEq Digest] in
/-- What `answer` gives, and when. -/
theorem answer_eq_ok {id : Id} {identity : Digest} {command : Command}
    {done : Final} {slot : Nat} {rewrite : Bool} {store : Store Digest} :
    s.answer id identity command now done slot rewrite = .ok store ↔
      ∃ d, deadline command.expiresUnix now = .ok d ∧ s.storeSequence + 1 ≤ u64Max ∧
        store = ⟨s.storeSequence + 1, slot, ⟨s.agent, id, identity,
          if d.any (fun d => d ≤ now.monotonicMs) then .expired else done, command.expiresUnix⟩,
          rewrite⟩ := by
  unfold answer
  cases hd : deadline command.expiresUnix now with
  | error e => simp [bind, Except.bind]
  | ok d =>
    by_cases hq : s.storeSequence + 1 ≤ u64Max
    · simp only [orError, checked, hq, if_true, bind, Except.bind, true_and]
      constructor
      · intro h
        cases h
        exact ⟨d, rfl, rfl⟩
      · rintro ⟨d', hd', rfl⟩
        cases hd'
        rfl
    · simp [orError, checked, hq, bind, Except.bind]

theorem receiveWith_of_runnable {command : Command}
    (ht : t₁.NotAfter t₂) (hr : s.runnable sha256 command t₁ = true) (done : Final) :
    ∃ id identity slot rewrite, s.receiveWith sha256 command t₂ done =
      match s.answer id identity command t₂ done slot rewrite with
      | .error e => (.error e, s)
      | .ok store => (.ok (.store store), s.take slot store t₂) := by
  simp only [runnable, Bool.and_eq_true, Bool.not_eq_true'] at hr
  obtain ⟨⟨⟨⟨hbusy, hstop⟩, hfresh⟩, hroom⟩, -⟩ := hr
  obtain ⟨⟨slot, rewrite⟩, hslot⟩ := Option.isSome_iff_exists.mp (room_later ht hroom)
  cases hi : command.identity sha256 s.agent with
  | error e => simp [fresh, hi, bind, Except.bind] at hfresh
  | ok named =>
    obtain ⟨id, identity⟩ := named
    have hnew : (s.slotOf id).bind s.at? = none := by
      simp only [fresh, hi, bind, Except.bind] at hfresh
      cases hf : (s.slotOf id).bind s.at? with
      | none => rfl
      | some saved =>
        rw [hf] at hfresh
        by_cases hsame : saved.record.identity = identity
        · simp [hsame] at hfresh
        · simp [hsame] at hfresh
    have hnone : ((s.slotOf id).bind fun slot => (s.at? slot).map fun saved => (slot, saved)) = none := by
      cases hf : s.slotOf id with
      | none => rfl
      | some i => rw [hf] at hnew; simpa using hnew
    have hfailed : s.journalFailed = false := by
      simp only [busy, Bool.or_eq_false_iff] at hbusy
      exact hbusy.1.2
    exact ⟨id, identity, slot, rewrite, by simp [receiveWith, hstop, hfailed, hi, hnone, hbusy, hslot]⟩

end Session

/-- An action that may run at `t₁` is answered with what it did exactly if its command's time is not
over at `t₂`, when the answer is handed in, and the counters have room. -/
theorem answered_with_done_iff (s : Session Digest) (command : Command) (t₁ t₂ : Time) (done : Final)
    (ht : t₁.NotAfter t₂) (hr : s.runnable sha256 command t₁ = true) :
    (∃ store s', s.receiveWith sha256 command t₂ done = (.ok (.store store), s') ∧
        store.record.result = done) ↔
      s.storeSequence + 1 ≤ u64Max ∧ InTime command t₂ done := by
  obtain ⟨id, identity, slot, rewrite, heq⟩ := Session.receiveWith_of_runnable sha256 ht hr done
  rw [heq]
  constructor
  · rintro ⟨store, s', hstore, hresult⟩
    cases ha : s.answer id identity command t₂ done slot rewrite with
    | error e => rw [ha] at hstore; cases hstore
    | ok store' =>
      rw [ha] at hstore
      obtain ⟨rfl, rfl⟩ : store' = store ∧ _ = s' := by simpa using hstore
      obtain ⟨d, hd, hq, rfl⟩ := Session.answer_eq_ok.mp ha
      refine ⟨hq, fun e he => ?_⟩
      obtain ⟨hnone, -⟩ | ⟨e', u, he', hu, hmax, rfl⟩ := deadline_eq_ok.mp hd
      · rw [hnone] at he; cases he
      · obtain rfl : e' = e := by rw [he'] at he; simpa using he
        refine ⟨u, hu, hmax, ?_⟩
        by_cases hlt : u < e'
        · exact .inl hlt
        · have hzero : (e' - u) * 1000 = 0 := by omega
          simp only [hzero, Option.any_some, Nat.add_zero, le_refl, decide_true, if_true] at hresult
          exact .inr hresult.symm
  · rintro ⟨hq, hin⟩
    have hd : ∃ d, deadline command.expiresUnix t₂ = .ok d ∧
        (d.any (fun d => d ≤ t₂.monotonicMs) = true → done = .expired) := by
      cases he : command.expiresUnix with
      | none => exact ⟨none, rfl, by simp⟩
      | some e =>
        obtain ⟨u, hu, hmax, hdone⟩ := hin e he
        refine ⟨_, deadline_eq_ok.mpr (.inr ⟨e, u, rfl, hu, hmax, rfl⟩), fun hover => ?_⟩
        simp only [Option.any_some, decide_eq_true_eq] at hover
        exact hdone.resolve_left (by omega)
    obtain ⟨d, hd, hover⟩ := hd
    rw [Session.answer_eq_ok.mpr ⟨d, hd, hq, rfl⟩]
    refine ⟨_, _, rfl, ?_⟩
    split
    · rename_i h
      exact (hover h).symm
    · rfl

theorem oneByte_valid : idForm true [0x61] = true := by decide

def oneAgent : Id := ⟨[0x61], oneByte_valid⟩

def soonOver : Command where
  id := [0x63]
  agentId := [0x61]
  action := [0x78]
  program := []
  payload := []
  expiresUnix := some 1010

def clock (ms seconds : Nat) : Time := ⟨ms, some seconds⟩

theorem clock_notAfter {ms₁ ms₂ u₁ u₂ : Nat} (hm : ms₁ ≤ ms₂) (hu : u₁ ≤ u₂) :
    (clock ms₁ u₁).NotAfter (clock ms₂ u₂) := by
  refine ⟨hm, fun u h => ⟨u₂, rfl, ?_⟩⟩
  cases h
  exact hu

theorem quick_action_answered :
    ∃ store s', (Session.empty oneAgent 0).receiveWith id soonOver (clock 5000 1005) .completed =
      (.ok (.store store), s') ∧ store.record.result = .completed := by
  refine (answered_with_done_iff id (Session.empty oneAgent 0) soonOver (clock 0 1000) (clock 5000 1005)
    .completed (clock_notAfter (by decide) (by decide)) (by decide)).mpr ⟨by decide, ?_⟩
  intro e he
  cases he
  exact ⟨1005, rfl, by decide, .inl (by decide)⟩

/-- An action begun at second 1000 that ends at second 1020: its command is recorded as expired, and
what the action did is lost. -/
theorem slow_action_recorded_expired : (clock 0 1000).NotAfter (clock 20000 1020) ∧
      (Session.empty oneAgent 0).runnable id soonOver (clock 0 1000) = true ∧
      ∃ store s', (Session.empty oneAgent 0).receiveWith id soonOver (clock 20000 1020) .completed =
        (.ok (.store store), s') ∧ store.record.result = .expired :=
  ⟨clock_notAfter (by decide) (by decide), by decide, _, _, rfl, by decide⟩

end MindCore.Effector
