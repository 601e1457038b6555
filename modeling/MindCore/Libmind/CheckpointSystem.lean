import MindCore.Lib.Runs
import MindCore.Libmind.CheckpointCodec
import MindCore.Libmind.CheckpointMail
import MindCore.Libmind.DagBuild

/-!
# Two components that exchange messages

Each component works on its manifest, saves it under its own names and acts on what it read of
the other's; it may stop at any point and be restored from its last save. A component is seen from
outside as a sender and a receiver of `Mail`.
-/

namespace MindCore.Checkpoint

open List Proc

/-- Two components, the clients each has, and the other among them. -/
structure Config where
  name : Bool → Bytes
  names : Bool → Names
  clients : Bool → List Label
  distinct : name false ≠ name true
  named : ∀ i, Names.of (name i) = some (names i)
  few : ∀ i, (clients i).length ≤ clientsMax
  known : ∀ i, ∃ l ∈ clients i, l.bytes = name (!i)

theorem names_of {component : Bytes} {n : Names} (h : Names.of component = some n) :
    n = ⟨checkpointDir ++ component, checkpointDir ++ component ++ stateLeaf⟩ ∧
      ∀ b ∈ component, componentByte b := by
  rw [Names.of] at h
  split at h
  · rename_i hv
    exact ⟨(Option.some.inj h).symm, all_eq_true.mp hv.2.2⟩
  · exact nomatch h

theorem name_ne_leaf {a b : Bytes} (h : ∀ x ∈ a, componentByte x) : a ≠ b ++ stateLeaf := by
  rintro rfl
  have := h 0x2f (by simp [stateLeaf])
  revert this
  decide

structure Apart (n n' : Names) : Prop where
  manifests : n.manifest ≠ n'.manifest
  states : n.state ≠ n'.state
  left : n.manifest ≠ n'.state
  right : n.state ≠ n'.manifest
  own : n.manifest ≠ n.state

theorem Config.name_ne (c : Config) (i : Bool) : c.name i ≠ c.name !i := by
  cases i
  · exact c.distinct
  · exact c.distinct.symm

theorem Config.apart (c : Config) (i : Bool) : Apart (c.names i) (c.names !i) := by
  obtain ⟨hn, hb⟩ := names_of (c.named i)
  obtain ⟨hn', hb'⟩ := names_of (c.named !i)
  have hne := c.name_ne i
  rw [hn, hn']
  refine ⟨?_, ?_, ?_, ?_, ?_⟩ <;> simp only [append_assoc, ne_eq, append_cancel_left_eq]
  · exact hne
  · exact fun h => hne (append_cancel_right h)
  · exact name_ne_leaf hb
  · exact fun h => name_ne_leaf hb' h.symm
  · exact name_ne_leaf hb

theorem Config.label_known (c : Config) (i : Bool) :
    ∃ l, Label.new (c.name !i) = some l ∧ l ∈ c.clients i := by
  obtain ⟨l, hl, hb⟩ := c.known i
  exact ⟨l, hb ▸ l.new_bytes, hl⟩

/-- A store that keeps the blocks it is given, and the version and root of each name. -/
structure World where
  blocks : List Bytes
  names : Bytes → UInt64 × Option Cid

/-- A running instance: its manifest, the epoch its next save follows, the messages applied to the
state it holds, and the other's checkpoint as it last read it. -/
structure Live where
  manifest : Manifest
  from_ : UInt64
  log : List Message
  view : Option Manifest

/-- A checkpoint as it was saved, with the messages applied to the state it holds. -/
structure Save where
  manifest : Manifest
  log : List Message

/-- A component: its instance, if one runs, and its checkpoints, the newest first. -/
structure Party where
  live : Option Live
  saves : List Save

structure System where
  world : World
  parties : Bool → Party

def System.set (s : System) (i : Bool) (p : Party) : System :=
  { s with parties := fun j => if j = i then p else s.parties j }

def System.run (s : System) (i : Bool) (l : Live) : System := s.set i { s.parties i with live := some l }

theorem System.set_same (s : System) (i : Bool) (p : Party) : (s.set i p).parties i = p := if_pos rfl

theorem System.set_other (s : System) (i : Bool) (p : Party) :
    (s.set i p).parties (!i) = s.parties !i := if_neg (by cases i <;> decide)

def Party.savedLog (p : Party) : List Message := (p.saves.head?.map Save.log).getD []

variable {log : List Message} {o : Message}

section Faces

/-- A component as the other meets it: the outbox and the log of its instance, of its last save
when no instance that may save runs, and its saves. -/
structure Face where
  out : List Message
  sent : Nat
  log : List Message
  saves : List Save

def Save.owes (save : Save) : List Message × Nat := (save.manifest.outbox.val, save.manifest.sent.toNat)

def Face.saved (f : Face) : List Message × Nat := (f.saves.map Save.owes).headD ([], 0)

def Face.savedLog (f : Face) : List Message := (f.saves.map Save.log).headD []

def mail (a b : Face) : Mail Message := ⟨a.out, a.sent, a.saves.map Save.owes, b.log, b.saves.map Save.log⟩

/-- What a step may do to the face `a` of the component `me` whose peer shows `b`. -/
inductive Moves (me peer : Bytes) (b : Face) : Face → Face → Prop where
  | idle (a : Face) : Moves me peer b a a
  | send (a : Face) (o : Message) (h : a.sent < o.number) :
    Moves me peer b a { a with out := a.out ++ [o], sent := o.number }
  | clear (a : Face) (n : Nat) (h : n ≤ Mail.last Message.number b.savedLog) :
    Moves me peer b a { a with out := a.out.filter fun o => ¬(o.to_.bytes = peer ∧ o.number ≤ n) }
  | deliver (a : Face) (out : List Message) (hsub : out.Sublist a.out)
    (hmine : ∀ o ∈ a.out, o.to_.bytes = peer → o ∈ out) : Moves me peer b a { a with out := out }
  | receive (a : Face) (save : Save) (hsave : save ∈ b.saves) (l : List Message)
    (h : l <+: save.manifest.outbox.val.filter fun o =>
      o.to_.bytes = me ∧ Mail.last Message.number a.log < o.number) :
    Moves me peer b a { a with log := a.log ++ l }
  | save (a : Face) (m : Manifest) (h : Save.owes ⟨m, a.log⟩ = (a.out, a.sent)) :
    Moves me peer b a { a with saves := ⟨m, a.log⟩ :: a.saves }
  | crash (a : Face) : Moves me peer b a { a with out := a.saved.1, sent := a.saved.2, log := a.savedLog }

variable {me peer : Bytes} {a a' b : Face}

theorem Moves.sender (h : Moves me peer b a a') : Relation.ReflTransGen
    (Mail.Step Message.number fun o => o.to_.bytes = peer) (mail a b) (mail a' b) := by
  cases h with
  | idle => exact .refl
  | send o h => exact .single (.send (mail a b) o h)
  | clear n h => exact .single (.clear (mail a b) n h)
  | deliver out hsub hmine => exact .single (.deliver (mail a b) out hsub hmine)
  | receive save hsave l h => exact .refl
  | save m h =>
    have hstep : Mail.Step Message.number (fun o => o.to_.bytes = peer) (mail a b)
        { mail a b with saves := (a.out, a.sent) :: (mail a b).saves } := .saveSender (mail a b)
    rw [← h] at hstep
    exact .single hstep
  | crash => exact .single (.crashSender (mail a b))

theorem Moves.receiver (h : Moves me peer b a a') : Relation.ReflTransGen
    (Mail.Step Message.number fun o => o.to_.bytes = me) (mail b a) (mail b a') := by
  cases h with
  | idle | send | clear | deliver => exact .refl
  | receive save hsave l h =>
    exact .single (.receive (mail b a) save.owes (mem_map_of_mem hsave) l h)
  | save m h => exact .single (.saveReceiver (mail b a))
  | crash => exact .single (.crashReceiver (mail b a))

def Party.lastFace (p : Party) : Face :=
  ⟨((p.saves.map Save.owes).headD ([], 0)).1, ((p.saves.map Save.owes).headD ([], 0)).2,
    (p.saves.map Save.log).headD [], p.saves⟩

def Live.face (l : Live) (saves : List Save) : Face :=
  ⟨l.manifest.outbox.val, l.manifest.sent.toNat, l.log, saves⟩

/-- A component at a version of its names: an instance of another epoch can save no more. -/
def Party.face (p : Party) (version : UInt64) : Face :=
  match p.live with
  | some l => if l.from_ = version then l.face p.saves else p.lastFace
  | none => p.lastFace

namespace Party

theorem savedLog_eq (p : Party) : p.savedLog = (p.saves.map Save.log).headD [] := by
  cases h : p.saves <;> simp [savedLog, h]

theorem face_saves (p : Party) (version : UInt64) : (p.face version).saves = p.saves := by
  rw [face]
  split
  · split <;> rfl
  · rfl

variable {l : Live} {p : Party} {version : UInt64}

theorem face_current (hl : p.live = some l) (h : l.from_ = version) : p.face version = l.face p.saves := by
  rw [face, hl]
  exact if_pos h

theorem face_fenced (hl : p.live = some l) (h : l.from_ ≠ version) : p.face version = p.lastFace := by
  rw [face, hl]
  exact if_neg h

theorem lastFace_moves (p : Party) (version : UInt64) (me peer : Bytes) (b : Face) :
    Moves me peer b (p.face version) p.lastFace := by
  have h : Moves me peer b (p.face version) _ := .crash (p.face version)
  simp only [Face.saved, Face.savedLog, face_saves] at h
  exact h

end Party

def World.version (w : World) (c : Config) (i : Bool) : UInt64 := (w.names (c.names i).manifest).1

def System.face (s : System) (c : Config) (i : Bool) : Face := (s.parties i).face (s.world.version c i)

variable {c : Config}

theorem System.face_set_same (s : System) (i : Bool) (p : Party) :
    (s.set i p).face c i = p.face (s.world.version c i) := by
  rw [System.face, System.set_same]
  rfl

theorem System.face_set_other (s : System) (i : Bool) (p : Party) :
    (s.set i p).face c (!i) = (s.parties !i).face (s.world.version c !i) := by
  rw [System.face, System.set_other]
  rfl

def Party.Showed (p : Party) (o : Message) : Prop := ∃ save ∈ p.saves, o ∈ save.manifest.outbox.val

section Shown
variable {c : Config} {s : System} {i : Bool}

theorem mail_logs : (mail (s.face c i) (s.face c !i)).logs = (s.parties !i).saves.map Save.log :=
  congrArg (List.map Save.log) (Party.face_saves _ _)

theorem mail_saves : (mail (s.face c i) (s.face c !i)).saves = (s.parties i).saves.map Save.owes :=
  congrArg (List.map Save.owes) (Party.face_saves _ _)

theorem showed_iff : o ∈ (mail (s.face c i) (s.face c !i)).shown ↔ (s.parties i).Showed o := by
  rw [Mail.shown, mail_saves, mem_flatMap]
  constructor
  · rintro ⟨owes, howes, ho⟩
    obtain ⟨save, hsave, rfl⟩ := mem_map.mp howes
    exact ⟨save, hsave, ho⟩
  · rintro ⟨save, hsave, ho⟩
    exact ⟨save.owes, mem_map_of_mem hsave, ho⟩

end Shown

/-- A manifest and the messages applied to the state it goes with: the table is of the
component's clients, and shows the last message of the other that was applied. -/
structure Tallies (c : Config) (i : Bool) (m : Manifest) (log : List Message) : Prop where
  tabled : m.Tabled (c.clients i)
  last : m.op (c.name !i) = Mail.last Message.number log

variable {i : Bool}

theorem Tallies.congr {m m' : Manifest} (h : Tallies c i m log)
    (hc : m'.clients = m.clients) : Tallies c i m' log := by
  refine ⟨⟨?_, ?_⟩, ?_⟩
  · rw [hc]
    exact h.tabled.nodup
  · rw [hc]
    exact h.tabled.known
  · rw [Manifest.op, hc]
    exact h.last

end Faces

section System
variable [Sha256]

instance : Store World where
  put data := do
    modify fun w => { w with blocks := w.blocks ++ [data] }
    return Cid.of .raw data
  get cid len := do
    let w ← get
    let data ← orError (w.blocks.find? fun b => cid.Matches b) .store
    ensure (data.length ≤ len) .store
    return data
  snapshot names := do
    let w ← get
    return (w.names names.1, w.names names.2)
  commit names expected roots := do
    let w ← get
    ensure ((w.names names.1).1 = expected ∧ (w.names names.2).1 = expected) .fenced
    -- a version is a `u64`, and the last one has none after it
    ensure (expected.toNat + 1 < 2 ^ 64) .store
    set { w with names := fun n =>
      if n = names.1 then (expected + 1, some roots.1)
      else if n = names.2 then (expected + 1, some roots.2) else w.names n }
    return expected + 1

inductive Act where
  | restore
  | crash
  | read
  | receive
  | acknowledge
  | send
  | deliver
  | record
  | work
  | save
  | put
deriving DecidableEq

/-- A step of component `i`. It is restored or crashes; it reads the other's checkpoint, and takes
what that owes it or clears what that shows applied; it sends, is told by someone else that a
message of theirs arrived, records a client's operation, works on what no message depends on; it
saves, and the answer comes, is lost or is an error. Any block may be stored beside. -/
inductive Step (c : Config) (i : Bool) : Act → System → System → Prop where
  | restoreFound (s : System) (contract : Bytes) (version schema : UInt16) (m : Manifest)
    (world : World)
    (hr : (restore (c.names i) contract version schema).run s.world = .ok (.found m) world) :
    Step c i .restore s
      ({ s with world := world }.run i ⟨m, m.epoch, (s.parties i).savedLog, none⟩)
  | restoreFresh (s : System) (contract : Label) (version schema : UInt16) (epoch : UInt64)
    (state : Cid) (world : World)
    (hr : (restore (c.names i) contract.bytes version schema).run s.world = .ok (.fresh epoch) world) :
    Step c i .restore s
      ({ s with world := world }.run i ⟨.new contract version schema state, epoch, [], none⟩)
  | crash (s : System) : Step c i .crash s (s.set i { s.parties i with live := none })
  | read (s : System) (l : Live) (hl : (s.parties i).live = some l) (contract : Bytes)
    (version schema : UInt16) (stateMax : Nat) (view : Manifest) (state : Bytes) (world : World)
    (hr : (read (c.names !i) contract version schema stateMax).run s.world =
      .ok (some (view, state)) world) :
    Step c i .read s ({ s with world := world }.run i { l with view := some view })
  | receive (s : System) (l : Live) (hl : (s.parties i).live = some l) (view : Manifest)
    (hv : l.view = some view) (answer : List Message → Message → Except Error UInt64)
    (m : Manifest) (log : List Message)
    (hr : ((Manifest.receive (c.name i) (c.name !i) view (logged answer)).run
      (l.manifest, l.log)).state = (m, log)) :
    Step c i .receive s (s.run i { l with manifest := m, log := log })
  | acknowledge (s : System) (l : Live) (hl : (s.parties i).live = some l) (view : Manifest)
    (hv : l.view = some view) :
    Step c i .acknowledge s
      (s.run i { l with manifest := (l.manifest.acknowledge (c.name i) (c.name !i) view).2 })
  | send (s : System) (l : Live) (hl : (s.parties i).live = some l) (to_ what : Bytes)
    (seq : UInt64) (m : Manifest) (hr : l.manifest.send to_ what = .ok (seq, m)) :
    Step c i .send s (s.run i { l with manifest := m })
  | deliver (s : System) (l : Live) (hl : (s.parties i).live = some l) (seq : UInt64)
    (hto : ∀ o ∈ l.manifest.outbox.val, o.seq = seq → o.to_.bytes ≠ c.name !i) :
    Step c i .deliver s (s.run i { l with manifest := (l.manifest.delivered seq).2 })
  | record (s : System) (l : Live) (hl : (s.parties i).live = some l) (who : Label)
    (hwho : who ∈ c.clients i) (hne : who.bytes ≠ c.name !i) (op result : UInt64) (m : Manifest)
    (hr : l.manifest.record who.bytes op result = .ok m) :
    Step c i .record s (s.run i { l with manifest := m })
  | work (s : System) (l : Live) (hl : (s.parties i).live = some l) (m : Manifest)
    (hc : m.clients = l.manifest.clients) (ho : m.outbox = l.manifest.outbox)
    (hs : m.sent = l.manifest.sent) : Step c i .work s (s.run i { l with manifest := m })
  | save (s : System) (l : Live) (hl : (s.parties i).live = some l) (version : UInt64)
    (world : World)
    (hr : (save (c.names i) l.manifest l.from_).run s.world = .ok version world) :
    Step c i .save s ({ s with world := world }.set i
      { live := some { l with manifest := l.manifest.stamped l.from_, from_ := version },
        saves := ⟨l.manifest.stamped l.from_, l.log⟩ :: (s.parties i).saves })
  | saveLost (s : System) (l : Live) (hl : (s.parties i).live = some l) (version : UInt64)
    (world : World)
    (hr : (save (c.names i) l.manifest l.from_).run s.world = .ok version world) :
    Step c i .save s ({ s with world := world }.set i
      { live := some { l with manifest := l.manifest.stamped l.from_ },
        saves := ⟨l.manifest.stamped l.from_, l.log⟩ :: (s.parties i).saves })
  | saveFails (s : System) (l : Live) (hl : (s.parties i).live = some l) (e : Error)
    (world : World)
    (hr : (save (c.names i) l.manifest l.from_).run s.world = .error e world) :
    Step c i .save s
      ({ s with world := world }.run i { l with manifest := l.manifest.stamped l.from_ })
  | put (s : System) (data : Bytes) :
    Step c i .put s { s with world := { s.world with blocks := s.world.blocks ++ [data] } }

def System.init : System := ⟨⟨[], fun _ => (0, none)⟩, fun _ => ⟨none, []⟩⟩

/-- The states of runs whose every step is one `ok` holds for in the state before it. -/
def Reaches (c : Config) (ok : Bool → Act → System → Prop) (s : System) : Prop :=
  Relation.ReflTransGen (fun s s' => ∃ i a, Step c i a s s' ∧ ok i a s) System.init s

/-- A component that sends has not given the last number there is. -/
def Numbers (i : Bool) (a : Act) (s : System) : Prop :=
  a = .send → ∀ l ∈ (s.parties i).live, l.manifest.sent.toNat + 1 < 2 ^ 64

def Distinct (blocks : List Bytes) : Prop := Set.InjOn Sha256.digest {b | b ∈ blocks}

/-- The messages of component `i` to the other are applied exactly once. -/
structure ExactlyOnce (c : Config) (s : System) (i : Bool) : Prop where
  /-- Each at most once and in the order of their numbers. -/
  inOrder : ∀ save ∈ (s.parties !i).saves, save.log.Pairwise fun a b => a.seq < b.seq
  /-- Only messages that were in a saved outbox, to this component. -/
  sent : ∀ save ∈ (s.parties !i).saves, ∀ o ∈ save.log, (s.parties i).Showed o ∧ o.to_.bytes = c.name !i
  /-- A later checkpoint goes on from an earlier one. -/
  along : (s.parties !i).saves.Pairwise fun new old => old.log <+: new.log
  /-- A checkpoint shows a message applied exactly when it was. -/
  shows : ∀ save ∈ (s.parties !i).saves, ∀ o, (s.parties i).Showed o → o.to_.bytes = c.name !i →
    (o ∈ save.log ↔ ∃ client ∈ save.manifest.clients.val, client.who.bytes = c.name i ∧ o.seq ≤ client.op)
  /-- A message is in every saved outbox made since it was given a number, until the receiver's
  last checkpoint has it applied. -/
  kept : ∀ save ∈ (s.parties i).saves, ∀ o, (s.parties i).Showed o → o.to_.bytes = c.name !i →
    o.seq ≤ save.manifest.sent →
    o ∈ save.manifest.outbox.val ∨ o ∈ (s.parties !i).savedLog
  /-- No number names two messages. -/
  unique : ∀ a b, (s.parties i).Showed a → (s.parties i).Showed b → a.seq = b.seq → a = b

variable {c : Config} {epoch seq : UInt64} {l' : Live} {a : Act}

section Requests

theorem snapshot_run (names : Bytes × Bytes) (w : World) :
    (Store.snapshot names).run w = .ok (w.names names.1, w.names names.2) w := rfl

variable {w w' : World} {from_ : UInt64} {m : Manifest} {names : Names} {contract : Bytes}
    {schema : UInt16}

variable {cid : Cid} {data : Bytes} {len : Nat}

theorem get_ok {t : World}
    (h : (Store.get cid len).run w = .ok data t) : t = w ∧ data ∈ w.blocks ∧ cid.Matches data := by
  obtain ⟨w', t₁, hget, hrest⟩ := bind_eq_ok.mp h
  cases hget
  cases hf : w.blocks.find? fun b => cid.Matches b with
  | none =>
    rw [hf] at hrest
    exact nomatch hrest
  | some b =>
    rw [hf, Proc.orError_some, pure_bind] at hrest
    obtain ⟨_, hpure⟩ := ensure_bind_ok.mp hrest
    cases hpure
    exact ⟨rfl, mem_of_find?_eq_some hf, by simpa using find?_some hf⟩

section Commit
variable {names : Bytes × Bytes} {cids : Cid × Cid}

theorem commit_ok (hr : (Store.commit names from_ cids).run w = .ok version w') :
    ((w.names names.1).1 = from_ ∧ (w.names names.2).1 = from_) ∧ version = from_ + 1 ∧
      from_.toNat + 1 < 2 ^ 64 ∧ w' = { w with names := fun n =>
        if n = names.1 then (from_ + 1, some cids.1)
        else if n = names.2 then (from_ + 1, some cids.2) else w.names n } := by
  obtain ⟨w₁, t₁, hget, h₁⟩ := bind_eq_ok.mp hr
  obtain ⟨rfl, rfl⟩ := pure_run_ok hget
  obtain ⟨hwas, h₂⟩ := ensure_bind_ok.mp h₁
  obtain ⟨hlt, h₃⟩ := ensure_bind_ok.mp h₂
  obtain ⟨rfl, rfl⟩ := pure_ok.mp h₃
  exact ⟨hwas, rfl, hlt, rfl⟩

theorem commit_error {e : Error} (hr : (Store.commit names from_ cids).run w = .error e w') : w' = w := by
  change (ensure _ Error.fenced >>= fun _ => ensure _ Error.store >>= fun _ => _ : Proc Error World
    UInt64).run w = _ at hr
  by_cases hfence : (w.names names.1).1 = from_ ∧ (w.names names.2).1 = from_
  · rw [ensure_pos hfence, pure_bind] at hr
    by_cases hnext : from_.toNat + 1 < 2 ^ 64
    · rw [ensure_pos hnext, pure_bind] at hr
      exact nomatch hr
    · rw [ensure_neg hnext] at hr
      injection hr with _ h₂
      exact h₂.symm
  · rw [ensure_neg hfence] at hr
    injection hr with _ h₂
    exact h₂.symm

end Commit

structure Landed (names : Names) (m : Manifest) (from_ version : UInt64) (w w' : World) : Prop where
  was : (w.names names.manifest).1 = from_ ∧ (w.names names.state).1 = from_
  version : version = from_ + 1
  next : from_.toNat + 1 < 2 ^ 64
  blocks : w'.blocks = w.blocks ++ [(m.stamped from_).encode]
  names : w'.names = fun n =>
    if n = names.manifest then (from_ + 1, some (Cid.of .raw (m.stamped from_).encode))
    else if n = names.state then (from_ + 1, some m.state) else w.names n

theorem save_ok (h : (save names m from_).run w = .ok version w') : Landed names m from_ version w w' := by
  obtain ⟨hwas, rfl, hlt, rfl⟩ := commit_ok h
  exact ⟨hwas, rfl, hlt, rfl, rfl⟩

theorem save_lands (names : Names) (m : Manifest)
    (hwas : (w.names names.manifest).1 = from_ ∧ (w.names names.state).1 = from_)
    (hnext : from_.toNat + 1 < 2 ^ 64) :
    ∃ w', (save names m from_).run w = .ok (from_ + 1) w' := by
  change ∃ w', (ensure _ Error.fenced >>= fun _ => ensure _ Error.store >>= fun _ => _ : Proc Error
    World UInt64).run { w with blocks := _ } = _
  rw [ensure_pos hwas, pure_bind, ensure_pos hnext, pure_bind]
  exact ⟨_, rfl⟩

theorem save_error {e : Error} (h : (save names m from_).run w = .error e w') :
    w' = { w with blocks := w.blocks ++ [(m.stamped from_).encode] } := by
  exact commit_error h

/-- What a restore found: the names agree, and the manifest is the one their block holds. -/
structure Found (names : Names) (w : World) (m : Manifest) : Prop where
  found : ∃ root state data m₀, w.names names.manifest = (m.epoch, some root) ∧
    w.names names.state = (m.epoch, some state) ∧ data ∈ w.blocks ∧ root.Matches data ∧
    Manifest.decode data = .ok m₀ ∧ m = { m₀ with epoch := m.epoch }

def Restored.Tells (names : Names) (w : World) : Restored → Prop
  | .fresh epoch => w.names names.manifest = (epoch, none)
  | .found m => Found names w m

variable {version : UInt16}

theorem restore_ok {r : Restored} (h : (restore names contract version schema).run w = .ok r w') :
    w' = w ∧ r.Tells names w := by
  rw [restore, bind_ok (snapshot_run _ w)] at h
  rcases hm : w.names names.manifest with ⟨mv, manifest⟩
  rcases hs : w.names names.state with ⟨sv, state⟩
  simp only [hm, hs] at h
  rcases manifest with _ | root <;> rcases state with _ | state
  · obtain ⟨_, t, hens, hpure⟩ := bind_eq_ok.mp h
    obtain ⟨_, rfl⟩ := ensure_run_ok hens
    obtain ⟨rfl, rfl⟩ := pure_run_ok hpure
    exact ⟨rfl, hm⟩
  · cases h
  · cases h
  · obtain ⟨_, t, hens, h₁⟩ := bind_eq_ok.mp h
    obtain ⟨rfl, rfl⟩ := ensure_run_ok hens
    obtain ⟨data, t₁, hget, h₂⟩ := bind_eq_ok.mp h₁
    obtain ⟨rfl, hdata, hmatch⟩ := get_ok hget
    split at h₂
    · obtain ⟨_, t₂, _, hthrow⟩ := bind_eq_ok.mp h₂
      cases hthrow
    · obtain ⟨m₀, t₂, hdec, h₃⟩ := bind_eq_ok.mp h₂
      obtain ⟨hdec', rfl⟩ := ofExcept_run_ok hdec
      obtain ⟨_, h₄⟩ := ensure_bind_ok.mp h₃
      obtain ⟨_, h₅⟩ := ensure_bind_ok.mp h₄
      obtain ⟨_, hpure⟩ := ensure_bind_ok.mp h₅
      obtain ⟨rfl, rfl⟩ := pure_run_ok hpure
      exact ⟨rfl, root, state, data, m₀, hm, hs, hdata, hmatch, hdec', rfl⟩

theorem read_ok {stateMax : Nat} {state : Bytes}
    (h : (read names contract version schema stateMax).run w = .ok (some (m, state)) w') :
    w' = w ∧ Found names w m := by
  obtain ⟨r, t, hr, h₁⟩ := bind_eq_ok.mp h
  obtain ⟨rfl, hfound⟩ := restore_ok hr
  cases r with
  | fresh epoch => exact nomatch h₁
  | found m' =>
    obtain ⟨st, t₁, hget, hpure⟩ := bind_eq_ok.mp h₁
    obtain ⟨rfl, _, _⟩ := get_ok hget
    obtain ⟨heq, rfl⟩ := pure_run_ok hpure
    obtain ⟨rfl, rfl⟩ := Prod.mk.inj (Option.some.inj heq)
    exact ⟨rfl, hfound⟩

theorem get_run (hf : w.blocks.find? (fun b => cid.Matches b) = some data) (hlen : data.length ≤ len) :
    (Store.get cid len).run w = .ok data w := by
  change (orError (w.blocks.find? fun b => cid.Matches b) Error.store >>= fun data =>
    ensure (data.length ≤ len) Error.store >>= fun _ => pure data : Proc Error World Bytes).run w = _
  rw [hf, Proc.orError_some, pure_bind, Proc.ensure_pos hlen]
  rfl

theorem restore_fresh_run (hm : w.names names.manifest = (epoch, none))
    (hs : w.names names.state = (epoch, none)) :
    (restore names contract version schema).run w = .ok (.fresh epoch) w := by
  rw [restore, bind_ok (snapshot_run _ w)]
  simp only [hm, hs]
  rfl

theorem restore_found_run {root : Cid} (hm : w.names names.manifest = (m.epoch, some root))
    (hs : w.names names.state = (m.epoch, some m.state))
    (hget : (Store.get root max).run w = .ok m.encode w) (hw : m.WellFormed) :
    (restore names m.contract.bytes m.contractVersion m.schema).run w = .ok (.found m) w := by
  have hnot : ¬released.isPrefixOf m.encode := by
    simp [Manifest.encode, magic, released]
  rw [restore, bind_ok (snapshot_run _ w)]
  simp only [hm, hs]
  rw [ensure_pos trivial, pure_bind, bind_ok hget, if_neg hnot, Manifest.decode_encode m hw,
    ofExcept_ok, pure_bind, ensure_pos ⟨rfl, rfl⟩, pure_bind, ensure_pos rfl, pure_bind,
    ensure_pos ⟨rfl, .inl rfl⟩]
  rfl

end Requests

end System

end MindCore.Checkpoint
