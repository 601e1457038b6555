import MindCore.Linkproto.Slave

/-!
# What the files are asked

The files behind a `FileService` with a record of what they were asked. Replayed, it says what they
hold of the file last created and what was read of the one last opened; the requests keep the put and
the get in progress equal to that.
-/

namespace MindCore.Linkproto

open Proc

/-- What the files were asked: a create, a write and a commit with whether it succeeded, and an
open and a read that did. -/
inductive Entry where
  | create (name : Bytes) (size : UInt64) (ok : Bool)
  | write (offset : UInt64) (data : Bytes) (ok : Bool)
  | commit (digest : Digest) (whole : Bool) (ok : Bool)
  | opened (size : UInt64)
  | read (data : Bytes)

structure Recorder (F : Type) where
  inner : F
  log : List Entry

section Record
variable {F : Type} {α : Type}

def Recorder.told (entry : Except Code α → Option Entry) (log : List Entry) :
    Outcome Code F α → Outcome Code (Recorder F) α
  | .ok a f => .ok a ⟨f, (entry (.ok a)).toList ++ log⟩
  | .error e f => .error e ⟨f, (entry (.error e)).toList ++ log⟩

def Recorder.record (entry : Except Code α → Option Entry) (x : Proc Code F α) : Proc Code (Recorder F) α :=
  ⟨fun r => told entry r.log (x.run r.inner)⟩

def succeeded : Except Code α → Bool
  | .ok _ => true
  | .error _ => false

def Recorder.pass (x : Proc Code F α) : Proc Code (Recorder F) α := record (fun _ => none) x

open Recorder in
instance [Files F] : Files (Recorder F) where
  create name size := record (fun r => some (.create name size (succeeded r))) (Files.create name size)
  writeAt offset data := record (fun r => some (.write offset data (succeeded r))) (Files.writeAt offset data)
  commit digest whole :=
    record (fun r => some (.commit digest whole (succeeded r))) (Files.commit digest whole)
  openFile name := record (fun r => r.toOption.map .opened) (Files.openFile name)
  readAt offset len := record (fun r => r.toOption.map .read) (Files.readAt offset len)
  list cursor len := pass (Files.list cursor len)
  stat name := pass (Files.stat name)
  delete name := pass (Files.delete name)
  log cursor len := pass (Files.log cursor len)
  console input len := pass (Files.console input len)
  mkdir path := pass (Files.mkdir path)
  rename from_ to_ replace := pass (Files.rename from_ to_ replace)
  rmdir path recursive := pass (Files.rmdir path recursive)
  listDir path cursor len := pass (Files.listDir path cursor len)
  run path args := pass (Files.run path args)
  output run cursor len := pass (Files.output run cursor len)
  stop run := pass (Files.stop run)
  runs cursor len := pass (Files.runs cursor len)
  command line := pass (Files.command line)
  replace unit path := pass (Files.replace unit path)
  reboot := pass Files.reboot
  input words := pass (Files.input words)

theorem meets_record {x : Proc Code F α} {entry : Except Code α → Option Entry}
    {s : FileService (Recorder F)} {E : Stop Code → FileService (Recorder F) → Prop}
    (h : ∀ e f, E (.fail e) { s with files := ⟨f, (entry (.error e)).toList ++ s.files.log⟩ }) :
    ((onFiles (Recorder.record entry x)).run s).Meets
      (fun a t => ∃ f, t = { s with files := ⟨f, (entry (.ok a)).toList ++ s.files.log⟩ }) E := by
  cases hx : x.run s.files.inner with
  | ok a f =>
    have hr : (Recorder.record entry x).run s.files =
        .ok a ⟨f, (entry (.ok a)).toList ++ s.files.log⟩ := by
      change Recorder.told _ _ (x.run s.files.inner) = _
      rw [hx]
      rfl
    rw [onFiles_ok hr]
    exact ⟨f, rfl⟩
  | error e f =>
    have hr : (Recorder.record entry x).run s.files =
        .error e ⟨f, (entry (.error e)).toList ++ s.files.log⟩ := by
      change Recorder.told _ _ (x.run s.files.inner) = _
      rw [hx]
      rfl
    rw [onFiles_error hr]
    exact h e f

end Record

section Replay

/-- What the files hold of the file last created: its name and size, the bytes written, whether
each was written where the one before ended, and the commits, the newest first. -/
structure Progress where
  name : Bytes
  size : UInt64
  written : Bytes
  inOrder : Bool
  commits : List Bool

def Progress.write (p : Progress) (offset : UInt64) (data : Bytes) : Progress :=
  { p with
    written := p.written ++ data
    inOrder := p.inOrder && p.commits.isEmpty && offset == UInt64.ofNat p.written.length }

def replay : List Entry → Option Progress
  | [] => none
  | .create name size true :: _ => some ⟨name, size, [], true, []⟩
  | .write offset data true :: log => (replay log).map fun p => p.write offset data
  | .commit _ whole _ :: log => (replay log).map fun p => { p with commits := whole :: p.commits }
  | _ :: log => replay log

def replayGet : List Entry → Option (UInt64 × Bytes)
  | [] => none
  | .opened size :: _ => some (size, [])
  | .read data :: log => (replayGet log).map fun p => (p.1, p.2 ++ data)
  | _ :: log => replayGet log

end Replay

section Keeping
variable {F : Type}

/-- A commit of a whole file is made only when all of it was written. -/
def Whole (log : List Entry) : Prop := ∀ digest ok before, .commit digest true ok :: before <:+ log →
  ∃ p, replay before = some p ∧ p.inOrder = true ∧ p.commits = [] ∧ p.size = UInt64.ofNat p.written.length

structure Faithful (s : FileService (Recorder F)) : Prop where
  writing : ∀ w ∈ s.writing, replay s.files.log = some ⟨w.name, w.size, w.hashed, true, []⟩ ∧
    w.done = UInt64.ofNat w.hashed.length
  reading : ∀ g ∈ s.reading, replayGet s.files.log = some (g.size, g.hashed) ∧
    g.done = UInt64.ofNat g.hashed.length
  commits : Whole s.files.log

/-- What a request that fails leaves; one that traps may have read bytes that nothing hashed. -/
def Left (e : Stop Code) (t : FileService (Recorder F)) : Prop := Whole t.files.log ∧ (e ≠ .trap → Faithful t)

variable {t : FileService (Recorder F)}

theorem Faithful.left {e : Stop Code} (h : Faithful t) : Left e t := ⟨h.commits, fun _ => h⟩

structure Untouched (s t : FileService (Recorder F)) : Prop where
  writing : t.writing = s.writing
  reading : t.reading = s.reading
  log : t.files.log = s.files.log

theorem Untouched.refl (s : FileService (Recorder F)) : Untouched s s := ⟨rfl, rfl, rfl⟩

theorem Untouched.trans {r s : FileService (Recorder F)} (h : Untouched r s) (h' : Untouched s t) :
    Untouched r t :=
  ⟨h'.writing.trans h.writing, h'.reading.trans h.reading, h'.log.trans h.log⟩

theorem Faithful.untouched {s : FileService (Recorder F)} (h : Faithful s) (hu : Untouched s t) :
    Faithful t := by
  refine ⟨?_, ?_, ?_⟩
  · rw [hu.writing, hu.log]
    exact h.writing
  · rw [hu.reading, hu.log]
    exact h.reading
  · rw [hu.log]
    exact h.commits

abbrev Aside {α : Type} (x : Serving (Recorder F) α) : Prop := Within Untouched x

namespace Aside

variable {α β : Type}

theorem pure (a : α) : Aside (Pure.pure a : Serving (Recorder F) α) := fun s => .refl s

variable {x : Serving (Recorder F) α}

theorem bind {f : α → Serving (Recorder F) β} (hx : Aside x)
    (hf : ∀ a, Aside (f a)) : Aside (x >>= f) := Within.bind Untouched.trans hx hf

theorem still (h : Proc.Still x) : Aside x := .of_still .refl h

theorem orCode (o : Option α) (c : Code) : Aside (orCode o c : Serving (Recorder F) α) := still (.orError o _)

theorem ensure (p : Prop) [Decidable p] (e : Stop Code) :
    Aside (MindCore.ensure p e : Serving (Recorder F) PUnit) := still (.ensure p e)

theorem get : Aside (MonadState.get : Serving (Recorder F) _) := still .get

theorem pass (x : Proc Code F α) : Aside (onFiles (Recorder.pass x)) := by
  intro s
  refine meets_state (meets_mono (meets_record fun _ _ => ⟨rfl, rfl, rfl⟩) ?_
    fun _ _ h => h)
  rintro _ _ ⟨f, rfl⟩
  exact ⟨rfl, rfl, rfl⟩

theorem limit (n : Nat) : Aside (modify fun s => { s with limit := n } : Serving (Recorder F) PUnit) :=
  fun _ => ⟨rfl, rfl, rfl⟩

end Aside

section Others

theorem hello_aside (limit : Nat) (p : Bytes) : Aside (hello limit p : Serving (Recorder F) Bytes) :=
  .bind (.orCode _ _) fun _ => .bind (.limit _) fun _ => .bind (.ensure _ _) fun _ =>
    .bind .get fun _ => .bind (.ensure _ _) fun _ => .pure _

variable [Files F]

theorem stat_aside (limit : Nat) (p : Bytes) : Aside (stat limit p : Serving (Recorder F) Bytes) :=
  .bind (.orCode _ _) fun _ => .bind (.pass _) fun _ => .bind (.ensure _ _) fun _ =>
    .bind (.ensure _ _) fun _ => .pure _

omit [Files F] in
theorem onPath_aside (act : Bytes → Proc Code F PUnit) (p : Bytes) :
    Aside (onPath (fun path => Recorder.pass (act path)) p) :=
  .bind (.orCode _ _) fun _ => .bind (.pass _) fun _ => .pure _

theorem move_aside (p : Bytes) : Aside (move p : Serving (Recorder F) Bytes) :=
  .bind (.orCode _ _) fun _ => .bind (.orCode _ _) fun _ => .bind (.orCode _ _) fun _ =>
    .bind (.orCode _ _) fun _ => .bind (.ensure _ _) fun _ => .bind (.orCode _ _) fun _ =>
    .bind (.pass _) fun _ => .pure _

theorem rmdir_aside (p : Bytes) : Aside (rmdir p : Serving (Recorder F) Bytes) :=
  .bind (.orCode _ _) fun _ => .bind (.ensure _ _) fun _ => .bind (.orCode _ _) fun _ =>
    .bind (.pass _) fun _ => .pure _

omit [Files F] in
theorem page_aside (limit : Nat) (read : Nat → Proc Code F (Bytes × Option UInt32)) :
    Aside (page limit fun len => Recorder.pass (read len)) :=
  .bind (.ensure _ _) fun _ => .bind (.pass _) fun _ => .pure _

section
variable (limit : Nat) (p : Bytes)
include limit p

theorem listDir_aside : Aside (listDir limit p : Serving (Recorder F) Bytes) := by
  refine .bind (.orCode _ _) fun cursor => .bind ?_ fun path => page_aside limit _
  rw [dirOf]
  split
  · exact .pure _
  · exact .bind (.ensure _ _) fun _ => .orCode _ _

theorem log_aside : Aside (log limit p : Serving (Recorder F) Bytes) :=
  .bind (.orCode _ _) fun _ => .bind (.ensure _ _) fun _ => .bind (.pass _) fun _ => .pure _

theorem input_aside : Aside (input limit p : Serving (Recorder F) Bytes) :=
  .bind (.ensure _ _) fun _ => .bind (.ensure _ _) fun _ => .bind (.pass _) fun _ =>
    .bind (.ensure _ _) fun _ => .pure _

theorem run_aside : Aside (run limit p : Serving (Recorder F) Bytes) :=
  .bind (.orCode _ _) fun _ => .bind (.orCode _ _) fun _ => .bind (.orCode _ _) fun _ =>
    .bind (.ensure _ _) fun _ => .bind (.ensure _ _) fun _ => .bind (.pass _) fun _ =>
    .bind (.ensure _ _) fun _ => .bind (.ensure _ _) fun _ => .pure _

theorem output_aside : Aside (output limit p : Serving (Recorder F) Bytes) :=
  .bind (.orCode _ _) fun _ => .bind (.orCode _ _) fun _ => .bind (.ensure _ _) fun _ =>
    .bind (.pass _) fun _ => .bind (.ensure _ _) fun _ => .pure _

theorem command_aside : Aside (command limit p : Serving (Recorder F) Bytes) :=
  .bind (.orCode _ _) fun _ => .bind (.ensure _ _) fun _ => .bind (.pass _) fun _ =>
    .bind (.ensure _ _) fun _ => .pure _

end

theorem replace_aside (p : Bytes) : Aside (replace p : Serving (Recorder F) Bytes) := by
  refine .bind (.orCode _ _) fun _ => .bind (.orCode _ _) fun _ => .bind (.ensure _ _) fun _ =>
    .bind (.ensure _ _) fun _ => .bind ?_ fun _ => .bind (.ensure _ _) fun _ =>
    .bind (.pass _) fun _ => .pure _
  rw [sourceOf]
  split
  · exact .pure _
  · exact .orCode _ _

def Request.transfers : Request → Bool
  | .putOpen | .putData | .putClose | .getOpen | .getData | .getClose => true
  | _ => false

theorem serve_aside [Sha256] (limit : Nat) (p : Bytes) {r : Request} (hr : r.transfers = false) :
    Aside (r.serve limit p : Serving (Recorder F) Bytes) := by
  cases r with
  | hello => exact hello_aside limit p
  | poll => exact .pure _
  | reboot => exact .bind (.pass _) fun _ => .pure _
  | list => exact .bind (.orCode _ _) fun _ => page_aside limit _
  | stat => exact stat_aside limit p
  | delete => exact onPath_aside Files.delete p
  | mkdir => exact onPath_aside Files.mkdir p
  | move => exact move_aside p
  | rmdir => exact rmdir_aside p
  | listDir => exact listDir_aside limit p
  | console => exact .pass _
  | log => exact log_aside limit p
  | input => exact input_aside limit p
  | run => exact run_aside limit p
  | output => exact output_aside limit p
  | stop => exact .bind (.orCode _ _) fun _ => .bind (.pass _) fun _ => .pure _
  | runs => exact .bind (.orCode _ _) fun _ => page_aside limit _
  | command => exact command_aside limit p
  | replace => exact replace_aside p
  | putOpen | putData | putClose | getOpen | getData | getClose => cases hr

end Others

section Transfers
variable {s : FileService (Recorder F)} (hs : Faithful s) {e : Entry}

include hs

theorem Faithful.whole_entry
    (hc : ∀ digest ok, e = .commit digest true ok → ∃ p, replay s.files.log = some p ∧
      p.inOrder = true ∧ p.commits = [] ∧ p.size = UInt64.ofNat p.written.length) :
    Whole (e :: s.files.log) := by
  intro digest ok before hsuf
  rcases List.suffix_cons_iff.mp hsuf with heq | hsuf
  · obtain ⟨he, hb⟩ := List.cons.inj heq
    rw [hb]
    exact hc digest ok he.symm
  · exact hs.commits digest ok before hsuf

theorem Faithful.of_entry {f : F} {writing : Option Put} {reading : Option Get}
    (hw : ∀ w ∈ writing, replay (e :: s.files.log) = some ⟨w.name, w.size, w.hashed, true, []⟩ ∧
      w.done = UInt64.ofNat w.hashed.length)
    (hr : ∀ g ∈ reading, replayGet (e :: s.files.log) = some (g.size, g.hashed) ∧
      g.done = UInt64.ofNat g.hashed.length)
    (hc : ∀ digest ok, e = .commit digest true ok → ∃ p, replay s.files.log = some p ∧
      p.inOrder = true ∧ p.commits = [] ∧ p.size = UInt64.ofNat p.written.length) :
    Faithful { s with writing := writing, reading := reading, files := ⟨f, e :: s.files.log⟩ } :=
  ⟨hw, hr, hs.whole_entry hc⟩

variable [Files F]

theorem putOpen_meets (limit : Nat) (p : Bytes) : ((putOpen limit p).run s).Meets
    (fun answer t => Faithful t ∧ ∃ size w, u64At p 0 = some size ∧ t.writing = some w ∧
      w.name = p.drop 8 ∧ w.size = size ∧ answer = put64 w.done) (fun _ t => Faithful t) := by
  refine meets_bind (meets_orError hs) ?_
  rintro size _ ⟨hsize, rfl⟩
  refine meets_bind (meets_ensure fun _ => hs) ?_
  rintro _ _ ⟨_, rfl⟩
  refine meets_bind (meets_orError hs) ?_
  rintro name _ ⟨hname, rfl⟩
  have hraw := (pathName_length hname).1
  refine meets_bind meets_get ?_
  rintro _ _ ⟨rfl, rfl⟩
  split
  · rename_i w hw
    obtain ⟨hmem, hsame⟩ := Option.filter_eq_some_iff.mp hw
    simp only [decide_eq_true_eq] at hsame
    refine meets_bind (meets_ensure fun _ => hs) ?_
    rintro _ _ ⟨_, rfl⟩
    exact ⟨hs, size, w, hsize, hmem, hsame.2.trans hraw, hsame.1, rfl⟩
  · refine meets_bind meets_modify ?_
    rintro _ _ rfl
    refine meets_bind (meets_record fun e f => hs.of_entry nofun hs.reading nofun) ?_
    rintro _ _ ⟨f, rfl⟩
    refine meets_bind (meets_ensure fun _ => hs.of_entry nofun hs.reading nofun) ?_
    rintro _ _ ⟨_, rfl⟩
    refine meets_bind meets_modify ?_
    rintro _ _ rfl
    have hput : Faithful { s with
        writing := some ⟨name, size, 0, []⟩
        files := ⟨f, .create name size true :: s.files.log⟩ } := by
      refine hs.of_entry ?_ hs.reading nofun
      rintro w ⟨⟩
      exact ⟨rfl, rfl⟩
    refine meets_bind (meets_ensure fun _ => hput) ?_
    rintro _ _ ⟨_, rfl⟩
    exact ⟨hput, size, _, hsize, rfl, hraw, rfl, rfl⟩

theorem putData_meets (p : Bytes) : ((putData p).run s).Meets
    (fun _ t => Faithful t ∧ ∃ offset w, u64At p 0 = some offset ∧ s.writing = some w ∧
      offset = w.done ∧ t.writing = some { w with
        done := w.done + UInt64.ofNat (p.drop dataHead).length
        hashed := w.hashed ++ p.drop dataHead }) (fun _ t => Faithful t) := by
  refine meets_bind (meets_orError hs) ?_
  rintro offset _ ⟨hoffset, rfl⟩
  refine meets_bind (meets_ensure fun _ => hs) ?_
  rintro _ _ ⟨_, rfl⟩
  refine meets_bind meets_get ?_
  rintro _ _ ⟨rfl, rfl⟩
  refine meets_bind (meets_orError hs) ?_
  rintro w _ ⟨hw, rfl⟩
  refine meets_bind (meets_ensure fun _ => hs) ?_
  rintro _ _ ⟨hat, rfl⟩
  obtain ⟨hreplay, hdone⟩ := hs.writing w hw
  refine meets_bind (meets_record fun e f => hs.of_entry hs.writing hs.reading nofun) ?_
  rintro _ _ ⟨f, rfl⟩
  refine meets_bind meets_modify ?_
  rintro _ _ rfl
  refine ⟨?_, offset, w, hoffset, hw, hat.1, rfl⟩
  refine hs.of_entry ?_ hs.reading nofun
  rintro _ ⟨⟩
  refine ⟨?_, ?_⟩
  · change (replay s.files.log).map (fun p' => p'.write offset (p.drop dataHead)) = _
    rw [hreplay, Option.map_some, Progress.write, hat.1, hdone]
    simp
  · rw [hdone, List.length_append, UInt64.ofNat_add]

theorem putClose_meets [Sha256] (p : Bytes) : ((putClose p).run s).Meets
    (fun _ t => Faithful t ∧ ∃ digest w, digestOf p = some digest ∧ s.writing = some w ∧
      w.done = w.size ∧ Sha256.digest w.hashed = digest ∧
      t.files.log = .commit digest true true :: s.files.log) (fun _ t => Faithful t) := by
  refine meets_bind (meets_orError hs) ?_
  rintro digest _ ⟨hdigest, rfl⟩
  refine meets_bind meets_get ?_
  rintro _ _ ⟨rfl, rfl⟩
  refine meets_bind (meets_orError hs) ?_
  rintro w _ ⟨hw, rfl⟩
  obtain ⟨hreplay, hdone⟩ := hs.writing w hw
  refine meets_bind meets_modify ?_
  rintro _ _ rfl
  have hcommit : ∀ (f : F) (ok : Bool), Faithful { s with writing := none, files := ⟨f, .commit digest
      (decide (w.done = w.size ∧ Sha256.digest w.hashed = digest)) ok :: s.files.log⟩ } := by
    intro f ok
    refine hs.of_entry nofun hs.reading ?_
    intro d ok' heq
    have hwhole := decide_eq_true_eq.mp (Entry.commit.inj heq).2.1
    exact ⟨_, hreplay, rfl, rfl, hwhole.1.symm.trans hdone⟩
  refine meets_bind (meets_record fun e f => hcommit f false) ?_
  rintro _ _ ⟨f, rfl⟩
  refine meets_bind (meets_ensure fun _ => hcommit f true) ?_
  rintro _ _ ⟨hwhole, rfl⟩
  have hall := decide_eq_true_eq.mp hwhole
  refine ⟨hcommit f true, digest, w, hdigest, hw, hall.1, hall.2, ?_⟩
  change Entry.commit digest (decide _) true :: s.files.log = _
  rw [hwhole]

theorem getOpen_meets (limit : Nat) (p : Bytes) : ((getOpen limit p).run s).Meets
    (fun answer t => Faithful t ∧ ∃ size, t.reading = some ⟨size, 0, []⟩ ∧ answer = put64 size)
    (fun _ t => Faithful t) := by
  refine meets_bind (meets_orError hs) ?_
  rintro name _ ⟨_, rfl⟩
  refine meets_bind (meets_record fun e f => hs.untouched ⟨rfl, rfl, rfl⟩) ?_
  rintro size _ ⟨f, rfl⟩
  refine meets_bind meets_modify ?_
  rintro _ _ rfl
  have hget : Faithful { s with
      reading := some ⟨size, 0, []⟩, files := ⟨f, .opened size :: s.files.log⟩ } := by
    refine hs.of_entry hs.writing ?_ nofun
    rintro g ⟨⟩
    exact ⟨rfl, rfl⟩
  refine meets_bind (meets_ensure fun _ => hget) ?_
  rintro _ _ ⟨_, rfl⟩
  exact ⟨hget, size, rfl, rfl⟩

theorem getData_meets (limit : Nat) (p : Bytes) : ((getData limit p).run s).Meets
    (fun data t => Faithful t ∧ data.length ≤ limit ∧ ∃ offset g, u64At p 0 = some offset ∧
      s.reading = some g ∧ offset = g.done ∧ t.reading = some { g with
        done := g.done + UInt64.ofNat data.length, hashed := g.hashed ++ data })
    Left := by
  refine meets_bind (meets_orError hs.left) ?_
  rintro offset _ ⟨hoffset, rfl⟩
  refine meets_bind (meets_orError hs.left) ?_
  rintro want _ ⟨_, rfl⟩
  refine meets_bind meets_get ?_
  rintro _ _ ⟨rfl, rfl⟩
  refine meets_bind (meets_orError hs.left) ?_
  rintro g _ ⟨hg, rfl⟩
  refine meets_bind (meets_ensure fun _ => hs.left) ?_
  rintro _ _ ⟨hat, rfl⟩
  refine meets_bind (meets_ensure fun _ => hs.left) ?_
  rintro _ _ ⟨_, rfl⟩
  obtain ⟨hreplay, hdone⟩ := hs.reading g hg
  refine meets_bind (meets_record fun e f => Faithful.left (hs.untouched ⟨rfl, rfl, rfl⟩)) ?_
  rintro data _ ⟨f, rfl⟩
  refine meets_bind (meets_ensure fun _ => ⟨hs.whole_entry nofun, fun h => (h rfl).elim⟩) ?_
  rintro _ _ ⟨hfits, rfl⟩
  refine meets_bind meets_modify ?_
  rintro _ _ rfl
  refine ⟨?_, hfits, offset, g, hoffset, hg, hat.1, rfl⟩
  refine hs.of_entry hs.writing ?_ nofun
  rintro _ ⟨⟩
  refine ⟨?_, ?_⟩
  · rw [replayGet, hreplay]
    rfl
  · rw [hdone, List.length_append, UInt64.ofNat_add]

omit [Files F] in
theorem getClose_meets [Sha256] (limit : Nat) : ((getClose limit).run s).Meets
    (fun answer t => Faithful t ∧ t.files.log = s.files.log ∧ ∃ g, s.reading = some g ∧
      answer = (Sha256.digest g.hashed).val) (fun _ t => Faithful t) := by
  have hnone : Faithful { s with reading := none } := ⟨hs.writing, nofun, hs.commits⟩
  refine meets_bind meets_get ?_
  rintro _ _ ⟨rfl, rfl⟩
  refine meets_bind (meets_orError hs) ?_
  rintro g _ ⟨hg, rfl⟩
  refine meets_bind meets_modify ?_
  rintro _ _ rfl
  refine meets_bind (meets_ensure fun _ => hnone) ?_
  rintro _ _ ⟨_, rfl⟩
  exact ⟨hnone, rfl, g, hg, rfl⟩

theorem handle_meets [Sha256] (channel kind : UInt8) (p : Bytes) (room : Nat) :
    ((handle channel kind p room).run s).Meets (fun _ t => Faithful t) Left := by
  refine meets_bind meets_get ?_
  rintro _ _ ⟨rfl, rfl⟩
  cases hr : Request.of channel kind with
  | none => exact hs.left
  | some r =>
    have hkept : ∀ {x : Serving (Recorder F) Bytes} {Q : Bytes → FileService (Recorder F) → Prop},
        (x.run s).Meets (fun a t => Faithful t ∧ Q a t) (fun _ t => Faithful t) →
        (x.run s).Meets (fun _ t => Faithful t) Left :=
      fun h => meets_mono h (fun _ _ hq => hq.1) fun _ _ he => he.left
    by_cases ht : r.transfers = true
    · cases r with
      | putOpen => exact hkept (putOpen_meets hs _ p)
      | putData => exact hkept (putData_meets hs p)
      | putClose => exact hkept (putClose_meets hs p)
      | getOpen => exact hkept (getOpen_meets hs _ p)
      | getData => exact meets_mono (getData_meets hs _ p) (fun _ _ hq => hq.1) fun _ _ he => he
      | getClose => exact hkept (getClose_meets hs _)
      | _ => cases ht
    · have hstill := hs.untouched (serve_aside (min s.limit room) p (by simpa using ht) s)
      cases hx : (r.serve (min s.limit room) p).run s with
      | ok a t =>
        rw [hx] at hstill
        exact hstill
      | error e t =>
        rw [hx] at hstill
        exact Faithful.left hstill

end Transfers

end Keeping

end MindCore.Linkproto
