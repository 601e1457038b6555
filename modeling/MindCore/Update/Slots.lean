import MindCore.Update.Verify

/-!
# Slots A and B and the two boot records

The choice the bootloader makes (`slots.rs`, `load_slots`) and what the updater writes in the running
slot (`plan.rs`, `Updater`). A record file is seen as what `Record::parse` makes of it: a record, or
nothing for a file that is missing, torn or damaged. A slot that verifies is seen as its signed
manifest and the channel kept there; one that does not is nothing.
-/

namespace MindCore.Update

inductive Slot where
  | A
  | B
  deriving DecidableEq, Repr

def other : Slot → Slot
  | .A => .B
  | .B => .A

def sequenceLast : Nat := 2 ^ 64 - 1 - 2

structure Record where
  sequence : Nat
  slot : Slot
  fallback : Option Slot
  tries : Nat
  confirmed : Bool
  floor : Nat
  deriving DecidableEq, Repr

abbrev Records := Fin 2 → Option Record

abbrev Placed := Fin 2 × Record

structure Plan where
  chosen : Option (Fin 2)
  order : Option Slot × Option Slot
  trial : Bool
  write : Option Placed
  floor : Nat
  deriving DecidableEq, Repr

def Plan.follow (chosen : Fin 2) (record : Record) : Plan :=
  let fallback := if record.fallback ≠ some record.slot then record.fallback else none
  if record.confirmed then
    { chosen := some chosen, order := (some record.slot, fallback), trial := false, write := none,
      floor := record.floor }
  else if 0 < record.tries then
    -- one try fewer on the disk before the slot runs
    { chosen := some chosen, order := (some record.slot, fallback), trial := true,
      write := some (1 - chosen, { record with sequence := record.sequence + 1, tries := record.tries - 1 }),
      floor := record.floor }
  else if fallback ≠ none then
    { chosen := some chosen, order := (fallback, none), trial := false, write := none, floor := record.floor }
  else
    { chosen := some chosen, order := (some record.slot, none), trial := false, write := none,
      floor := record.floor }

def plan (records : Records) : Plan :=
  let records : Records := fun k => (records k).filter fun r => r.sequence ≤ sequenceLast
  match records 0, records 1 with
  | some a, some b => if b.sequence > a.sequence then .follow 1 b else .follow 0 a
  | some a, none => .follow 0 a
  | none, some b => .follow 1 b
  | none, none =>
    { chosen := none, order := (some .A, some .B), trial := false, write := none, floor := 0 }

/-- After a trial slot failed to load: the record that leaves it no tries. -/
def spent (written : Placed) : Placed :=
  (1 - written.1, { written.2 with sequence := written.2.sequence + 1, tries := 0 })

def newest (records : Records) : Option Placed :=
  match records 0, records 1 with
  | some a, some b => some (if b.sequence > a.sequence then (1, b) else (0, a))
  | some a, none => some (0, a)
  | none, some b => some (1, b)
  | none, none => none

def floor (records : Records) : Nat :=
  match newest records with
  | some (_, r) => r.floor
  | none => 0

def next (records : Records) (record : Record) : Option Placed :=
  let (file, sequence) := match newest records with
    | some (k, r) => (1 - k, r.sequence + 1)
    | none => (0, 1)
  if sequence ≤ sequenceLast - 2 then
    some (file, { record with sequence := sequence, floor := max (floor records) record.floor })
  else none

def confirm (records : Records) (running : Slot) : Option Placed :=
  match newest records with
  | none => none
  | some (_, current) =>
    if current.slot ≠ running ∨ current.confirmed then none
    else next records
      { slot := running, fallback := current.fallback, tries := 0, confirmed := true, sequence := 0,
        floor := 0 }

def mayStage (records : Records) (running : Slot) (trial : Bool) : Bool :=
  !trial || match newest records with
    | some (_, r) => r.slot == running && r.confirmed
    | none => false

def trialOfOther (records : Records) (running : Slot) (tries : Nat) : Option Placed :=
  next records
    { slot := other running, fallback := some running, tries := tries, confirmed := false,
      sequence := 0, floor := 0 }

def raise (records : Records) (running : Slot) (minimum version : Nat) : Option Placed :=
  match newest records with
  | none => none
  | some (_, current) =>
    if minimum > floor records ∧ (current.slot = running ∧ current.confirmed) ∧ version ≥ minimum then
      next records { current with floor := minimum }
    else none

/-! ### The disk -/

structure Channel where
  version : Nat
  minimum : Nat
  deriving DecidableEq, Repr

/-- A slot that verifies: its signed manifest and the channel kept with it. -/
structure Content where
  manifest : Bytes
  channel : Option Channel
  deriving DecidableEq, Repr

def Content.version (c : Content) : Nat := Update.version c.manifest

def Content.manifestVersion (c : Content) : Nat := Update.manifestVersion c.manifest

structure Running where
  slot : Slot
  trial : Bool
  version : Nat
  minimum : Nat
  deriving DecidableEq, Repr

structure Machine where
  records : Records
  slots : Slot → Option Content
  running : Option Running

/-- How a write of a record ended: on the disk and said so, on the disk though it reported an error,
torn, or not made. A power loss during it leaves one of these and no report. -/
inductive Written where
  | whole
  | unsaid
  | torn
  | lost
  deriving DecidableEq, Repr

def Written.ok (w : Written) : Bool := w == .whole

def put (records : Records) (w : Written) (x : Placed) : Records :=
  match w with
  | .whole | .unsaid =>
    Function.update records x.1 (if x.2.sequence ≤ sequenceLast then some x.2 else none)
  | .torn => Function.update records x.1 none
  | .lost => records

/-! ### The bootloader -/

/-- The writes of one boot: the try's and the spent record's, and whether the power is lost there. -/
structure Faults where
  trying : Written
  tryCut : Bool
  spending : Written
  spendCut : Bool
  deriving DecidableEq, Repr

inductive Outcome where
  | loaded (slot : Slot) (trial : Bool)
  | noSlot
  | cut
  deriving DecidableEq, Repr

/-- `at_or_above`, then the slot's own loader or `load_set`. -/
def loadSet (slots : Slot → Option Content) (slot : Slot) (floor : Nat) : Option Content :=
  (slots slot).filter fun c => floor ≤ c.version

/-- The updater as it starts in the slot: its version and minimum are its channel's. -/
def started (slot : Slot) (trial : Bool) (c : Content) : Running :=
  match c.channel with
  | some channel => { slot, trial, version := channel.version, minimum := channel.minimum }
  | none => { slot, trial, version := 0, minimum := 0 }

def loadOrder (floor : Nat) (written : Option Placed) (f : Faults) :
    Nat → List (Option Slot) → Machine → Machine × Outcome
  | _, [], m => (m, .noSlot)
  | k, none :: rest, m => loadOrder floor written f (k + 1) rest m
  | k, some slot :: rest, m =>
    let trial := k == 0 && written.isSome
    match loadSet m.slots slot floor with
    | some c => ({ m with running := some (started slot trial c) }, .loaded slot trial)
    | none =>
      match trial, written with
      | true, some w =>
        -- a trial slot that does not verify has no tries left
        let m := { m with records := put m.records f.spending (spent w) }
        if f.spendCut then (m, .cut) else loadOrder floor written f (k + 1) rest m
      | _, _ => loadOrder floor written f (k + 1) rest m

def loadSlots (m : Machine) (f : Faults) : Machine × Outcome :=
  let m := { m with running := none }
  let plan := plan m.records
  match plan.write with
  | none => loadOrder plan.floor none f 0 [plan.order.1, plan.order.2] m
  | some w =>
    let m := { m with records := put m.records f.trying w }
    if f.tryCut then (m, .cut)
    else if f.trying.ok then loadOrder plan.floor (some w) f 0 [plan.order.1, plan.order.2] m
    else
      -- a try that cannot be counted could repeat for ever
      match plan.order with
      | (_, some fallback) => loadOrder plan.floor none f 0 [some fallback, none] m
      | (slot, none) => loadOrder plan.floor none f 0 [slot, none] m

/-! ### The updater -/

def triesMax : Nat := 9

/-- `raise_floor`; `readable` is whether the running slot's manifest could be read back. -/
def raiseFloor (readable : Bool) (w : Written) (u : Running) (m : Machine) : Machine :=
  let version := if readable then ((m.slots u.slot).map Content.manifestVersion).getD 0 else 0
  match raise m.records u.slot u.minimum version with
  | none => m
  | some x => { m with records := put m.records w x }

/-- The minimum of a channel that was read and is current, and the floor it raises. -/
def readChannel (minimum : Nat) (readable : Bool) (w : Written) (u : Running) (m : Machine) : Machine :=
  let u := { u with minimum := max u.minimum minimum }
  raiseFloor readable w u { m with running := some u }

def verifyOther (u : Running) (m : Machine) : Option Channel := (m.slots (other u.slot)).bind Content.channel

/-- `stage`: the other slot written with the files of the channel's release, up to any point. A
manifest not of the release format is refused before the slot is touched. -/
def stage (channel : Channel) (readable : Bool) (w : Written) (content : Option Content) (u : Running)
    (m : Machine) : Machine :=
  if mayStage m.records u.slot u.trial then
    let m := readChannel channel.minimum readable w u m
    if channel.version ≤ u.version then m
    else if content.any fun c => (Release.Manifest.parse c.manifest).isNone then m
    else { m with slots := Function.update m.slots (other u.slot) content }
  else m

def apply (tries : Nat) (expired : Bool) (w : Written) (u : Running) (m : Machine) : Machine :=
  if 1 ≤ tries ∧ tries ≤ triesMax ∧ mayStage m.records u.slot u.trial then
    match verifyOther u m with
    | none => m
    | some channel =>
      if channel.version ≤ u.version ∨ expired then m
      else match trialOfOther m.records u.slot tries with
        | none => m
        | some x => { m with records := put m.records w x }
  else m

def rollback (w : Written) (u : Running) (m : Machine) : Machine :=
  if mayStage m.records u.slot u.trial then
    match verifyOther u m with
    | none => m
    | some channel =>
      if channel.version < u.minimum then m
      else match trialOfOther m.records u.slot 1 with
        | none => m
        | some x => { m with records := put m.records w x }
  else m

/-- `Updater::confirm`, which the updater of a trial boot comes to. -/
def confirmTrial (w : Written) (readable : Bool) (raised : Written) (u : Running) (m : Machine) : Machine :=
  if u.trial then
    match confirm m.records u.slot with
    | none => m
    | some x =>
      let m := { m with records := put m.records w x }
      if w.ok then raiseFloor readable raised u m else m
  else m

/-! ### Runs -/

/-- A power loss needs no act of its own: the next boot starts from whatever the disk holds. -/
inductive Act where
  | boot (f : Faults)
  | check (minimum : Nat) (readable : Bool) (w : Written)
  | stage (channel : Channel) (readable : Bool) (w : Written) (content : Option Content)
  | apply (tries : Nat) (expired : Bool) (w : Written)
  | rollback (w : Written)
  | confirm (w : Written) (readable : Bool) (raised : Written)

def Machine.inSlot (m : Machine) (step : Running → Machine → Machine) : Machine :=
  match m.running with
  | none => m
  | some u => step u m

def act : Act → Machine → Machine
  | .boot f, m => (loadSlots m f).1
  | .check minimum readable w, m => m.inSlot (readChannel minimum readable w)
  | .stage channel readable w content, m => m.inSlot (stage channel readable w content)
  | .apply tries expired w, m => m.inSlot (apply tries expired w)
  | .rollback w, m => m.inSlot (rollback w)
  | .confirm w readable raised, m => m.inSlot (confirmTrial w readable raised)

def Low (m : Machine) : Prop := ∀ k r, m.records k = some r → r.sequence < sequenceLast

inductive Reaches (start : Machine) : Machine → Prop
  | start : Reaches start start
  | step {m : Machine} (a : Act) : Reaches start m → Low (act a m) → Reaches start (act a m)

/-- One confirmed record, whose slot verifies at or above its floor. -/
structure Fresh (m : Machine) : Prop where
  low : Low m
  off : m.running = none
  one : ∃ k r c, m.records k = some r ∧ m.records (1 - k) = none ∧ r.confirmed = true ∧
    m.slots r.slot = some c ∧ r.floor ≤ c.version

end MindCore.Update
