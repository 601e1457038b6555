import Mathlib.Data.List.Sort

/-!
# Select, reap and the turn of idle

The choice of the next task of a CPU (`select`, `ready`, `next_in`) over the list of the CPU's slots that
`spawn_internal`, `select` and `reap` keep, and the boot CPU's idle loop, which reaps. What other
system calls and interrupts do to a task is an event of its own: its state, its scheduling context, the
endpoints and the memory it has, a flush a CPU owes, the compositor's wish for a frame. Left out are
the contexts, the mailboxes and the counters, who pays for memory kept after its owner, and the wake
interrupts, which only decide when a CPU selects.
-/

namespace MindCore.Kernel.Sched

open Function
open List

inductive State where
  | ready
  | sleeping (until_ : Nat)
  | blockedSend (ep : Nat)
  | blockedRecv (ep : Nat)
  | blockedReply (server : Nat)
  | blockedIrq (irq : Nat)
  | blockedFlush
  | exited
  deriving DecidableEq, Repr

inductive Band where
  | system
  | application
  deriving DecidableEq, Repr

/-- What a task has: the endpoints that its capabilities, its send under way and its interrupt bindings
name, the regions of its heap and screen, and the regions its capabilities and mappings reach. -/
structure Goods where
  endpoints : List Nat
  owns : List Nat
  reaches : List Nat
  deriving DecidableEq, Repr

structure Task where
  pid : Nat
  state : State
  cpu : Nat
  band : Band
  budgetNs : Nat
  periodNs : Nat
  periodStart : Nat
  consumed : Nat
  goods : Goods
  deriving DecidableEq, Repr

/-- The task kept from running while its frame is copied, since when, and the compositor's slot. -/
structure Hold where
  slot : Nat
  pid : Nat
  since : Nat
  holder : Nat
  deriving DecidableEq, Repr

structure Wish where
  slot : Nat
  pid : Nat
  holder : Nat
  deriving DecidableEq, Repr

structure Scheduler where
  tasks : Nat → Option Task
  chunks : Nat
  current : Nat → Nat
  onCpu : Nat → List Nat
  /-- The last slot picked by a CPU in the system band and in the application band. -/
  cursor : Nat → Nat × Nat
  held : Option Hold
  wanted : Option Wish
  flush : Nat → Bool
  lastSwitch : Nat → Nat
  nextPid : Nat
  endpoints : Nat → Bool
  /-- Regions kept after their owner because a task still reaches them. -/
  orphans : List Nat

/-- `cpu::MAX` of the x86 kernel. -/
def cpuMax : Nat := 255

def chunk : Nat := 32

/-- The first number below `n` that meets `p`, or `n`: how slots and endpoint numbers are given. -/
def firstOf (p : Nat → Bool) (n : Nat) : Nat := ((List.range n).find? p).getD n

theorem firstOf_spec (p : Nat → Bool) (n : Nat) :
    firstOf p n < n ∧ p (firstOf p n) = true ∨ firstOf p n = n := by
  unfold firstOf
  cases hf : (List.range n).find? p with
  | none => exact .inr rfl
  | some i => exact .inl ⟨mem_range.mp (mem_of_find?_eq_some hf), find?_some hf⟩

theorem firstOf_free {α : Type} {f : Nat → Option α} {n : Nat} (hn : 0 < n) (hf : f n = none) :
    firstOf (fun i => i ≠ 0 && (f i).isNone) n ≠ 0 ∧ f (firstOf (fun i => i ≠ 0 && (f i).isNone) n) = none ∧
      firstOf (fun i => i ≠ 0 && (f i).isNone) n ≤ n := by
  rcases firstOf_spec (fun i => i ≠ 0 && (f i).isNone) n with ⟨hlt, hp⟩ | he
  · simp only [Bool.and_eq_true, decide_eq_true_eq, Option.isNone_iff_eq_none] at hp
    exact ⟨hp.1, hp.2, hlt.le⟩
  · rw [he]
    exact ⟨hn.ne', hf, le_refl n⟩

/-- The number of the next endpoint, in a table of `len` numbers. -/
def newEndpoint (endpoints : Nat → Bool) (len : Nat) : Nat := firstOf (fun e => e ≠ 0 && !endpoints e) len

theorem newEndpoint_le (endpoints : Nat → Bool) (len : Nat) : newEndpoint endpoints len ≤ len := by
  rcases firstOf_spec (fun e => e ≠ 0 && !endpoints e) len with ⟨hlt, -⟩ | he
  · exact hlt.le
  · exact he.le

/-- The first ready slot after `current`, else from the start up to `current`, or 0. -/
def nextIn (slots : List Nat) (current : Nat) (ready : Nat → Bool) : Nat :=
  let after := (slots.takeWhile (· ≤ current)).length
  ((slots.drop after ++ slots.take after).find? ready).getD 0

/-- The task leaves its CPU to others: it waits or has ended, or its budget is spent and its period not over.
A task that waits for a flush may go on by the select itself. -/
def Rests (now : Nat) (t : Task) : Prop :=
  t.state ≠ .ready ∧ t.state ≠ .blockedFlush ∨
    t.budgetNs ≠ 0 ∧ t.budgetNs ≤ t.consumed ∧ now < t.periodStart + t.periodNs

instance (now : Nat) (t : Task) : Decidable (Rests now t) := by
  unfold Rests
  infer_instance

namespace Scheduler

def hasBudget (t : Task) : Bool := t.budgetNs == 0 || t.consumed < t.budgetNs

/-- `ready`: idle takes part in the application band only. -/
def ready (s : Scheduler) (slot cpu : Nat) (band : Band) : Bool :=
  if slot = 0 then band == .application
  else match s.tasks slot with
    | none => false
    | some t => t.cpu == cpu && t.band == band && hasBudget t && t.state == .ready &&
        !(match s.held with
          | some h => h.slot == slot && h.pid == t.pid
          | none => false)

def mapTasks (s : Scheduler) (f : Nat → Task → Task) : Scheduler :=
  { s with tasks := fun i => (s.tasks i).map (f i) }

def releaseHeld (s : Scheduler) : Scheduler := { s with held := none }

/-! ### select -/

/-- A select reloads CR3: a flush this CPU owed is done, and with the last one its waiters go on. -/
def endFlush (cpu : Nat) (s : Scheduler) : Scheduler :=
  if s.flush cpu then
    let s := { s with flush := Function.update s.flush cpu false }
    if (List.range cpuMax).any s.flush then s
    else s.mapTasks fun _ t => if t.state = .blockedFlush then { t with state := .ready } else t
  else s

def waits (s : Scheduler) (w : Wish) : Bool :=
  match s.tasks w.slot with
  | some t => t.pid == w.pid && match t.state with
    | .sleeping _ | .blockedRecv _ => true
    | _ => false
  | none => false

/-- The task the compositor found drawing is held where its frame ends. -/
def holdWanted (cpu now : Nat) (s : Scheduler) : Scheduler :=
  match s.wanted with
  | none => s
  | some w =>
    if w.slot = s.current cpu ∧ s.waits w then
      { s with wanted := none, held := some ⟨w.slot, w.pid, now, w.holder⟩ }
    else s

def heldBy (s : Scheduler) (slot : Nat) : Bool :=
  match s.held with
  | some h => h.holder == slot
  | none => false

def runs (s : Scheduler) (slot : Nat) : Bool :=
  match s.tasks slot with
  | some t => t.state == .ready
  | none => false

/-- The compositor waits or ends only after its copy. -/
def endHold (cpu : Nat) (s : Scheduler) : Scheduler :=
  if s.current cpu ≠ 0 ∧ s.heldBy (s.current cpu) ∧ !s.runs (s.current cpu) then s.releaseHeld else s

def charge (cpu now : Nat) (s : Scheduler) : Scheduler :=
  let elapsed := now - s.lastSwitch cpu
  let s := { s with lastSwitch := Function.update s.lastSwitch cpu now }
  if s.current cpu = 0 then s
  else s.mapTasks fun i t => if i = s.current cpu then { t with consumed := t.consumed + elapsed } else t

def mine (cpu : Nat) (s : Scheduler) : List Nat :=
  (s.onCpu cpu).filter fun slot => slot < s.chunks * chunk && match s.tasks slot with
    | some t => t.cpu == cpu
    | none => false

def refill (cpu now : Nat) (s : Scheduler) : Scheduler :=
  s.mapTasks fun i t =>
    if i ∈ s.mine cpu ∧ t.budgetNs ≠ 0 ∧ t.periodStart + t.periodNs ≤ now then
      { t with periodStart := now - (now - t.periodStart) % t.periodNs, consumed := 0 }
    else t

def settle (cpu now : Nat) (s : Scheduler) : Scheduler :=
  refill cpu now (charge cpu now (endHold cpu (holdWanted cpu now (endFlush cpu s))))

/-- The pick: a system task, else an application, each band after its own cursor. -/
def pick (cpu : Nat) (s : Scheduler) : Nat :=
  match nextIn (s.mine cpu) (s.cursor cpu).1 (fun i => s.ready i cpu .system) with
  | 0 => nextIn (s.mine cpu) (s.cursor cpu).2 (fun i => s.ready i cpu .application)
  | next => next

def advance (cpu : Nat) (s : Scheduler) : Nat × Nat :=
  match nextIn (s.mine cpu) (s.cursor cpu).1 (fun i => s.ready i cpu .system) with
  | 0 => ((s.cursor cpu).1, s.pick cpu)
  | next => (next, (s.cursor cpu).2)

def select (cpu now : Nat) (s : Scheduler) : Scheduler :=
  let s := s.settle cpu now
  { s with
    onCpu := Function.update s.onCpu cpu (s.mine cpu)
    cursor := Function.update s.cursor cpu (s.advance cpu)
    current := Function.update s.current cpu (s.pick cpu) }

/-! ### spawn and reap -/

def freeSlot (s : Scheduler) : Nat :=
  firstOf (fun i => i ≠ 0 && (s.tasks i).isNone) (s.chunks * chunk)

/-- `spawn_internal`, on the CPU it chose for the task. -/
def spawn (cpu : Nat) (band : Band) (s : Scheduler) : Scheduler :=
  let slot := s.freeSlot
  let task : Task :=
    { pid := s.nextPid, state := .ready, cpu := cpu, band := band, budgetNs := 0, periodNs := 0,
      periodStart := 0, consumed := 0, goods := ⟨[], [], []⟩ }
  { s with
    tasks := Function.update s.tasks slot (some task)
    chunks := if slot = s.chunks * chunk then s.chunks + 1 else s.chunks
    onCpu := Function.update s.onCpu cpu
      (if slot ∈ s.onCpu cpu then s.onCpu cpu else (s.onCpu cpu).orderedInsert (· ≤ ·) slot)
    nextPid := s.nextPid + 1 }

def reapable (s : Scheduler) (slot : Nat) : Bool :=
  slot ≠ 0 && !((List.range cpuMax).any fun cpu => s.current cpu == slot) && match s.tasks slot with
    | some t => t.state == .exited
    | none => false

def shrink (tasks : Nat → Option Task) : Nat → Nat
  | 0 => 0
  | 1 => 1
  | n + 2 =>
    if (List.range chunk).all fun i => (tasks ((n + 1) * chunk + i)).isNone then shrink tasks (n + 1)
    else n + 2

def among (tasks : Nat → Option Task) (chunks : Nat) (p : Task → Bool) : Bool :=
  (List.range (chunks * chunk)).any fun i => (tasks i).any p

def referenced (tasks : Nat → Option Task) (chunks r : Nat) : Bool :=
  among tasks chunks fun t => t.goods.reaches.contains r

/-- The pass of the idle loop. `retire` keeps the regions of the ended tasks that others reach; what nobody
reaches any more is then freed, unless a CPU still owes a flush. -/
def reap (s : Scheduler) : Scheduler :=
  let tasks := fun i => if i < s.chunks * chunk ∧ s.reapable i then none else s.tasks i
  let chunks := shrink tasks s.chunks
  let released := (List.range (s.chunks * chunk)).flatMap fun i =>
    if s.reapable i then (s.tasks i).elim [] (·.goods.owns) else []
  let orphans := s.orphans ++ released.filter (referenced tasks chunks)
  { s with
    tasks := tasks
    chunks := chunks
    onCpu := fun cpu => (s.onCpu cpu).filter fun i => !(decide (i < s.chunks * chunk) && s.reapable i &&
      match s.tasks i with
        | some t => t.cpu == cpu
        | none => false)
    orphans := if (List.range cpuMax).any s.flush then orphans else orphans.filter (referenced tasks chunks)
    endpoints := fun e => e == 0 || among tasks chunks fun t => t.goods.endpoints.contains e }

/-! ### Runs -/

end Scheduler

/-- What happens to the scheduler: a select on a CPU at a time, the idle loop's pass on the boot CPU, a
spawn, and what the system calls and interrupts between them do to a task. -/
inductive Act where
  | select (cpu now : Nat)
  | idle
  | spawn (cpu : Nat) (band : Band)
  | become (slot : Nat) (state : State)
  | schedSet (slot : Nat) (band : Band) (budgetNs periodNs now : Nat)
  | trade (slot : Nat) (goods : Goods)
  | flush (cpu : Nat)
  | want (wish : Wish)
  | release
  deriving Repr

namespace Scheduler

def become (slot : Nat) (state : State) (s : Scheduler) : Scheduler :=
  s.mapTasks fun i t => if i = slot ∧ t.state ≠ .exited then { t with state := state } else t

def schedSet (slot : Nat) (band : Band) (budgetNs periodNs now : Nat) (s : Scheduler) : Scheduler :=
  s.mapTasks fun i t => if i = slot then
    { t with band := band, budgetNs := budgetNs, periodNs := periodNs, periodStart := now, consumed := 0 }
  else t

def living (s : Scheduler) (p : Goods → Bool) : Bool :=
  among s.tasks s.chunks fun t => t.state != .exited && p t.goods

def free (s : Scheduler) (r : Nat) : Bool :=
  !s.orphans.contains r && !among s.tasks s.chunks fun t => t.goods.owns.contains r || t.goods.reaches.contains r

/-- What a task may have after a call: what it had, a free endpoint or region, or what a task that lives
has. One that ended keeps its memory until it is reaped, and can only lose capabilities. -/
def fair (s : Scheduler) (t : Task) (g : Goods) : Bool :=
  if t.state = .exited then
    g.owns == t.goods.owns && g.endpoints.all t.goods.endpoints.contains &&
      g.reaches.all t.goods.reaches.contains
  else
    (g.endpoints.all fun e => !s.endpoints e || s.living (·.endpoints.contains e)) &&
    (g.owns.all fun r => t.goods.owns.contains r || s.free r) &&
    (g.reaches.all fun r => s.living fun g => g.owns.contains r || g.reaches.contains r)

/-- A call that makes, passes on or drops capabilities, or takes or gives back memory (`retire`). -/
def trade (slot : Nat) (g : Goods) (s : Scheduler) : Scheduler :=
  match s.tasks slot with
  | none => s
  | some t =>
    if s.fair t g then
      let tasks := Function.update s.tasks slot (some { t with goods := g })
      { s with
        tasks := tasks
        endpoints := fun e => s.endpoints e || g.endpoints.contains e
        orphans := s.orphans ++
          t.goods.owns.filter fun r => !g.owns.contains r && referenced tasks s.chunks r }
    else s

def act : Act → Scheduler → Scheduler
  | .select cpu now, s => s.select cpu now
  -- the boot CPU's loop goes on only while idle is what it runs
  | .idle, s => if s.current 0 = 0 then s.reap else s
  | .spawn cpu band, s => s.spawn cpu band
  | .become slot state, s => s.become slot state
  | .schedSet slot band budgetNs periodNs now, s => s.schedSet slot band budgetNs periodNs now
  | .trade slot goods, s => s.trade slot goods
  | .flush cpu, s => { s with flush := Function.update s.flush cpu true }
  | .want wish, s => { s with wanted := some wish }
  | .release, s => s.releaseHeld

def start : Scheduler where
  tasks _ := none
  chunks := 1
  current _ := 0
  onCpu _ := []
  cursor _ := (0, 0)
  held := none
  wanted := none
  flush _ := false
  lastSwitch _ := 0
  nextPid := 1
  endpoints e := e == 0
  orphans := []

def run (s : Scheduler) (as : List Act) : Scheduler := as.foldl (fun s a => act a s) s

inductive Reached : Scheduler → Prop
  | start : Reached start
  | step {s : Scheduler} (a : Act) : Reached s → Reached (act a s)

/-! ### The table -/

/-- Every task is in the table; idle's slot is empty. -/
structure Listed (s : Scheduler) : Prop where
  idle : s.tasks 0 = none
  within : ∀ i t, s.tasks i = some t → i < s.chunks * chunk
  chunks : 0 < s.chunks

theorem listed_start : Listed start where
  idle := rfl
  within := by simp [start]
  chunks := by simp [start]

/-- What changes tasks but neither where they are, nor what they have, nor that they ended; a task that
meets `R` still meets it. -/
structure Keeps (R : Task → Prop) (s s' : Scheduler) : Prop where
  chunks : s'.chunks = s.chunks
  current : s'.current = s.current
  endpoints : s'.endpoints = s.endpoints
  orphans : s'.orphans = s.orphans
  nextPid : s'.nextPid = s.nextPid
  tasks : ∀ i, ∃ f : Task → Task, s'.tasks i = (s.tasks i).map f ∧ ∀ t, (f t).pid = t.pid ∧ (f t).cpu = t.cpu ∧
    (f t).goods = t.goods ∧ (t.state = .exited → (f t).state = .exited) ∧ (R t → R (f t))

variable {a : Act} {cpu now : Nat}

section Keeps
variable {s s' s'' : Scheduler} {R : Task → Prop}

theorem Keeps.same (hc : s'.chunks = s.chunks) (hcur : s'.current = s.current)
    (he : s'.endpoints = s.endpoints) (hor : s'.orphans = s.orphans) (hp : s'.nextPid = s.nextPid)
    (ht : s'.tasks = s.tasks) : Keeps R s s' :=
  ⟨hc, hcur, he, hor, hp, fun i => ⟨id, by rw [ht, Option.map_id, id], fun _ => ⟨rfl, rfl, rfl, id, id⟩⟩⟩

theorem Keeps.refl (s : Scheduler) : Keeps R s s := .same rfl rfl rfl rfl rfl rfl

theorem Keeps.trans (h : Keeps R s s') (h' : Keeps R s' s'') : Keeps R s s'' := by
  refine ⟨h'.chunks.trans h.chunks, h'.current.trans h.current, h'.endpoints.trans h.endpoints,
    h'.orphans.trans h.orphans, h'.nextPid.trans h.nextPid, ?_⟩
  intro i
  obtain ⟨f, hf, hkeep⟩ := h.tasks i
  obtain ⟨g, hg, hkeep'⟩ := h'.tasks i
  refine ⟨g ∘ f, by rw [hg, hf, Option.map_map], ?_⟩
  intro t
  obtain ⟨hn, hc, hp, he, hr⟩ := hkeep t
  obtain ⟨hn', hc', hp', he', hr'⟩ := hkeep' (f t)
  exact ⟨hn'.trans hn, hc'.trans hc, hp'.trans hp, fun h => he' (he h), fun h => hr' (hr h)⟩

theorem Keeps.mapTasks (h : Keeps R s s') {f : Nat → Task → Task}
    (hf : ∀ i t, (f i t).pid = t.pid ∧ (f i t).cpu = t.cpu ∧ (f i t).goods = t.goods ∧
      (t.state = .exited → (f i t).state = .exited) ∧ (R t → R (f i t))) : Keeps R s (s'.mapTasks f) :=
  h.trans ⟨rfl, rfl, rfl, rfl, rfl, fun i => ⟨f i, rfl, hf i⟩⟩

theorem Keeps.origin (h : Keeps R s s') {i : Nat} {t' : Task} (ht : s'.tasks i = some t') :
    ∃ t, s.tasks i = some t ∧ t'.cpu = t.cpu ∧ t'.goods = t.goods ∧ (R t → R t') := by
  obtain ⟨f, hf, hkeep⟩ := h.tasks i
  rw [hf] at ht
  obtain ⟨t, hs, rfl⟩ := Option.map_eq_some_iff.mp ht
  obtain ⟨-, hc, hg, -, hr⟩ := hkeep t
  exact ⟨t, hs, hc, hg, hr⟩

theorem keeps_endFlush (s : Scheduler) (cpu : Nat) : Keeps (Rests now) s (s.endFlush cpu) := by
  unfold endFlush
  split
  · dsimp only
    have h : Keeps (Rests now) s { s with flush := Function.update s.flush cpu false } :=
      .same rfl rfl rfl rfl rfl rfl
    split
    · exact h
    · apply h.mapTasks
      intro i t
      grind [Rests]
  · exact .refl s

theorem keeps_holdWanted (s : Scheduler) (cpu now : Nat) : Keeps R s (s.holdWanted cpu now) := by
  unfold holdWanted
  split
  · exact .refl s
  · split
    · exact .same rfl rfl rfl rfl rfl rfl
    · exact .refl s

theorem keeps_endHold (s : Scheduler) (cpu : Nat) : Keeps R s (s.endHold cpu) := by
  unfold endHold
  split
  · exact .same rfl rfl rfl rfl rfl rfl
  · exact .refl s

theorem keeps_charge (s : Scheduler) (cpu : Nat) : Keeps (Rests now) s (s.charge cpu now) := by
  unfold charge
  dsimp only
  have h : Keeps (Rests now) s { s with lastSwitch := Function.update s.lastSwitch cpu now } :=
    .same rfl rfl rfl rfl rfl rfl
  split
  · exact h
  · apply h.mapTasks
    intro i t
    grind [Rests]

theorem keeps_refill (s : Scheduler) (cpu : Nat) : Keeps (Rests now) s (s.refill cpu now) := by
  apply (Keeps.refl s).mapTasks
  intro i t
  grind [Rests]

theorem keeps_settle (s : Scheduler) (cpu now : Nat) : Keeps (Rests now) s (s.settle cpu now) :=
  (((keeps_endFlush s cpu).trans (keeps_holdWanted _ cpu now)).trans (keeps_endHold _ cpu)).trans
    ((keeps_charge _ cpu).trans (keeps_refill _ cpu))

theorem keeps_become (s : Scheduler) (slot : Nat) (state : State) :
    Keeps (fun _ => True) s (s.become slot state) := by
  apply (Keeps.refl s).mapTasks
  intro i t
  grind

theorem keeps_schedSet (s : Scheduler) (slot : Nat) (band : Band) (budgetNs periodNs now : Nat) :
    Keeps (fun _ => True) s (s.schedSet slot band budgetNs periodNs now) := by
  apply (Keeps.refl s).mapTasks
  intro i t
  grind

def Minor : Act → Prop
  | .select _ _ | .idle | .spawn _ _ | .trade _ _ => False
  | _ => True

theorem keeps_act (h : Minor a) (s : Scheduler) : Keeps (fun _ => True) s (act a s) := by
  cases a with
  | select | idle | spawn | trade => exact h.elim
  | become slot state => exact keeps_become s slot state
  | schedSet slot band budgetNs periodNs now => exact keeps_schedSet s slot band budgetNs periodNs now
  | flush | want | release => exact .same rfl rfl rfl rfl rfl rfl

end Keeps

section Kept
variable {s s' : Scheduler} {R : Task → Prop}

theorem Listed.keeps (h : Listed s) (hk : Keeps R s s') : Listed s' := by
  refine ⟨?_, ?_, hk.chunks ▸ h.chunks⟩
  · cases h0 : s'.tasks 0 with
    | none => rfl
    | some t' =>
      obtain ⟨t, hs, -⟩ := hk.origin h0
      rw [h.idle] at hs
      cases hs
  · intro i t' hi
    obtain ⟨t, hs, -⟩ := hk.origin hi
    rw [hk.chunks]
    exact h.within i t hs

theorem Listed.select (h : Listed s) (cpu now : Nat) : Listed (s.select cpu now) := by
  obtain ⟨hidle, hwithin, hchunks⟩ := h.keeps (keeps_settle s cpu now)
  exact ⟨hidle, hwithin, hchunks⟩

variable {i : Nat}

theorem freeSlot_spec (h : Listed s) :
    s.freeSlot ≠ 0 ∧ s.tasks s.freeSlot = none ∧ s.freeSlot ≤ s.chunks * chunk := by
  refine firstOf_free ?_ ?_
  · have := h.chunks
    simp only [chunk]
    omega
  · cases ht : s.tasks (s.chunks * chunk) with
    | none => rfl
    | some t => exact absurd (h.within _ t ht) (lt_irrefl _)

theorem Listed.spawn (h : Listed s) (cpu : Nat) (band : Band) : Listed (s.spawn cpu band) := by
  obtain ⟨hne, hfree, hle⟩ := freeSlot_spec h
  have hchunks : s.chunks ≤ (s.spawn cpu band).chunks := by
    simp only [Scheduler.spawn]
    split <;> omega
  refine ⟨?_, ?_, h.chunks.trans_le hchunks⟩
  · exact (update_of_ne hne.symm _ _).trans h.idle
  · intro i t ht
    by_cases hi : i = s.freeSlot
    · subst i
      simp only [Scheduler.spawn]
      rcases eq_or_lt_of_le hle with he | hlt
      · rw [if_pos he, he]
        simp [chunk]
      · rw [if_neg (Nat.ne_of_lt hlt)]
        exact hlt
    · simp only [Scheduler.spawn, update_of_ne hi] at ht
      exact (h.within i t ht).trans_le (Nat.mul_le_mul_right _ hchunks)

theorem shrink_pos (tasks : Nat → Option Task) {n : Nat} (h : 0 < n) : 0 < shrink tasks n := by
  induction n using shrink.induct tasks with
  | case1 => exact absurd h (lt_irrefl 0)
  | case2 => exact Nat.one_pos
  | case3 n hall ih => rw [shrink, if_pos hall]; exact ih (Nat.succ_pos n)
  | case4 n hall => rw [shrink, if_neg hall]; omega

theorem lt_shrink (tasks : Nat → Option Task) {n : Nat} {t : Task} (hi : i < n * chunk)
    (ht : tasks i = some t) : i < shrink tasks n * chunk := by
  induction n using shrink.induct tasks with
  | case1 => exact hi
  | case2 => exact hi
  | case3 n hall ih =>
    rw [shrink, if_pos hall]
    refine ih ?_
    by_contra hge
    have hoff : i - (n + 1) * chunk < chunk := by simp only [chunk] at hi hge ⊢; omega
    have hnone := all_eq_true.mp hall (i - (n + 1) * chunk) (mem_range.mpr hoff)
    rw [show (n + 1) * chunk + (i - (n + 1) * chunk) = i by omega, ht] at hnone
    cases hnone
  | case4 n hall => rw [shrink, if_neg hall]; exact hi

theorem reap_tasks {t : Task} (h : s.reap.tasks i = some t) :
    s.tasks i = some t ∧ ¬ (i < s.chunks * chunk ∧ s.reapable i = true) := by
  simp only [Scheduler.reap] at h
  split at h
  · cases h
  · exact ⟨h, ‹_›⟩

theorem Listed.reap (h : Listed s) : Listed s.reap := by
  refine ⟨?_, ?_, shrink_pos _ h.chunks⟩
  · cases h0 : s.reap.tasks 0 with
    | none => rfl
    | some t => exact absurd (h.idle.symm.trans (reap_tasks h0).1) (by simp)
  · intro i t ht
    exact lt_shrink _ (h.within i t (reap_tasks ht).1) ht

/-- A trade gives the task of its slot other goods, if it does anything. -/
theorem trade_cases (s : Scheduler) (slot : Nat) (g : Goods) : s.trade slot g = s ∨
    ∃ t, s.tasks slot = some t ∧ s.fair t g = true ∧
      (∀ i, (s.trade slot g).tasks i = if i = slot then some { t with goods := g } else s.tasks i) ∧
      (∀ e, s.endpoints e = true → (s.trade slot g).endpoints e = true) ∧
      (∀ r ∈ (s.trade slot g).orphans, r ∈ s.orphans ∨ r ∈ t.goods.owns ∧ r ∉ g.owns) ∧
      (s.trade slot g).chunks = s.chunks ∧ (s.trade slot g).current = s.current := by
  unfold Scheduler.trade
  split
  · exact .inl rfl
  · rename_i t ht
    split
    · rename_i hf
      refine .inr ⟨t, ht, hf, fun i => update_apply .., fun e he => by simp [he], ?_, rfl, rfl⟩
      intro r hr
      simp only [mem_append, mem_filter, Bool.and_eq_true, Bool.not_eq_true', contains_eq_mem,
        decide_eq_false_iff_not] at hr
      tauto
    · exact .inl rfl

theorem Listed.trade (h : Listed s) (slot : Nat) (g : Goods) : Listed (s.trade slot g) := by
  rcases trade_cases s slot g with he | ⟨t, ht, -, htasks, -, -, hchunks, -⟩
  · rw [he]
    exact h
  · have hidle := h.idle
    have hwithin := h.within
    refine ⟨by grind, ?_, hchunks ▸ h.chunks⟩
    intro i u hu
    rw [hchunks]
    rw [htasks] at hu
    split at hu
    · subst i
      exact hwithin slot t ht
    · exact hwithin i u hu

theorem Listed.act (h : Listed s) (a : Act) : Listed (act a s) := by
  cases a with
  | select cpu now => exact h.select cpu now
  | idle =>
    simp only [Scheduler.act]
    split
    · exact h.reap
    · exact h
  | spawn cpu band => exact h.spawn cpu band
  | trade slot goods => exact h.trade slot goods
  | _ => exact h.keeps (keeps_act (by trivial) s)

theorem Reached.listed (h : Reached s) : Listed s := by
  induction h with
  | start => exact listed_start
  | step a _ ih => exact ih.act a

end Kept

end Scheduler

end MindCore.Kernel.Sched
