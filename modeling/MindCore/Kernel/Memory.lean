import Mathlib.Data.List.Pairwise
import MindCore.Kernel.Ipc

/-!
# Memory and the frame pool

The regions of the frame pool over the tables, sends and mappings of `Kernel.Ipc`: blocks and screens of
tasks, DMA regions, and orphans the kernel keeps while someone refers to them. A revocation that removes
a mapping from a space another CPU runs marks that CPU; until it switches, `stale` remembers what it
may still reach. `select` takes only a CPU's own tasks, so the CPU that runs a space is read off
`current`.
-/

namespace MindCore.Kernel.Ipc

open List

inductive Holder where
  | block (slot : Nat)
  | dma
  | orphan
  deriving DecidableEq, Repr

structure Region where
  base : Nat
  size : Nat
  holder : Holder
  deriving DecidableEq, Repr

structure Stale where
  cpu : Nat
  base : Nat
  size : Nat
  writable : Bool
  deriving DecidableEq, Repr

def meets (base size base' size' : Nat) : Bool := decide (base < base' + size') && decide (base' < base + size)

structure Machine where
  sys : System
  regions : List Region
  cpus : Nat
  /-- The slot a CPU runs, 0 for idle. -/
  current : Nat → Nat
  /-- The CPUs with a flush pending. -/
  flush : List Nat
  stale : List Stale
  /-- Where the registers of the devices lie, apart from the pool. -/
  registers : List (Nat × Nat)

/-- The calls that neither take nor release memory of the pool, nor remove a mapping of another task. -/
def Act.plain : Act → Bool
  | .strike _ _ | .memDetach _ _ _ _ | .sweep | .reap _ | .composite _ _ _ _ => false
  | .grantRoot _ _ (.memory _ _ _) | .grantRoot _ _ (.dma _ _) => false
  | _ => true

inductive Op where
  | ipc (a : Act)
  | alloc (slot base size : Nat)
  | free (slot base : Nat)
  | memShare (slot base size index : Nat)
  | memDetach (slot base index : Nat)
  | composite (slot index owner base : Nat)
  | dma (slot base size index : Nat)
  | strike (root id cpu : Nat)
  | select (cpu next : Nat)
  | reap

namespace Machine

def runs (m : Machine) (slot : Nat) : Bool := (List.range m.cpus).any fun c => m.current c == slot

def fresh (m : Machine) (base size : Nat) : Bool :=
  (m.regions.all fun r => !meets base size r.base r.size) &&
    m.registers.all fun g => !meets base size g.1 g.2

def allows (m : Machine) : Act → Bool
  | .grantRoot _ _ (.mmio base size) =>
    m.registers.any fun g => decide (g.1 ≤ base) && decide (base + size ≤ g.1 + g.2)
  | a => a.plain

def owned (m : Machine) (slot base : Nat) : Option Region :=
  m.regions.find? fun r => r.base == base && r.holder == .block slot

def referenced (m : Machine) (r : Region) : Bool := m.sys.referenced r.base r.size

def orphaned (r : Region) : Region := { r with holder := .orphan }

/-- `ALLOC`, a screen, or the page in the place of a revoked lease. -/
def alloc (slot base size : Nat) (m : Machine) : Machine :=
  if (m.sys.tasks slot).isSome && decide (0 < size) && m.fresh base size then
    { m with regions := ⟨base, size, .block slot⟩ :: m.regions }
  else m

def unmapped (r : Region) (m : Machine) : Machine := { m with regions := m.regions.erase r }

def retire (r : Region) (m : Machine) : Machine :=
  if m.referenced r then { m with regions := orphaned r :: m.regions } else m

def free (slot base : Nat) (m : Machine) : Machine :=
  match m.sys.running slot, m.owned slot base with
  | some _, some r => (m.unmapped r).retire r
  | _, _ => m

def memShare (slot base size index : Nat) (m : Machine) : Machine :=
  match m.owned slot base with
  | some r =>
    if 0 < size ∧ size ≤ r.size then
      { m with sys := m.sys.call slot (System.insertRoot (.memory base size memoryAll) index) }
    else m
  | none => m

def memDetach (slot base index : Nat) (m : Machine) : Machine :=
  match m.sys.running slot, m.owned slot base with
  | some t, some r =>
    if m.referenced r || !t.free index then m
    else
      { m with
        sys := m.sys.call slot
          (System.insertRoot (.memory r.base r.size ⟨true, true, false, false, false⟩) index)
        regions := orphaned r :: m.regions.erase r }
  | _, _ => m

/-- The compositor is given the screen of the task in front to read. -/
def composite (slot index owner base : Nat) (m : Machine) : Machine :=
  match m.owned owner base with
  | some r => { m with sys := m.sys.call slot (System.composite r.base r.size index) }
  | none => m

def dma (slot base size index : Nat) (m : Machine) : Machine :=
  if decide (0 < size) && m.fresh base size then
    { m with
      sys := m.sys.call slot (System.insertRoot (.dma base size) index)
      regions := ⟨base, size, .dma⟩ :: m.regions }
  else m

/-- What the CPU may still reach of the mappings that a step of a revocation removes. -/
def removed (m : Machine) (id c : Nat) : List Stale :=
  match m.sys.tasks (m.current c) with
  | some t => (t.maps.filter fun q => q.node == id).map fun q => ⟨c, q.base, q.size, q.writable⟩
  | none => []

/-- A step of a revocation on a CPU: `unmap_revoked` marks the others that run a space it changed. -/
def strike (root id cpu : Nat) (m : Machine) : Machine :=
  if m.sys.doomed root id then
    let others := (List.range m.cpus).filter fun c => c != cpu && !(m.removed id c).isEmpty
    { m with
      sys := m.sys.strike root id
      flush := others ++ m.flush
      stale := others.flatMap (m.removed id) ++ m.stale }
  else m

/-- Every select reloads the page tables, which completes a pending flush of the CPU. -/
def select (cpu next : Nat) (m : Machine) : Machine :=
  if decide (cpu < m.cpus) &&
      (next == 0 || (m.sys.running next).isSome && (m.current cpu == next || !m.runs next)) then
    { m with
      current := Function.update m.current cpu next
      flush := m.flush.filter fun c => c != cpu
      stale := m.stale.filter fun q => q.cpu != cpu }
  else m

def gone (m : Machine) (r : Region) : Bool :=
  match r.holder with
  | .block slot => (m.sys.tasks slot).isNone
  | _ => false

/-- The reaper, up to the sweep: exited tasks go, and their regions are retired. -/
def buried (m : Machine) : Machine := { m with sys := m.sys.reap m.runs }

def retired (m : Machine) : Machine :=
  { m with
    regions := (m.regions.filter fun r => !m.gone r || m.referenced r).map fun r =>
      if m.gone r then orphaned r else r }

/-- Orphans nothing refers to go back, but not while a CPU may hold a stale translation. -/
def sweep (m : Machine) : Machine :=
  if m.flush.isEmpty then
    { m with regions := m.regions.filter fun r => r.holder != .orphan || m.referenced r }
  else m

def reap (m : Machine) : Machine := m.buried.retired.sweep

def act : Op → Machine → Machine
  | .ipc a, m => if m.allows a then { m with sys := m.sys.act a } else m
  | .alloc slot base size, m => m.alloc slot base size
  | .free slot base, m => m.free slot base
  | .memShare slot base size index, m => m.memShare slot base size index
  | .memDetach slot base index, m => m.memDetach slot base index
  | .composite slot index owner base, m => m.composite slot index owner base
  | .dma slot base size index, m => m.dma slot base size index
  | .strike root id cpu, m => m.strike root id cpu
  | .select cpu next, m => m.select cpu next
  | .reap, m => m.reap

/-- The regions that go back to the pool, with the machine as it is then. -/
def drops : Op → Machine → List (Region × Machine)
  | .free slot base, m => match m.sys.running slot, m.owned slot base with
    | some _, some r => if (m.unmapped r).referenced r then [] else [(r, m.unmapped r)]
    | _, _ => []
  | .reap, m =>
    let dead := m.buried
    let kept := dead.retired
    ((dead.regions.filter fun r => dead.gone r && !dead.referenced r).map fun r => (r, kept)) ++
      if kept.flush.isEmpty then
        (kept.regions.filter fun r => r.holder == .orphan && !kept.referenced r).map fun r => (r, kept)
      else []
  | _, _ => []

def start (cpus : Nat) (registers : List (Nat × Nat)) : Machine where
  sys := System.start
  regions := []
  cpus := cpus
  current _ := 0
  flush := []
  stale := []
  registers := registers

/-! ### Invariants -/

/-- Nothing can reach the region: no capability in a table or in a send, no mapping, and no CPU that
still has to flush one. -/
structure Clear (m : Machine) (r : Region) : Prop where
  tables : ∀ i t, m.sys.tasks i = some t → ∀ x ∈ t.table, overlaps x.cap r.base r.size = false
  sends : ∀ i t, m.sys.tasks i = some t → ∀ p, t.pending = some p → overlaps p.cap r.base r.size = false
  maps : ∀ i t, m.sys.tasks i = some t → ∀ q ∈ t.maps, meets q.base q.size r.base r.size = false
  blocks : ∀ q ∈ m.regions, ∀ slot, q.holder = .block slot → meets q.base q.size r.base r.size = false
  flushed : ∀ c ∈ m.flush, ∀ q ∈ m.stale, q.cpu = c → meets q.base q.size r.base r.size = false

def Apart (r r' : Region) : Prop := meets r.base r.size r'.base r'.size = false

theorem Apart.symm {r r' : Region} (h : Apart r r') : Apart r' r := by
  simp only [Apart, meets, Bool.and_eq_false_iff, decide_eq_false_iff_not] at h ⊢
  exact h.symm

instance : Std.Symm Apart := ⟨fun _ _ => Apart.symm⟩

/-- The live regions are apart, and a CPU with something stale has its flush pending. -/
structure Inv (m : Machine) : Prop where
  apart : m.regions.Pairwise Apart
  marked : ∀ q ∈ m.stale, q.cpu ∈ m.flush

variable {base slot : Nat} {P : Op → Machine → Prop} {d : Region × Machine} {m : Machine}

theorem fresh_apart {size : Nat} {h : Holder} (hf : m.fresh base size = true) :
    ∀ r ∈ m.regions, Apart ⟨base, size, h⟩ r := by
  intro r hr
  simp only [fresh, Bool.and_eq_true, all_eq_true, Bool.not_eq_true'] at hf
  exact hf.1 r hr

theorem not_referenced {r : Region} (h : m.referenced r = false) {i : Nat} {t : Task}
    (ht : m.sys.tasks i = some t) :
    (∀ x ∈ t.table, overlaps x.cap r.base r.size = false) ∧
      (∀ p, t.pending = some p → overlaps p.cap r.base r.size = false) ∧
      ∀ q ∈ t.maps, meets q.base q.size r.base r.size = false := by
  have hall : ∀ p : Task → Bool, m.sys.tasks.any p = false → p t = false := by
    intro p hp
    by_contra hne
    rw [Bool.not_eq_false] at hne
    rw [Table.any_iff.mpr ⟨i, t, ht, hne⟩] at hp
    cases hp
  have hno := hall _ h
  simp only [Bool.or_eq_false_iff, any_eq_false, Bool.not_eq_true] at hno
  obtain ⟨⟨hx, hp⟩, hq⟩ := hno
  refine ⟨hx, ?_, hq⟩
  intro p hpend
  rw [hpend] at hp
  exact hp

/-- A region that nobody refers to, apart from the blocks left, is clear once no flush is pending. -/
theorem clear_of_apart {r : Region} (h : m.referenced r = false) (hf : m.flush = [])
    (ha : ∀ q ∈ m.regions, ∀ slot, q.holder = .block slot → Apart q r) : Clear m r := by
  refine ⟨?_, ?_, ?_, ha, ?_⟩
  · intro i t ht
    exact (not_referenced h ht).1
  · intro i t ht
    exact (not_referenced h ht).2.1
  · intro i t ht
    exact (not_referenced h ht).2.2
  · intro c hc
    rw [hf] at hc
    cases hc

section
variable {m : Machine}

theorem Inv.sys (h : Inv m) (s : System) : Inv { m with sys := s } := ⟨h.apart, h.marked⟩

variable {r : Region}

theorem pairwise_erase_apart {l : List Region} (h : l.Pairwise Apart) (hr : r ∈ l) :
    ∀ q ∈ l.erase r, Apart q r := by
  induction l with
  | nil => cases hr
  | cons x l ih =>
    obtain ⟨hx, hl⟩ := pairwise_cons.mp h
    intro q hq
    by_cases hxr : x = r
    · subst hxr
      rw [erase_cons_head] at hq
      exact (hx q hq).symm
    · have hr' : r ∈ l := (mem_cons.mp hr).resolve_left fun he => hxr he.symm
      rw [erase_cons_tail (by simpa using hxr)] at hq
      rcases mem_cons.mp hq with rfl | hq
      · exact hx r hr'
      · exact ih hl hr' q hq

theorem owned_spec (h : m.owned slot base = some r) :
    r ∈ m.regions ∧ r.base = base ∧ r.holder = .block slot := by
  refine ⟨mem_of_find?_eq_some h, ?_⟩
  simpa using find?_some h

section
variable (h : Inv m)
include h

theorem Inv.unmapped (r : Region) : Inv (m.unmapped r) := ⟨h.apart.sublist erase_sublist, h.marked⟩

theorem Inv.orphan (hr : r ∈ m.regions) : Inv { m with regions := orphaned r :: m.regions.erase r } := by
  refine ⟨pairwise_cons.mpr ⟨?_, h.apart.sublist erase_sublist⟩, h.marked⟩
  intro q hq
  exact (pairwise_erase_apart h.apart hr q hq).symm

theorem Inv.free (slot base : Nat) : Inv (m.free slot base) := by
  unfold Machine.free
  split
  · rename_i r _ hr
    unfold retire
    split
    · exact h.orphan (owned_spec hr).1
    · exact h.unmapped r
  · exact h

theorem Inv.memDetach (slot base index : Nat) : Inv (m.memDetach slot base index) := by
  unfold Machine.memDetach
  split
  · rename_i r _ hr
    split
    · exact h
    · exact (h.orphan (owned_spec hr).1).sys _
  · exact h

theorem Inv.strike (root id cpu : Nat) : Inv (m.strike root id cpu) := by
  unfold Machine.strike
  split
  · refine ⟨h.apart, ?_⟩
    intro q hq
    rcases mem_append.mp hq with hq | hq
    · obtain ⟨c, hc, hq⟩ := mem_flatMap.mp hq
      have hcpu : q.cpu = c := by
        unfold removed at hq
        split at hq
        · obtain ⟨x, -, rfl⟩ := mem_map.mp hq
          rfl
        · cases hq
      rw [hcpu]
      exact mem_append_left _ hc
    · exact mem_append_right _ (h.marked q hq)
  · exact h

theorem Inv.select (cpu next : Nat) : Inv (m.select cpu next) := by
  unfold Machine.select
  split
  · refine ⟨h.apart, ?_⟩
    intro q hq
    obtain ⟨hq, hne⟩ := mem_filter.mp hq
    exact mem_filter.mpr ⟨h.marked q hq, hne⟩
  · exact h

theorem Inv.retired : Inv m.retired := by
  refine ⟨?_, h.marked⟩
  refine pairwise_map.mpr ((h.apart.sublist filter_sublist).imp ?_)
  intro r r' ha
  split <;> split <;> exact ha

theorem Inv.sweep : Inv m.sweep := by
  unfold Machine.sweep
  split
  · exact ⟨h.apart.sublist filter_sublist, h.marked⟩
  · exact h

theorem Inv.act (a : Op) : Inv (m.act a) := by
  cases a with
  | ipc a =>
    simp only [Machine.act]
    split
    · exact h.sys _
    · exact h
  | alloc slot base size =>
    simp only [Machine.act, Machine.alloc]
    split
    · rename_i hc
      rw [Bool.and_eq_true] at hc
      exact ⟨pairwise_cons.mpr ⟨fresh_apart hc.2, h.apart⟩, h.marked⟩
    · exact h
  | free slot base => exact h.free slot base
  | memShare slot base size index =>
    simp only [Machine.act, Machine.memShare]
    split
    · split
      · exact h.sys _
      · exact h
    · exact h
  | memDetach slot base index => exact h.memDetach slot base index
  | composite slot index owner base =>
    simp only [Machine.act, Machine.composite]
    split
    · exact h.sys _
    · exact h
  | dma slot base size index =>
    simp only [Machine.act, Machine.dma]
    split
    · rename_i hc
      rw [Bool.and_eq_true] at hc
      exact ⟨pairwise_cons.mpr ⟨fresh_apart hc.2, h.apart⟩, h.marked⟩
    · exact h
  | strike root id cpu => exact h.strike root id cpu
  | select cpu next => exact h.select cpu next
  | reap => exact (h.sys _).retired.sweep

end

end

/-! ### Runs -/

/-- No flush is pending where a block is freed, nor where the reaper finds memory of an exited task that
no CPU runs. -/
def NoFlush : Op → Machine → Prop
  | .free _ _, m => m.flush = []
  | .reap, m => m.flush = [] ∨ ∀ r ∈ m.regions, m.buried.gone r = false
  | _, _ => True

inductive Reached (P : Op → Machine → Prop) : Machine → Prop
  | start (cpus : Nat) (registers : List (Nat × Nat)) : Reached P (start cpus registers)
  | step {m : Machine} (a : Op) : Reached P m → P a m → Reached P (m.act a)

theorem Reached.inv (h : Reached P m) : Inv m := by
  induction h with
  | start cpus registers => exact ⟨List.Pairwise.nil, nofun⟩
  | step a _ _ ih => exact ih.act a

theorem clear_free (h : Inv m) (hq : m.flush = []) (hd : d ∈ m.drops (.free slot base)) : Clear d.2 d.1 := by
  simp only [drops] at hd
  split at hd
  · rename_i r _ hr
    split at hd
    · cases hd
    · rename_i href
      obtain rfl := mem_singleton.mp hd
      refine clear_of_apart (by simpa using href) hq ?_
      intro q hq' slot' _
      exact pairwise_erase_apart h.apart (owned_spec hr).1 q hq'
  · cases hd

theorem clear_reap (h : Inv m) (hq : NoFlush .reap m) (hd : d ∈ m.drops .reap) : Clear d.2 d.1 := by
  have hb : Inv m.buried := h.sys _
  rcases mem_append.mp hd with hd | hd
  · obtain ⟨r, hr, rfl⟩ := mem_map.mp hd
    obtain ⟨hr, hg⟩ := mem_filter.mp hr
    simp only [Bool.and_eq_true, Bool.not_eq_true'] at hg
    have hflush : m.flush = [] := by
      rcases hq with hq | hq
      · exact hq
      · rw [hq r hr] at hg
        cases hg.1
    refine clear_of_apart hg.2 hflush ?_
    intro q hin slot hslot
    obtain ⟨q', hfil, rfl⟩ := mem_map.mp hin
    obtain ⟨hq', hkeep⟩ := mem_filter.mp hfil
    have hne : q' ≠ r := by
      rintro rfl
      rw [hg.1, hg.2] at hkeep
      cases hkeep
    have ha : Apart q' r := hb.apart.forall hq' hr hne
    split at hslot
    · cases hslot
    · rename_i hng
      simp only [hng]
      exact ha
  · split at hd
    · rename_i hempty
      obtain ⟨r, hr, rfl⟩ := mem_map.mp hd
      obtain ⟨hr, ho⟩ := mem_filter.mp hr
      simp only [Bool.and_eq_true, beq_iff_eq, Bool.not_eq_true'] at ho
      refine clear_of_apart ho.2 (isEmpty_iff.mp hempty) ?_
      intro q hq' slot hslot
      refine hb.retired.apart.forall hq' hr ?_
      rintro rfl
      rw [ho.1] at hslot
      cases hslot
    · cases hd

/-- Memory goes back only when nothing can reach it: in every run in which no flush is pending where a
block is freed or an exited task's memory is reaped. -/
theorem released_out_of_reach {m : Machine} (h : Reached NoFlush m) (a : Op) (ha : NoFlush a m) :
    ∀ d ∈ m.drops a, Clear d.2 d.1 := by
  intro d hd
  cases a with
  | free slot base => exact clear_free h.inv ha hd
  | reap => exact clear_reap h.inv ha hd
  | _ => cases hd

def run (l : List Op) (m : Machine) : Machine := l.foldl (fun m a => m.act a) m

theorem Reached.run (h : Reached P m) (l : List Op) (hl : ∀ a ∈ l, ∀ m, P a m) : Reached P (m.run l) := by
  induction l generalizing m with
  | nil => exact h
  | cons a l ih =>
    apply ih (h.step a (hl a mem_cons_self m))
    intro b hb
    exact hl b (mem_cons_of_mem a hb)

/-- A block is shared with the task in slot 3, which maps it on CPU 1 while its owner in slot 2 revokes
the share from CPU 0 and is killed. -/
def lent : List Op :=
  [.ipc (.spawn 1 false [⟨⟨1, ⟨endpointAll, false⟩, false, 0⟩, 1⟩] 2),
   .ipc (.spawn 1 false [⟨⟨1, ⟨endpointAll, false⟩, false, 0⟩, 1⟩] 3),
   .select 0 2, .select 1 3,
   .alloc 2 65536 4096,
   .memShare 2 65536 4096 43,
   .ipc (.recv 3 1 5 false),
   .ipc (.send 2 ⟨1, false, some ⟨43, ⟨memoryAll, false⟩, false, 0⟩, 0, false⟩),
   .ipc (.memMap 3 5),
   .ipc (.beginRevoke 2 43),
   .strike 6 7 0,
   .ipc (.terminate 2 0),
   .select 0 0]

/-- CPU 1 has switched before the reaper comes. -/
theorem reaped_after_the_switch :
    ∃ m, Reached NoFlush m ∧ ∃ d ∈ m.drops .reap, d.1 = ⟨65536, 4096, .block 2⟩ ∧ Clear d.2 d.1 := by
  have hr : Reached NoFlush ((start 2 []).run (lent ++ [.select 1 3])) := by
    apply (Reached.start 2 []).run
    simp [lent, NoFlush]
  have hflush : ((start 2 []).run (lent ++ [.select 1 3])).flush = [] := by decide +kernel
  have hdrop : ∃ d ∈ ((start 2 []).run (lent ++ [.select 1 3])).drops .reap, d.1 = ⟨65536, 4096, .block 2⟩ := by
    have h : (((start 2 []).run (lent ++ [.select 1 3])).drops .reap).map Prod.fst =
        [⟨65536, 4096, .block 2⟩] := by decide +kernel
    obtain ⟨d, hd, he⟩ := mem_map.mp (h ▸ mem_singleton.mpr rfl)
    exact ⟨d, hd, he⟩
  obtain ⟨d, hd, he⟩ := hdrop
  exact ⟨_, hr, d, hd, he, released_out_of_reach hr .reap (.inl hflush) d hd⟩

/-- The reaper hands the block back while CPU 1 may still write it. -/
theorem reaped_under_a_stale_mapping :
    ¬ ∀ m, Reached (fun _ _ => True) m → ∀ a, ∀ d ∈ m.drops a, Clear d.2 d.1 := by
  intro h
  have hr : Reached (fun _ _ => True) ((start 2 []).run lent) :=
    (Reached.start 2 []).run lent fun _ _ _ => trivial
  have hany : (((start 2 []).run lent).drops .reap).any (fun d => d.2.flush.any fun c =>
      d.2.stale.any fun q => q.cpu == c && meets q.base q.size d.1.base d.1.size) = true := by
    decide +kernel
  simp only [any_eq_true, Bool.and_eq_true, beq_iff_eq] at hany
  obtain ⟨d, hd, c, hc, q, hq, hcpu, hmeets⟩ := hany
  rw [(h _ hr .reap d hd).flushed c hc q hq hcpu] at hmeets
  cases hmeets

end Machine

end MindCore.Kernel.Ipc
