import MindCore.Lib.Forest
import MindCore.Kernel.Select
import Mathlib.Algebra.BigOperators.Group.Finset.Piecewise

/-!
# Task and endpoint quotas

The quotas a spawner delegates (`spawn`, `worker_start`), the endpoints a task creates, and what `used_tasks`
and `used_endpoints` count: the reservations of the live children and the endpoints created. A
reservation returns to the spawner when the child exits, whether or not the child left tasks of its
own. `bornOf` is no field of the kernel: it remembers who spawned a task after the spawner is gone.
-/

namespace MindCore.Kernel.Quota

open Function
open Forest
open Sched (chunk firstOf newEndpoint)

abbrev Ref := Nat × Nat

structure Task where
  pid : Nat
  exited : Bool
  parent : Option Ref
  quotaTasks : Nat
  quotaEndpoints : Nat
  workerOf : Option Ref
  deriving DecidableEq, Repr

structure Accounts where
  tasks : Nat → Option Task
  len : Nat
  nextPid : Nat
  endpoints : Nat → Bool
  endpointOwner : Nat → Option Ref
  endpointsLen : Nat
  halted : Bool
  bornOf : Nat → Option Nat

def quotaMax : Nat := 0xFFFF

def endpointsFirst : Nat := 128

namespace Accounts

/-! ### What is used -/

def reserve (q : Task → Nat) (s : Accounts) (owner : Ref) (slot : Nat) : Nat :=
  match s.tasks slot with
  | some t => if t.exited = false ∧ t.parent = some owner then q t else 0
  | none => 0

def reserved (q : Task → Nat) (s : Accounts) (owner : Ref) : Nat :=
  ∑ slot ∈ Finset.range s.len, s.reserve q owner slot

def created (s : Accounts) (owner : Ref) : Finset Nat :=
  (Finset.range s.endpointsLen).filter fun e => s.endpoints e = true ∧ s.endpointOwner e = some owner

def usedTasks (s : Accounts) (owner : Ref) : Nat := s.reserved (fun t => 1 + t.quotaTasks) owner

def usedEndpoints (s : Accounts) (owner : Ref) : Nat :=
  (s.created owner).card + s.reserved Task.quotaEndpoints owner

/-! ### Spawning, creating, ending -/

def freeSlot (s : Accounts) : Nat :=
  firstOf (fun i => i ≠ 0 && (s.tasks i).isNone) s.len

def place (s : Accounts) (t : Task) : Accounts :=
  let slot := s.freeSlot
  { s with
    tasks := Function.update s.tasks slot (some { t with pid := s.nextPid })
    len := if slot = s.len then s.len + chunk else s.len
    nextPid := s.nextPid + 1
    bornOf := Function.update s.bornOf s.nextPid (t.parent.map Prod.snd) }

def live (s : Accounts) (slot : Nat) : Option Task := (s.tasks slot).filter fun t => !t.exited

/-- `spawn`, where nothing but a quota refuses it. -/
def spawn (slot quotaTasks quotaEndpoints : Nat) (s : Accounts) : Accounts :=
  match s.live slot with
  | none => s
  | some t =>
    if s.usedTasks (slot, t.pid) + 1 + quotaTasks > t.quotaTasks ∨
        s.usedEndpoints (slot, t.pid) + quotaEndpoints > t.quotaEndpoints then s
    else s.place { pid := 0, exited := false, parent := some (slot, t.pid), quotaTasks := quotaTasks,
                   quotaEndpoints := quotaEndpoints, workerOf := none }

def workerStart (slot : Nat) (s : Accounts) : Accounts :=
  match s.live slot with
  | none => s
  | some t =>
    if s.usedTasks (slot, t.pid) + 1 > t.quotaTasks then s
    else s.place { pid := 0, exited := false, parent := some (slot, t.pid), quotaTasks := 0,
                   quotaEndpoints := 0, workerOf := some (slot, t.pid) }

def endpointCreate (slot : Nat) (s : Accounts) : Accounts :=
  match s.live slot with
  | none => s
  | some t =>
    if s.usedEndpoints (slot, t.pid) ≥ t.quotaEndpoints then s
    else
      let ep := newEndpoint s.endpoints s.endpointsLen
      { s with
        endpoints := Function.update s.endpoints ep true
        endpointOwner := Function.update s.endpointOwner ep (some (slot, t.pid))
        endpointsLen := if ep = s.endpointsLen then 2 * s.endpointsLen else s.endpointsLen }

/-- `terminate`: the task ends and its workers with it; without `init` the system stops. -/
def terminate (slot : Nat) (s : Accounts) : Accounts :=
  match s.live slot with
  | none => s
  | some t =>
    if t.parent = none then { s with halted := true }
    else { s with tasks := fun i => (s.tasks i).map fun u =>
      if i = slot ∨ u.workerOf = some (slot, t.pid) then { u with exited := true } else u }

/-- `reap`: exited tasks no CPU runs go, and the endpoints no capability names are free again. -/
def reap (runs used : Nat → Bool) (s : Accounts) : Accounts :=
  { s with
    tasks := fun i => (s.tasks i).filter fun t => !(t.exited && !runs i)
    endpoints := fun e => s.endpoints e && used e
    endpointOwner := fun e => if used e then s.endpointOwner e else none }

end Accounts

inductive Act where
  | spawn (slot quotaTasks quotaEndpoints : Nat)
  | workerStart (slot : Nat)
  | endpointCreate (slot : Nat)
  | terminate (slot : Nat)
  | reap (runs used : Nat → Bool)

namespace Accounts

def act (a : Act) (s : Accounts) : Accounts :=
  if s.halted then s
  else match a with
    | .spawn slot quotaTasks quotaEndpoints => s.spawn slot quotaTasks quotaEndpoints
    | .workerStart slot => s.workerStart slot
    | .endpointCreate slot => s.endpointCreate slot
    | .terminate slot => s.terminate slot
    | .reap runs used => s.reap runs used

def start : Accounts where
  tasks slot := if slot = 1 then
    some { pid := 1, exited := false, parent := none, quotaTasks := quotaMax,
           quotaEndpoints := quotaMax, workerOf := none }
  else none
  len := chunk
  nextPid := 2
  endpoints e := e == 0 || e == 1
  endpointOwner e := if e = 1 then some (1, 1) else none
  endpointsLen := endpointsFirst
  halted := false
  bornOf _ := none

inductive Reached : Accounts → Prop
  | start : Reached start
  | step {s : Accounts} (a : Act) : Reached s → Reached (act a s)

/-! ### The quotas hold for the live children -/

variable {slot i : Nat} {t : Task} {s : Accounts}

theorem live_some : s.live slot = some t ↔ s.tasks slot = some t ∧ t.exited = false := by
  simp [live, Option.filter_eq_some_iff]

structure Inv (s : Accounts) : Prop where
  slots : ∀ i t, s.tasks i = some t → i ≠ 0 ∧ i < s.len
  pids : ∀ i t, s.tasks i = some t → t.pid < s.nextPid
  older : ∀ i t p, s.tasks i = some t → t.parent = some p → p.2 < t.pid
  owners : ∀ e p, s.endpointOwner e = some p → p.2 < s.nextPid
  len : 0 < s.len
  inUse : ∀ e, s.endpoints e = true → e < s.endpointsLen
  ends : 0 < s.endpointsLen
  tasks : ∀ i t, s.live i = some t → s.usedTasks (i, t.pid) ≤ t.quotaTasks
  endpoints : ∀ i t, s.live i = some t → s.usedEndpoints (i, t.pid) ≤ t.quotaEndpoints

section Steps
variable {s s' : Accounts} {owner : Ref} {q : Task → Nat} {p : Task}

theorem reserved_le (hlen : s'.len = s.len)
    (h : ∀ i, s'.reserve q owner i ≤ s.reserve q owner i) : s'.reserved q owner ≤ s.reserved q owner := by
  unfold reserved
  rw [hlen]
  exact Finset.sum_le_sum fun i _ => h i

theorem freeSlot_spec (h : Inv s) : s.freeSlot ≠ 0 ∧ s.tasks s.freeSlot = none ∧ s.freeSlot ≤ s.len := by
  refine Sched.firstOf_free h.len ?_
  cases ht : s.tasks s.len with
  | none => rfl
  | some t => exact absurd (h.slots _ t ht).2 (lt_irrefl _)

theorem reserve_none (h : s.tasks i = none) : s.reserve q owner i = 0 := by
  simp [reserve, h]

theorem reserved_place (h : Inv s) (t : Task) (ht : t.exited = false) (q : Task → Nat)
    (hq : ∀ pid, q { t with pid := pid } = q t) (owner : Ref) :
    (s.place t).reserved q owner =
      s.reserved q owner + if t.parent = some owner then q t else 0 := by
  obtain ⟨-, hfree, hle⟩ := freeSlot_spec h
  have hterm : ∀ i, (s.place t).reserve q owner i =
      s.reserve q owner i + if i = s.freeSlot then (if t.parent = some owner then q t else 0) else 0 := by
    intro i
    by_cases hi : i = s.freeSlot
    · subst i
      rw [reserve_none hfree]
      simp only [reserve, place, update_self, hq]
      simp only [ht, true_and, if_true, Nat.zero_add]
    · simp only [reserve, place, update_of_ne hi, if_neg hi, Nat.add_zero]
  have hlen : s.len ≤ (s.place t).len ∧ s.freeSlot < (s.place t).len := by
    simp only [place, chunk]
    split <;> omega
  have hwide : s.reserved q owner = ∑ i ∈ Finset.range (s.place t).len, s.reserve q owner i := by
    refine Finset.sum_subset (Finset.range_mono hlen.1) ?_
    intro i _ hi
    refine reserve_none ?_
    cases hti : s.tasks i with
    | none => rfl
    | some u => exact absurd (Finset.mem_range.mpr (h.slots i u hti).2) hi
  rw [hwide]
  unfold reserved
  rw [Finset.sum_congr rfl fun i _ => hterm i, Finset.sum_add_distrib, Finset.sum_ite_eq',
    if_pos (Finset.mem_range.mpr hlen.2)]

theorem place_tasks {u : Task} (h : (s.place t).tasks i = some u) :
    i = s.freeSlot ∧ u = { t with pid := s.nextPid } ∨ i ≠ s.freeSlot ∧ s.tasks i = some u := by
  by_cases hi : i = s.freeSlot
  · subst i
    simp only [place, update_self, Option.some.injEq] at h
    exact .inl ⟨rfl, h.symm⟩
  · simp only [place, update_of_ne hi] at h
    exact .inr ⟨hi, h⟩

section
variable (h : Inv s)
include h

theorem Inv.place (hp : s.live slot = some p) (hpar : t.parent = some (slot, p.pid)) (ht : t.exited = false)
    (hroom : s.usedTasks (slot, p.pid) + (1 + t.quotaTasks) ≤ p.quotaTasks)
    (hends : s.usedEndpoints (slot, p.pid) + t.quotaEndpoints ≤ p.quotaEndpoints) :
    Inv (s.place t) := by
  obtain ⟨hne, hfree, hle⟩ := freeSlot_spec h
  obtain ⟨hps, -⟩ := live_some.mp hp
  have hlen : s.len ≤ (s.place t).len ∧ s.freeSlot < (s.place t).len := by
    simp only [Accounts.place, chunk]
    split <;> omega
  have hcreated : ∀ owner, (s.place t).created owner = s.created owner := fun _ => rfl
  have hfresh : ∀ q, s.reserved q (s.freeSlot, s.nextPid) = 0 := by
    intro q
    refine Finset.sum_eq_zero ?_
    intro i _
    unfold reserve
    split
    · rename_i u hu
      refine if_neg ?_
      rintro ⟨-, hup⟩
      have h1 := h.older i u _ hu hup
      have h2 := h.pids i u hu
      omega
    · rfl
  have hnone : s.created (s.freeSlot, s.nextPid) = ∅ := by
    refine Finset.filter_eq_empty_iff.mpr ?_
    rintro e - ⟨-, he⟩
    exact absurd (h.owners e _ he) (lt_irrefl _)
  have hother : some (slot, p.pid) ≠ some (s.freeSlot, s.nextPid) := by
    intro he
    have := h.pids slot p hps
    simp only [Option.some.injEq, Prod.mk.injEq] at he
    omega
  refine ⟨?_, ?_, ?_, ?_, h.len.trans_le hlen.1, h.inUse, h.ends, ?_, ?_⟩
  · intro i u hu
    rcases place_tasks hu with ⟨rfl, -⟩ | ⟨-, hu⟩
    · exact ⟨hne, hlen.2⟩
    · exact ⟨(h.slots i u hu).1, (h.slots i u hu).2.trans_le hlen.1⟩
  · intro i u hu
    rcases place_tasks hu with ⟨-, rfl⟩ | ⟨-, hu⟩
    · exact Nat.lt_succ_self _
    · exact (h.pids i u hu).trans (Nat.lt_succ_self _)
  · intro i u o hu ho
    rcases place_tasks hu with ⟨-, rfl⟩ | ⟨-, hu⟩
    · rw [hpar] at ho
      cases ho
      exact h.pids slot p hps
    · exact h.older i u o hu ho
  · intro e o ho
    exact (h.owners e o ho).trans (Nat.lt_succ_self _)
  · intro i u hu
    obtain ⟨hut, hul⟩ := live_some.mp hu
    rw [usedTasks, reserved_place h t ht _ (fun _ => rfl), hpar]
    rcases place_tasks hut with ⟨rfl, rfl⟩ | ⟨-, hut⟩
    · rw [hfresh, if_neg hother]
      exact Nat.zero_le _
    · have hold := h.tasks i u (live_some.mpr ⟨hut, hul⟩)
      split
      · rename_i he
        obtain ⟨rfl, -⟩ : slot = i ∧ p.pid = u.pid := by simpa using he
        rw [hps] at hut
        cases hut
        exact hroom
      · exact hold
  · intro i u hu
    obtain ⟨hut, hul⟩ := live_some.mp hu
    rw [usedEndpoints, hcreated, reserved_place h t ht _ (fun _ => rfl), hpar]
    rcases place_tasks hut with ⟨rfl, rfl⟩ | ⟨-, hut⟩
    · rw [hfresh, if_neg hother, hnone]
      exact Nat.zero_le _
    · have hold := h.endpoints i u (live_some.mpr ⟨hut, hul⟩)
      split
      · rename_i he
        obtain ⟨rfl, -⟩ : slot = i ∧ p.pid = u.pid := by simpa using he
        rw [hps] at hut
        cases hut
        rw [usedEndpoints] at hends
        omega
      · exact hold

theorem Inv.spawn (slot quotaTasks quotaEndpoints : Nat) : Inv (s.spawn slot quotaTasks quotaEndpoints) := by
  unfold Accounts.spawn
  split
  · exact h
  · rename_i p hp
    split
    · exact h
    · rename_i hroom
      rw [not_or, not_lt, not_lt] at hroom
      refine h.place hp rfl rfl ?_ hroom.2
      dsimp only
      omega

theorem Inv.workerStart (slot : Nat) : Inv (s.workerStart slot) := by
  unfold Accounts.workerStart
  split
  · exact h
  · rename_i p hp
    split
    · exact h
    · rename_i hroom
      rw [not_lt] at hroom
      exact h.place hp rfl rfl hroom (h.endpoints slot p hp)

theorem Inv.shrink (hlen : s'.len = s.len) (hnext : s'.nextPid = s.nextPid)
    (hends : s'.endpointsLen = s.endpointsLen)
    (htasks : ∀ i u, s'.tasks i = some u → ∃ t, s.tasks i = some t ∧ (u = t ∨ u = { t with exited := true }))
    (hcreated : ∀ e, s'.endpoints e = true → s.endpoints e = true)
    (howner : ∀ e o, s'.endpointOwner e = some o → s.endpointOwner e = some o) : Inv s' := by
  have hsame : ∀ i u, s'.tasks i = some u → ∃ t, s.tasks i = some t ∧ u.pid = t.pid ∧
      u.parent = t.parent := by
    intro i u hu
    obtain ⟨t, ht, rfl | rfl⟩ := htasks i u hu
    · exact ⟨_, ht, rfl, rfl⟩
    · exact ⟨t, ht, rfl, rfl⟩
  have hlive : ∀ i u, s'.live i = some u → s.live i = some u := by
    intro i u hu
    obtain ⟨hu, he⟩ := live_some.mp hu
    obtain ⟨t, ht, rfl | rfl⟩ := htasks i u hu
    · exact live_some.mpr ⟨ht, he⟩
    · cases he
  have hreserve : ∀ q owner, s'.reserved q owner ≤ s.reserved q owner := by
    intro q owner
    refine reserved_le hlen ?_
    intro i
    unfold reserve
    split
    · rename_i u hu
      split
      · rename_i hc
        obtain ⟨t, ht, rfl | rfl⟩ := htasks i u hu
        · rw [ht]
          simp only [hc, and_self, if_true, le_refl]
        · cases hc.1
      · exact Nat.zero_le _
    · exact Nat.zero_le _
  have hown : ∀ owner, (s'.created owner).card ≤ (s.created owner).card := by
    intro owner
    refine Finset.card_le_card ?_
    intro e he
    obtain ⟨hr, hu, ho⟩ := Finset.mem_filter.mp he
    exact Finset.mem_filter.mpr ⟨hends ▸ hr, hcreated e hu, howner e _ ho⟩
  refine ⟨?_, ?_, ?_, ?_, hlen ▸ h.len, ?_, hends ▸ h.ends, ?_, ?_⟩
  · intro i u hu
    obtain ⟨t, ht, -⟩ := hsame i u hu
    rw [hlen]
    exact h.slots i t ht
  · intro i u hu
    obtain ⟨t, ht, hpid, -⟩ := hsame i u hu
    rw [hnext, hpid]
    exact h.pids i t ht
  · intro i u o hu ho
    obtain ⟨t, ht, hpid, hpar⟩ := hsame i u hu
    rw [hpid]
    exact h.older i t o ht (hpar ▸ ho)
  · intro e o ho
    rw [hnext]
    exact h.owners e o (howner e o ho)
  · intro e he
    rw [hends]
    exact h.inUse e (hcreated e he)
  · intro i u hu
    exact (hreserve _ _).trans (h.tasks i u (hlive i u hu))
  · intro i u hu
    exact (Nat.add_le_add (hown _) (hreserve _ _)).trans (h.endpoints i u (hlive i u hu))

theorem Inv.terminate (slot : Nat) : Inv (s.terminate slot) := by
  unfold Accounts.terminate
  split
  · exact h
  · split
    · exact h.shrink rfl rfl rfl (fun i u hu => ⟨u, hu, .inl rfl⟩) (fun _ => id) (fun _ _ => id)
    · refine h.shrink rfl rfl rfl ?_ (fun _ => id) (fun _ _ => id)
      intro i u hu
      obtain ⟨t, ht, rfl⟩ := Option.map_eq_some_iff.mp hu
      refine ⟨t, ht, ?_⟩
      split
      · exact .inr rfl
      · exact .inl rfl

theorem Inv.reap (runs used : Nat → Bool) : Inv (s.reap runs used) := by
  refine h.shrink rfl rfl rfl ?_ ?_ ?_
  · intro i u hu
    exact ⟨u, (Option.filter_eq_some_iff.mp hu).1, .inl rfl⟩
  · intro e he
    exact (Bool.and_eq_true_iff.mp he).1
  · intro e o ho
    simp only [Accounts.reap] at ho
    split at ho
    · exact ho
    · cases ho

theorem created_card_le (hp : s.live slot = some p)
    (hroom : s.usedEndpoints (slot, p.pid) < p.quotaEndpoints) (owner : Ref) :
    ((s.endpointCreate slot).created owner).card ≤
      (s.created owner).card + if owner = (slot, p.pid) then 1 else 0 := by
  have hsub : (s.endpointCreate slot).created owner ⊆
      s.created owner ∪ if owner = (slot, p.pid) then {newEndpoint s.endpoints s.endpointsLen} else ∅ := by
    intro e he
    obtain ⟨-, hu, ho⟩ := Finset.mem_filter.mp he
    simp only [Accounts.endpointCreate, hp, if_neg (not_le.mpr hroom)] at hu ho
    by_cases hen : e = newEndpoint s.endpoints s.endpointsLen
    · subst e
      simp only [update_self, Option.some.injEq] at ho
      rw [if_pos ho.symm]
      exact Finset.mem_union_right _ (Finset.mem_singleton_self _)
    · rw [update_of_ne hen] at hu ho
      exact Finset.mem_union_left _
        (Finset.mem_filter.mpr ⟨Finset.mem_range.mpr (h.inUse e hu), hu, ho⟩)
  refine (Finset.card_le_card hsub).trans ((Finset.card_union_le _ _).trans ?_)
  split <;> simp

theorem Inv.endpointCreate (slot : Nat) : Inv (s.endpointCreate slot) := by
  cases hp : s.live slot with
  | none => simpa only [Accounts.endpointCreate, hp] using h
  | some p =>
    by_cases hroom : s.usedEndpoints (slot, p.pid) ≥ p.quotaEndpoints
    · simpa only [Accounts.endpointCreate, hp, if_pos hroom] using h
    · have hcard := created_card_le h hp (not_le.mp hroom)
      rw [Accounts.endpointCreate, hp] at hcard ⊢
      dsimp only at hcard ⊢
      rw [if_neg hroom] at hcard ⊢
      have hle := Sched.newEndpoint_le s.endpoints s.endpointsLen
      have hends := h.ends
      have hwide : s.endpointsLen ≤ (if newEndpoint s.endpoints s.endpointsLen = s.endpointsLen then
            2 * s.endpointsLen else s.endpointsLen) ∧
          newEndpoint s.endpoints s.endpointsLen < (if newEndpoint s.endpoints s.endpointsLen = s.endpointsLen then
            2 * s.endpointsLen else s.endpointsLen) := by
        split <;> omega
      refine ⟨h.slots, h.pids, h.older, ?_, h.len, ?_, hends.trans_le hwide.1, h.tasks, ?_⟩
      · intro e o ho
        by_cases he : e = newEndpoint s.endpoints s.endpointsLen
        · subst e
          simp only [update_self, Option.some.injEq] at ho
          rw [← ho]
          exact h.pids slot p (live_some.mp hp).1
        · simp only [update_of_ne he] at ho
          exact h.owners e o ho
      · intro e he
        by_cases hen : e = newEndpoint s.endpoints s.endpointsLen
        · rw [hen]
          exact hwide.2
        · simp only [update_of_ne hen] at he
          exact (h.inUse e he).trans_le hwide.1
      · intro i u hu
        have hold := h.endpoints i u hu
        have hc := hcard (i, u.pid)
        refine (Nat.add_le_add_right hc _).trans ?_
        split
        · rename_i he
          obtain ⟨rfl, -⟩ : i = slot ∧ u.pid = p.pid := by simpa using he
          cases hp.symm.trans hu
          exact (Nat.add_right_comm _ _ _).trans_le (not_le.mp hroom)
        · exact hold

theorem Inv.act (a : Act) : Inv (act a s) := by
  unfold Accounts.act
  split
  · exact h
  · cases a with
    | spawn slot quotaTasks quotaEndpoints => exact h.spawn slot quotaTasks quotaEndpoints
    | workerStart slot => exact h.workerStart slot
    | endpointCreate slot => exact h.endpointCreate slot
    | terminate slot => exact h.terminate slot
    | reap runs used => exact h.reap runs used

end

end Steps

theorem start_tasks (h : start.tasks i = some t) :
    i = 1 ∧ t = { pid := 1, exited := false, parent := none, quotaTasks := quotaMax,
                  quotaEndpoints := quotaMax, workerOf := none } := by
  simp only [start] at h
  split at h
  · exact ⟨‹_›, (Option.some.inj h).symm⟩
  · cases h

theorem inv_start : Inv start := by
  refine ⟨?_, ?_, ?_, ?_, by decide, ?_, by decide, ?_, ?_⟩
  · intro i t h
    obtain ⟨rfl, -⟩ := start_tasks h
    decide
  · intro i t h
    obtain ⟨-, rfl⟩ := start_tasks h
    decide
  · intro i t p h hp
    obtain ⟨-, rfl⟩ := start_tasks h
    cases hp
  · intro e p h
    simp only [start] at h
    split at h
    · cases h
      decide
    · cases h
  · intro e h
    simp only [start, Bool.or_eq_true, beq_iff_eq] at h
    simp only [start, endpointsFirst]
    omega
  · intro i t h
    obtain ⟨rfl, rfl⟩ := start_tasks (live_some.mp h).1
    decide
  · intro i t h
    obtain ⟨rfl, rfl⟩ := start_tasks (live_some.mp h).1
    decide

theorem Reached.inv (h : Reached s) : Inv s := by
  induction h with
  | start => exact inv_start
  | step a _ ih => exact ih.act a

/-! ### Subtrees of live tasks -/

def liveSlots (s : Accounts) : Finset Nat := (Finset.range s.len).filter fun i => (s.live i).isSome

/-- The spawner's slot while the spawner lives, as `descends_from` follows it. -/
def liveParent (s : Accounts) (slot : Nat) : Option Nat :=
  match s.live slot with
  | none => none
  | some t => match t.parent with
    | none => none
    | some (p, pid) => match s.live p with
      | none => none
      | some u => if u.pid = pid then some p else none

def pidOf (s : Accounts) (slot : Nat) : Nat :=
  match s.tasks slot with
  | some t => t.pid
  | none => 0

theorem liveParent_some {c p : Nat} : s.liveParent c = some p ↔
    ∃ t u, s.live c = some t ∧ s.live p = some u ∧ t.parent = some (p, u.pid) := by
  unfold liveParent
  constructor
  · intro h
    split at h
    · cases h
    · rename_i t ht
      split at h
      · cases h
      · rename_i p' pid hp
        split at h
        · cases h
        · rename_i u hu
          split at h
          · cases h
            subst pid
            exact ⟨t, u, ht, hu, hp⟩
          · cases h
  · rintro ⟨t, u, ht, hu, hp⟩
    simp [ht, hp, hu]

def roomOf (q : Task → Nat) (s : Accounts) (slot : Nat) : Nat :=
  match s.live slot with
  | some t => q t
  | none => 0

/-- The live children's room is what `used_tasks` and `used_endpoints` add up. -/
theorem children_room_le (ht : s.live i = some t) (q : Task → Nat) :
    ∑ c ∈ children s.liveSlots s.liveParent i, s.roomOf q c ≤ s.reserved q (i, t.pid) := by
  have hterm : ∀ c ∈ children s.liveSlots s.liveParent i, s.roomOf q c = s.reserve q (i, t.pid) c := by
    intro c hc
    obtain ⟨u, v, hu, hv, hp⟩ := liveParent_some.mp (Finset.mem_filter.mp hc).2
    rw [ht] at hv
    cases hv
    obtain ⟨hut, hul⟩ := live_some.mp hu
    simp only [roomOf, hu, reserve, hut, hul, hp, and_self, if_true]
  rw [Finset.sum_congr rfl hterm]
  refine Finset.sum_le_sum_of_subset ?_
  exact (Finset.filter_subset _ _).trans (Finset.filter_subset _ _)

/-- The live tasks a live task is connected to by live spawners are within its task quota, and the
endpoints in use that it and they created within its endpoint quota. -/
theorem quotas_bound_live_subtrees {s : Accounts} (hr : Reached s) {i : Nat} {t : Task}
    (ht : s.live i = some t) :
    ((below s.liveSlots s.liveParent i).erase i).card ≤ t.quotaTasks ∧
      ((below s.liveSlots s.liveParent i).biUnion fun j => s.created (j, s.pidOf j)).card ≤
        t.quotaEndpoints := by
  have hi := hr.inv
  have hrank : ∀ c p, s.liveParent c = some p → s.pidOf p < s.pidOf c := by
    intro c p h
    obtain ⟨u, v, hu, hv, hp⟩ := liveParent_some.mp h
    have hut := (live_some.mp hu).1
    simp only [pidOf, hut, (live_some.mp hv).1]
    exact hi.older c u _ hut hp
  have hmem : i ∈ s.liveSlots := Finset.mem_filter.mpr
    ⟨Finset.mem_range.mpr (hi.slots i t (live_some.mp ht).1).2, by rw [ht]; rfl⟩
  constructor
  · have hcard := card_owned_below_le (fun j => {j}) (s.roomOf fun t => 1 + t.quotaTasks) hrank ?_ hmem
    · rw [Finset.biUnion_singleton_eq_self] at hcard
      simp only [roomOf, ht] at hcard
      have hself : i ∈ below s.liveSlots s.liveParent i := mem_below.mpr ⟨hmem, Relation.ReflTransGen.refl⟩
      rw [Finset.card_erase_of_mem hself]
      omega
    · intro j hj
      obtain ⟨u, hu⟩ := Option.isSome_iff_exists.mp (Finset.mem_filter.mp hj).2
      have hsum := children_room_le hu fun t => 1 + t.quotaTasks
      have hroom := hi.tasks j u hu
      rw [usedTasks] at hroom
      simp only [roomOf, hu, Finset.card_singleton] at hsum ⊢
      omega
  · have hcard := card_owned_below_le (fun j => s.created (j, s.pidOf j)) (s.roomOf Task.quotaEndpoints)
      hrank ?_ hmem
    · simpa only [roomOf, ht] using hcard
    · intro j hj
      obtain ⟨u, hu⟩ := Option.isSome_iff_exists.mp (Finset.mem_filter.mp hj).2
      have hsum := children_room_le hu Task.quotaEndpoints
      have hroom := hi.endpoints j u hu
      rw [usedEndpoints] at hroom
      simp only [pidOf, (live_some.mp hu).1]
      simp only [roomOf, hu] at hsum ⊢
      omega

/-! ### A task between that ends -/

/-- Whether the task with PID `pid` was spawned by the one with PID `by_` or by one of its issue. -/
def issueOf (s : Accounts) (by_ : Nat) : Nat → Nat → Bool
  | 0, _ => false
  | fuel + 1, pid => match s.bornOf pid with
    | none => false
    | some parent => parent == by_ || issueOf s by_ fuel parent

def liveIssue (s : Accounts) (by_ : Nat) : Finset Nat :=
  (Finset.range s.len).filter fun i =>
    (s.live i).isSome ∧ s.issueOf by_ s.nextPid (s.pidOf i) = true

def run (s : Accounts) (as : List Act) : Accounts := as.foldl (fun s a => act a s) s

theorem Reached.run (h : Reached s) (as : List Act) : Reached (run s as) := by
  induction as generalizing s with
  | nil => exact h
  | cons a as ih => exact ih (h.step a)

/-- Task 2 may have two tasks under it. Its child 3 spawns task 4 and ends; the reservation comes back,
and task 2 spawns task 5, which spawns task 6. -/
def outlived : Accounts :=
  run start [.spawn 1 2 0, .spawn 2 1 0, .spawn 3 0 0, .terminate 3, .spawn 2 1 0, .spawn 5 0 0]

theorem outlived_counts :
    (outlived.live 2).map Task.quotaTasks = some 2 ∧ (liveIssue outlived 2).card = 3 := by
  decide +kernel

theorem issue_over_quota : Reached outlived ∧
    (outlived.live 2).map Task.quotaTasks = some 2 ∧ (liveIssue outlived 2).card = 3 :=
  ⟨Reached.start.run _, outlived_counts⟩

/-- Of its live issue only two tasks hang on it by live spawners. -/
theorem outlived_subtree : (outlived.live 2).isSome = true ∧
      ((below outlived.liveSlots outlived.liveParent 2).erase 2).card ≤ 2 := by
  obtain ⟨t, ht, hq⟩ := Option.map_eq_some_iff.mp outlived_counts.1
  refine ⟨by rw [ht]; rfl, ((quotas_bound_live_subtrees (Reached.start.run _) ht).1).trans ?_⟩
  exact hq.le

end Accounts

end MindCore.Kernel.Quota
