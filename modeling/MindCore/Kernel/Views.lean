import MindCore.Kernel.AnswersRun
import MindCore.Kernel.Cspace
import MindCore.Kernel.Idle
import MindCore.Kernel.NoGrowth
import MindCore.Kernel.Quota

/-!
# One scheduler

`Ipc`, `Sched`, `Quota`, `Cspace` and `Caps` are views of one scheduler. What the first three share is the
tasks that there are: a `Census`. A table of `Cspace` is the table of a task of `Ipc`, and what a step of a
revocation in `Caps` takes is what `Ipc` strikes.
-/

namespace MindCore.Kernel

/-! ### The tasks that there are -/

/-- For each slot the number of its task and whether that has ended, and the next number. -/
structure Census where
  task : Nat → Option (Nat × Bool)
  next : Nat

namespace Census

def empty : Census := ⟨fun _ => none, 1⟩

inductive Move (c : Census) : Census → Prop
  | enter {i : Nat} (hi : c.task i = none) : Move c ⟨Function.update c.task i (some (c.next, false)), c.next + 1⟩
  | leave {f : Nat → Option (Nat × Bool)}
    (hf : ∀ i, f i = c.task i ∨ ∃ pid, c.task i = some (pid, false) ∧ f i = some (pid, true)) : Move c ⟨f, c.next⟩
  | bury {f : Nat → Option (Nat × Bool)}
    (hf : ∀ i, f i = c.task i ∨ f i = none ∧ ∃ pid, c.task i = some (pid, true)) : Move c ⟨f, c.next⟩

abbrev Reaches : Census → Census → Prop := Relation.ReflTransGen Move

/-- A number is given once. -/
structure Serial (c : Census) : Prop where
  old : ∀ i p, c.task i = some p → p.1 < c.next
  apart : ∀ i j p q, c.task i = some p → c.task j = some q → p.1 = q.1 → i = j

variable {c c' : Census}

/-- A move that enters nobody. -/
theorem Serial.of_old (h : Serial c) {f : Nat → Option (Nat × Bool)}
    (hf : ∀ i p, f i = some p → ∃ q, c.task i = some q ∧ q.1 = p.1) : Serial ⟨f, c.next⟩ := by
  refine ⟨?_, ?_⟩
  · intro i p hp
    obtain ⟨q, hq, he⟩ := hf i p hp
    exact he ▸ h.old i q hq
  · intro i j p q hp hq heq
    obtain ⟨p', hp', he⟩ := hf i p hp
    obtain ⟨q', hq', he'⟩ := hf j q hq
    exact h.apart i j p' q' hp' hq' (by rw [he, he', heq])

theorem Serial.move (h : Serial c) (hm : Move c c') : Serial c' := by
  cases hm with
  | @enter k hk =>
    have hcases : ∀ i p, Function.update c.task k (some (c.next, false)) i = some p →
        i = k ∧ p = (c.next, false) ∨ c.task i = some p := by
      intro i p hp
      by_cases hi : i = k
      · rw [hi, Function.update_self, Option.some.injEq] at hp
        exact .inl ⟨hi, hp.symm⟩
      · exact .inr ((Function.update_of_ne hi _ _).symm.trans hp)
    refine ⟨?_, ?_⟩
    · intro i p hp
      rcases hcases i p hp with ⟨-, rfl⟩ | hp
      · exact Nat.lt_succ_self _
      · exact (h.old i p hp).trans (Nat.lt_succ_self _)
    · intro i j p q hp hq he
      rcases hcases i p hp with ⟨hi, rfl⟩ | hp' <;> rcases hcases j q hq with ⟨hj, rfl⟩ | hq'
      · exact hi.trans hj.symm
      · exact absurd (h.old j q hq') (he ▸ lt_irrefl _)
      · exact absurd (h.old i p hp') (he ▸ lt_irrefl _)
      · exact h.apart i j p q hp' hq' he
  | leave hf =>
    apply h.of_old
    intro i p hp
    rcases hf i with he | ⟨pid, hq, he⟩
    · exact ⟨p, he.symm.trans hp, rfl⟩
    · rw [he, Option.some.injEq] at hp
      subst hp
      exact ⟨_, hq, rfl⟩
  | bury hf =>
    apply h.of_old
    intro i p hp
    rcases hf i with he | ⟨he, -⟩
    · exact ⟨p, he.symm.trans hp, rfl⟩
    · rw [he] at hp
      cases hp

theorem Reaches.serial (h : Reaches empty c) : Serial c := by
  induction h with
  | refl => exact ⟨nofun, nofun⟩
  | tail _ hm ih => exact ih.move hm

theorem Reaches.of_eq (h : c' = c) : Reaches c c' := h ▸ .refl

theorem Reaches.enter {i : Nat} (hi : c.task i = none) (hn : c'.next = c.next + 1)
    (hf : ∀ j, c'.task j = if j = i then some (c.next, false) else c.task j) : Reaches c c' := by
  obtain ⟨f, n⟩ := c'
  have he : f = Function.update c.task i (some (c.next, false)) := by
    funext j
    rw [Function.update_apply]
    exact hf j
  subst he hn
  exact .single (.enter hi)

end Census

/-! ### Messages -/

namespace Calls

def Phase.isGone : Phase → Bool
  | .gone => true
  | _ => false

def World.census (w : World) : Census := ⟨fun i => (w.party i).map fun p => (p.pid, p.phase.isGone), w.pids⟩

namespace World
variable {K : Prop} {w w' : World} {i : Nat} {p p' : Party}

theorem census_put (w : World) (i : Nat) (p : Party) :
    (w.put i p).census = ⟨Function.update w.census.task i (some (p.pid, p.phase.isGone)), w.pids⟩ := by
  simp only [census, put, Census.mk.injEq, and_true]
  funext j
  by_cases hj : j = i
  · subst hj
    simp
  · simp [Function.update_of_ne hj]

theorem census_same (hp : w.party i = some p) (hpid : p'.pid = p.pid) (hg : p'.phase.isGone = p.phase.isGone) :
    (w.put i p').census = w.census := by
  rw [census_put, hpid, hg, Function.update_eq_self_iff.mpr]
  · rfl
  · simp [census, hp]

theorem not_gone (h : p.phase.Open) : p.phase.isGone = false := by
  cases hp : p.phase with
  | gone => rw [hp] at h; exact h.elim
  | _ => rfl

theorem move_leave (hp : w.party i = some p) (hg : p.phase.isGone = false) (hp' : p'.pid = p.pid)
    (hg' : p'.phase.isGone = true) : w.census.Reaches (w.put i p').census := by
  rw [census_put, hp', hg']
  refine .single (.leave fun j => ?_)
  by_cases hj : j = i
  · subst hj
    exact .inr ⟨p.pid, by simp [census, hp, hg], Function.update_self ..⟩
  · exact .inl (Function.update_of_ne hj ..)

theorem move_census (h : Move K w w') : w.census.Reaches w'.census := by
  cases h with
  | count | bury => exact .refl
  | ask hp hi => exact .of_eq (census_same hp rfl (by rw [hi]; rfl))
  | @receive x y p q hp ha hq hi =>
    have hne : x ≠ y := by
      rintro rfl
      rw [hp, Option.some.injEq] at hq
      rw [hq, hi] at ha
      cases ha
    let w₁ := w.put y { q with rights := insert ⟨x, p.pid, p.seq + 1⟩ q.rights }
    have hserver : w₁.census = w.census := census_same hq rfl rfl
    have hclient : (w₁.put x { p with phase := .waits y, seq := p.seq + 1 }).census = w₁.census :=
      census_same ((put_of_ne w hne _).trans hp) rfl (by rw [ha]; rfl)
    exact .of_eq (hclient.trans hserver)
  | answer hp ho => exact .of_eq (census_same hp rfl (not_gone ho).symm)
  | lose hq => exact .of_eq (census_same hq rfl rfl)
  | @spawn i hi =>
    refine .enter (i := i) (by simp [census, hi]) rfl fun j => ?_
    simp only [census_put, Function.update_apply]
    rfl
  | die hp hi => exact move_leave hp (by rw [hi]; rfl) rfl rfl
  | dieCalling hp ho => exact move_leave hp (not_gone ho) rfl rfl
  | reap hf =>
    refine .single (.bury fun j => ?_)
    rcases hf j with he | ⟨he, hgone⟩
    · exact .inl (congrArg _ he)
    · cases hp : w.party j with
      | none => exact .inl (by simp [census, he, hp])
      | some p =>
        refine .inr ⟨by simp [he], p.pid, ?_⟩
        simp [census, hp, hgone p hp, Phase.isGone]

end World

end Calls

namespace Ipc.System
variable {s : System}

def census (s : System) : Census := ⟨fun i => (s.tasks i).map fun t => (t.pid, t.state == .exited), s.nextPid⟩

theorem world_census (s : System) : (s.world none ∅).census = s.census := by
  simp only [census, Calls.World.census, world, Option.map_map, Census.mk.injEq, and_true]
  funext i
  congr 1
  funext t
  simp only [Function.comp, Task.view, Task.phase]
  cases t.state with
  | blockedSend ep => cases t.pendingCall <;> rfl
  | _ => rfl

theorem Reached.counted (h : Reached s) : Census.empty.Reaches s.census := by
  induction h with
  | start =>
    refine .enter (i := 1) rfl rfl fun j => ?_
    by_cases hj : j = 1
    · subst hj
      rfl
    · simp [System.census, System.start, hj, Census.empty]
  | step a hr ih =>
    refine ih.trans ?_
    rw [← world_census, ← world_census]
    exact (act_simulated hr.bounded hr.calls.1 a).1.lift' _ fun _ _ hm => Calls.World.move_census hm

end Ipc.System

/-! ### Scheduling -/

namespace Sched.Scheduler
variable {s s' : Scheduler}

def census (s : Scheduler) : Census := ⟨fun i => (s.tasks i).map fun t => (t.pid, t.state == .exited), s.nextPid⟩

theorem Keeps.counted {R : Task → Prop} (h : Keeps R s s') : s.census.Reaches s'.census := by
  have hm : s.census.Move ⟨s'.census.task, s.census.next⟩ := by
    refine .leave fun i => ?_
    obtain ⟨f, hf, hkeep⟩ := h.tasks i
    simp only [census, hf]
    cases s.tasks i with
    | none => exact .inl rfl
    | some t =>
      obtain ⟨hpid, -, -, hend, -⟩ := hkeep t
      simp only [Option.map_some, hpid]
      by_cases ht : t.state = .exited
      · rw [hend ht, ht]
        exact .inl rfl
      · by_cases hft : (f t).state = .exited
        · exact .inr ⟨t.pid, by simp [ht], by simp [hft]⟩
        · exact .inl (by simp [ht, hft])
  have he : s'.census = ⟨s'.census.task, s.census.next⟩ := congrArg _ h.nextPid
  rw [he]
  exact .single hm

theorem reap_counted (s : Scheduler) : s.census.Reaches s.reap.census := by
  refine .single (.bury fun i => ?_)
  by_cases hi : i < s.chunks * chunk ∧ s.reapable i = true
  · refine .inr ⟨by simp [Scheduler.reap, hi], ?_⟩
    have hreap := hi.2
    simp only [reapable, Bool.and_eq_true] at hreap
    cases ht : s.tasks i with
    | none => simp [ht] at hreap
    | some t =>
      rw [ht] at hreap
      exact ⟨t.pid, by simpa [census, ht] using hreap.2⟩
  · exact .inl (by simp only [census, Scheduler.reap, if_neg hi])

theorem spawn_counted (h : Listed s) (cpu : Nat) (band : Band) : s.census.Reaches (s.spawn cpu band).census := by
  refine .enter (i := s.freeSlot) (by simp [census, (freeSlot_spec h).2.1]) rfl fun i => ?_
  by_cases hi : i = s.freeSlot
  · subst hi
    simp [census, spawn]
  · simp [census, spawn, hi]

theorem trade_counted (s : Scheduler) (slot : Nat) (g : Goods) : (s.trade slot g).census = s.census := by
  unfold trade
  split
  · rfl
  · rename_i t ht
    split
    · simp only [census, Census.mk.injEq, and_true]
      funext i
      by_cases hi : i = slot
      · subst hi
        simp [ht]
      · simp [Function.update_of_ne hi]
    · rfl

theorem Reached.counted (h : Reached s) : Census.empty.Reaches s.census := by
  induction h with
  | start => exact .refl
  | @step s a hr ih =>
    refine ih.trans ?_
    cases a with
    | select cpu now => exact (keeps_settle s cpu now).counted
    | idle =>
      simp only [act]
      split
      · exact reap_counted s
      · exact .refl
    | spawn cpu band => exact spawn_counted hr.listed cpu band
    | trade slot goods => exact Census.Reaches.of_eq (trade_counted s slot goods)
    | _ => exact (keeps_act (by trivial) s).counted

end Sched.Scheduler

/-! ### Quotas -/

namespace Quota.Accounts
variable {s : Accounts}

def census (s : Accounts) : Census := ⟨fun i => (s.tasks i).map fun t => (t.pid, t.exited), s.nextPid⟩

theorem place_counted (h : Inv s) (t : Task) (ht : t.exited = false) : s.census.Reaches (s.place t).census := by
  refine .enter (i := s.freeSlot) (by simp [census, (freeSlot_spec h).2.1]) rfl fun i => ?_
  by_cases hi : i = s.freeSlot
  · subst hi
    simp [census, place, ht]
  · simp [census, place, hi]

theorem terminate_counted (s : Accounts) (slot : Nat) : s.census.Reaches (s.terminate slot).census := by
  unfold terminate
  split
  · exact .refl
  · rename_i t ht
    split
    · exact .refl
    · refine .single (.leave fun i => ?_)
      cases hi : s.tasks i with
      | none => exact .inl (by simp [census, hi])
      | some u =>
        by_cases hu : i = slot ∨ u.workerOf = some (slot, t.pid)
        · cases hx : u.exited with
          | true => exact .inl (by simp [census, hi, hu, hx])
          | false => exact .inr ⟨u.pid, by simp [census, hi, hx], by simp [hi, hu]⟩
        · exact .inl (by simp [census, hi, hu])

theorem reap_counted (s : Accounts) (runs used : Nat → Bool) : s.census.Reaches (s.reap runs used).census := by
  refine .single (.bury fun i => ?_)
  cases hi : s.tasks i with
  | none => exact .inl (by simp [census, Accounts.reap, hi])
  | some t =>
    by_cases ht : t.exited = true ∧ runs i = false
    · exact .inr ⟨by simp [Accounts.reap, hi, ht], t.pid, by simp [census, hi, ht.1]⟩
    · have hkeep : (!(t.exited && !runs i)) = true := by
        by_contra hn
        exact ht (by simpa using hn)
      exact .inl (by simp only [census, Accounts.reap, hi, Option.filter_some, hkeep, if_true])

theorem act_counted (h : Inv s) (a : Act) : s.census.Reaches (act a s).census := by
  unfold act
  split
  · exact .refl
  cases a with
  | spawn slot quotaTasks quotaEndpoints =>
    dsimp only
    unfold spawn
    repeat' split
    · exact .refl
    · exact .refl
    · exact place_counted h _ rfl
  | workerStart slot =>
    dsimp only
    unfold workerStart
    repeat' split
    · exact .refl
    · exact .refl
    · exact place_counted h _ rfl
  | endpointCreate slot =>
    dsimp only
    unfold endpointCreate
    repeat' split
    all_goals exact .refl
  | terminate slot => exact terminate_counted s slot
  | reap runs used => exact reap_counted s runs used

theorem Reached.counted (h : Reached s) : Census.empty.Reaches s.census := by
  induction h with
  | start =>
    have he : Accounts.start.census = Ipc.System.start.census := by
      simp only [census, Ipc.System.census, Accounts.start, Ipc.System.start, Census.mk.injEq, and_true]
      funext i
      split <;> rfl
    rw [he]
    exact Ipc.System.Reached.start.counted
  | step a hr ih => exact ih.trans (act_counted hr.inv a)

end Quota.Accounts

/-- The three have their tasks from one census: each number is given once, and two tasks never share one. -/
theorem one_census : (∀ s, Ipc.System.Reached s → Census.empty.Reaches s.census ∧ s.census.Serial) ∧
    (∀ s, Sched.Scheduler.Reached s → Census.empty.Reaches s.census ∧ s.census.Serial) ∧
    ∀ s, Quota.Accounts.Reached s → Census.empty.Reaches s.census ∧ s.census.Serial :=
  ⟨fun _ h => ⟨h.counted, h.counted.serial⟩, fun _ h => ⟨h.counted, h.counted.serial⟩,
    fun _ h => ⟨h.counted, h.counted.serial⟩⟩

/-! ### Tables -/

namespace Cspace
open Ipc (Capability Node)
variable {t : Ipc.Task} {c c' : Task} {i : Nat}

/-- The table of the task lists the occupied slots. -/
def Tabled (t : Ipc.Task) (c : Task) : Prop :=
  ∀ i, (t.cap i).map (fun x => (x.cap, x.node)) = (c.cspace i).map fun cap => (cap, c.nodes i)

theorem Tabled.emptied (h : Tabled t c) (hi : c'.cspace i = none)
    (hj : ∀ j, j ≠ i → c'.cspace j = c.cspace j ∧ c'.nodes j = c.nodes j) : Tabled (t.clear i) c' := by
  intro j
  by_cases he : j = i
  · subst he
    rw [Ipc.Task.cap_clear_self, hi]
    rfl
  · rw [Ipc.Task.cap_clear_of_ne t he, (hj j he).1, (hj j he).2]
    exact h j

theorem Tabled.filled (h : Tabled t c) {cap : Capability} {node : Node} (hi : c'.cspace i = some cap)
    (hn : c'.nodes i = node) (hj : ∀ j, j ≠ i → c'.cspace j = c.cspace j ∧ c'.nodes j = c.nodes j) :
    Tabled ((t.clear i).put ⟨i, cap, node⟩) c' := by
  intro j
  rw [Ipc.Task.cap_put]
  by_cases he : j = i
  · subst he
    rw [if_pos rfl, hi, hn]
    rfl
  · rw [if_neg (Ne.symm he), Ipc.Task.cap_clear_of_ne t he, (hj j he).1, (hj j he).2]
    exact h j

theorem Tabled.room (h : Tabled t c) (hc : Inv c) {grows : Bool} (hr : c.room grows = some (i, c')) : Tabled t c' := by
  rw [Task.room, Option.bind_eq_some_iff] at hr
  obtain ⟨j, -, hr⟩ := hr
  split_ifs at hr
  · cases hr
    intro k
    rw [h k]
    rcases Nat.lt_or_ge k c.len with hk | hk
    · simp [hk]
    · simp [hk.not_gt, (hc.slots k hk).1]
  · cases hr
    exact h

theorem Tabled.clear (h : Tabled t c) (i : Nat) : Tabled (t.clear i) (c.clear i) :=
  h.emptied (by simp [Task.clear]) fun j hj => by simp [Task.clear, hj]

/-- What the kernel does to a table is an edit of the task's. -/
theorem Tabled.step (h : Tabled t c) (hc : Inv c) (hs : Step c c') :
    ∃ t', Ipc.System.Edit (fun _ => True) t t' ∧ Tabled t' c' := by
  have hstore : ∀ {u : Task} (i : Nat) (cap : Capability) (node : Node), Tabled t u →
      Tabled ((t.clear i).put ⟨i, cap, node⟩) (u.store i cap node) := fun i cap node hu =>
    hu.filled (Function.update_self ..) (Function.update_self ..) fun j hj => by simp [Task.store, hj]
  cases hs with
  | room hr => exact ⟨t, .keep rfl rfl rfl, h.room hc hr⟩
  | insert hr =>
    rw [Task.insert, Option.map_eq_some_iff] at hr
    obtain ⟨⟨i, u⟩, hu, hr⟩ := hr
    cases hr
    exact ⟨_, .arrive i ⟨_, _, none⟩ trivial, hstore i _ _ (h.room hc hu)⟩
  | @clear i => exact ⟨_, .clear i, h.clear i⟩
  | @remove i =>
    rw [Task.remove]
    split
    · exact ⟨t, .keep rfl rfl rfl, h⟩
    · exact ⟨_, .clear i, h.clear i⟩
  | @placeFrom i _ _ _ hp =>
    rw [Task.placeFrom] at hp
    split_ifs at hp
    cases hp
    exact ⟨_, .clear i, h.clear i⟩
  | @placeTo i cap node =>
    refine ⟨_, .arrive i ⟨cap, node, none⟩ trivial, h.filled ?_ ?_ fun j hj => ?_⟩
    · simp [Task.placeTo, Task.store]
    · simp [Task.placeTo, Task.store]
    · rw [Task.placeTo, Task.remove]
      split <;> simp [Task.store, Task.clear, hj]

end Cspace

/-! ### Revocations -/

namespace Caps
variable {s : Ipc.System} {c : Caps} {root : Nat}

/-- Each node was derived from what the ledger says, and one in a table is held. -/
structure Nodes (s : Ipc.System) (c : Caps) : Prop where
  born : ∀ id, c.born id = ((s.origin id).map Prod.fst).getD 0
  next : c.next = s.nextNode + 1
  revoking : ∀ r ∈ c.revoking, r ∈ s.revoking
  held : ∀ i t x, s.tasks i = some t → x ∈ t.table → c.held x.node.id = true

theorem Nodes.derives (h : Nodes s c) (hy : ∀ i, c.born i ≠ 0 → c.born i < i) {d fuel : Nat}
    (hu : Under c root d) (hd : d ≤ fuel) : s.derives root fuel d = true := by
  have hup : ∀ d n, c.born d ≠ 0 → s.derives root n (c.born d) = true → s.derives root (n + 1) d = true := by
    intro d n hne hn
    cases horigin : s.origin d with
    | none => exact absurd ((h.born d).trans (by rw [horigin]; rfl)) hne
    | some p =>
      have ho : c.born d = p.1 := (h.born d).trans (by rw [horigin]; rfl)
      rw [ho] at hn
      simp [Ipc.System.derives, horigin, hn]
  induction hu generalizing fuel with
  | @child d hborn hne =>
    have hlt := hy d (hborn ▸ hne)
    obtain ⟨n, rfl⟩ := Nat.exists_eq_succ_of_ne_zero (Nat.ne_of_gt (Nat.zero_lt_of_lt (hlt.trans_le hd)))
    refine hup d n (hborn ▸ hne) ?_
    rw [hborn]
    cases n <;> simp [Ipc.System.derives]
  | @step d hne _ ih =>
    have hlt := hy d hne
    obtain ⟨n, rfl⟩ := Nat.exists_eq_succ_of_ne_zero (Nat.ne_of_gt (Nat.zero_lt_of_lt (hlt.trans_le hd)))
    exact hup d n hne (ih (Nat.le_of_lt_succ (hlt.trans_le hd)))

theorem Nodes.strike (h : Nodes s c) (hy : ∀ i, c.born i ≠ 0 → c.born i < i) (hr : root ∈ c.revoking) {id : Nat}
    (hu : Under c root id) (hid : id < c.next) : Nodes (s.strike root id) (c.letGo id) := by
  have hdoom : s.doomed root id = true := by
    simp only [Ipc.System.doomed, Bool.and_eq_true, decide_eq_true_eq, bne_iff_ne]
    exact ⟨⟨h.revoking root hr, (hu.lt hy).ne'⟩, h.derives hy hu (Nat.le_of_lt_succ (hid.trans_eq h.next))⟩
  rw [Ipc.System.strike, if_pos hdoom]
  refine ⟨h.born, h.next, h.revoking, fun i t x ht hx => ?_⟩
  obtain ⟨u, hu, rfl⟩ := Option.map_eq_some_iff.mp ht
  obtain ⟨hmem, hne⟩ := List.mem_filter.mp hx
  exact (if_neg (by simpa using hne)).trans (h.held i u x hu hmem)

theorem Nodes.strikes (hy : ∀ i, c.born i ≠ 0 → c.born i < i) (hr : root ∈ c.revoking) (ids : List Nat)
    (hu : ∀ id ∈ ids, Under c root id ∧ id < c.next) (h : Nodes s c) :
    Nodes (ids.foldl (fun s id => s.strike root id) s) { c with held := fun d => c.held d && !ids.contains d } := by
  induction ids generalizing s c with
  | nil => simpa using h
  | cons id ids ih =>
    obtain ⟨hid, hlt⟩ := hu id List.mem_cons_self
    have hrest := ih (c := c.letGo id) hy hr (fun k hk => ?_) (h.strike hy hr hid hlt)
    · refine ⟨hrest.born, hrest.next, hrest.revoking, fun i t x ht hx => ?_⟩
      have hx := hrest.held i t x ht hx
      simp only [letGo] at hx
      grind
    · obtain ⟨hk, hlt⟩ := hu k (List.mem_cons_of_mem _ hk)
      exact ⟨hk.congr rfl, hlt⟩

/-- What a step of a revocation takes from its place in the tree, the system strikes from its tables. -/
theorem Nodes.step (h : Nodes s c) (hw : Whole c) {cpu : Nat} {j : Revocation} (hj : c.jobs cpu = some j) :
    ∃ ids : List Nat, Nodes (ids.foldl (fun s id => s.strike j.root id) s) (c.act (.step cpu)) := by
  have hsound := hw.sound
  rw [← setJob_self hj] at hsound
  obtain ⟨-, -, hborn, hnext, -, hheld⟩ :=
    walk_walks (j.stack.length + 2 * revokeStepNodes) revokeStepNodes hsound.walks
  have hrev := (walk_rest (j.stack.length + 2 * revokeStepNodes) revokeStepNodes j c).2.2.1
  have hact : (c.act (.step cpu)).born = c.born ∧ (c.act (.step cpu)).next = c.next ∧
      (∀ r ∈ (c.act (.step cpu)).revoking, r ∈ c.revoking) ∧
      ∀ d, ¬Under c j.root d → (c.act (.step cpu)).held d = c.held d := by
    simp only [act, hj, proceed]
    split
    · exact ⟨hborn, hnext, fun r hr => hrev ▸ List.mem_of_mem_erase hr, hheld⟩
    · exact ⟨hborn, hnext, fun r hr => hrev ▸ hr, hheld⟩
  obtain ⟨hborn, hnext, hrev, hheld⟩ := hact
  let ids := (List.range c.next).filter fun d => c.held d && !(c.act (.step cpu)).held d
  have hids : ∀ d ∈ ids, Under c j.root d ∧ d < c.next := by
    intro d hd
    obtain ⟨hlt, hlost⟩ := List.mem_filter.mp hd
    refine ⟨?_, List.mem_range.mp hlt⟩
    by_contra hnot
    rw [hheld d hnot] at hlost
    simp at hlost
  have hall := Nodes.strikes hw.sound.kept.younger (hw.listed cpu j hj) ids hids h
  refine ⟨ids, hborn ▸ hall.born, hnext ▸ hall.next, fun r hr => hall.revoking r (hrev r hr), ?_⟩
  intro i t x ht hx
  have hx := hall.held i t x ht hx
  have hlt := (hw.sound.kept.filed.held_lt (Bool.and_eq_true_iff.mp hx).1).2
  grind

end Caps

end MindCore.Kernel
