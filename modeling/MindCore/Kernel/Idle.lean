import MindCore.Kernel.Select

/-!
# The turn of idle

The boot CPU reaps in its idle loop, so what a task that ended had comes back only when idle has its turn:
when a select of that CPU finds all its tasks at rest.
-/

namespace MindCore.Kernel.Sched

open Function
open List

namespace Scheduler

variable {a : Act} {cpu now : Nat}

theorem nextIn_ready (slots : List Nat) (current : Nat) (ready : Nat → Bool) :
    nextIn slots current ready = 0 ∨ ready (nextIn slots current ready) = true := by
  unfold nextIn
  dsimp only
  cases hf : find? ready _ with
  | none => exact .inl rfl
  | some i => exact .inr (find?_some hf)

variable {s s' : Scheduler} {slot : Nat}

theorem pick_ready (s : Scheduler) (cpu : Nat) :
    s.pick cpu = 0 ∨ ∃ band, s.ready (s.pick cpu) cpu band = true := by
  unfold pick
  split
  · exact (nextIn_ready _ _ _).imp_right fun h => ⟨_, h⟩
  · rename_i next hne
    rcases nextIn_ready (s.mine cpu) (s.cursor cpu).1 (fun i => s.ready i cpu .system) with h | h
    · exact absurd h hne
    · exact .inr ⟨_, h⟩

theorem ready_task {band : Band} (h : s.ready slot cpu band = true) (h0 : slot ≠ 0) :
    ∃ t, s.tasks slot = some t ∧ t.cpu = cpu ∧ hasBudget t = true ∧ t.state = .ready := by
  unfold ready at h
  rw [if_neg h0] at h
  split at h
  · cases h
  · rename_i t ht
    simp only [Bool.and_eq_true, beq_iff_eq] at h
    exact ⟨t, ht, h.1.1.1.1, h.1.1.2, h.1.2⟩

/-- All the tasks of a CPU rest. -/
def AtRest (cpu now : Nat) (s : Scheduler) : Prop :=
  ∀ i t, s.tasks i = some t → t.cpu = cpu → Rests now t

theorem select_current (s : Scheduler) (cpu now : Nat) :
    (s.select cpu now).current = Function.update s.current cpu ((s.settle cpu now).pick cpu) := by
  simp only [select, (keeps_settle s cpu now).current]

theorem AtRest.picks_idle (h : AtRest cpu now s) : (s.select cpu now).current cpu = 0 := by
  rw [select_current, update_self]
  rcases pick_ready (s.settle cpu now) cpu with h0 | ⟨band, hband⟩
  · exact h0
  · by_contra h0
    obtain ⟨t', ht', hcpu, hbudget, hready⟩ := ready_task hband h0
    obtain ⟨t, ht, hcpu', -, hrests⟩ := (keeps_settle s cpu now).origin ht'
    have hrest : Rests now t' := hrests (h _ t ht (hcpu'.symm.trans hcpu))
    simp only [hasBudget, Bool.or_eq_true, beq_iff_eq, decide_eq_true_eq] at hbudget
    rcases hrest with hwait | hspent
    · exact hwait.1 hready
    · omega

/-! ### The exited tasks -/

/-- A task that ended lies in the table, run by no CPU but the boot CPU at most. No other task has the
endpoints `E`, which are in use, and nothing else keeps the regions `M`, which are its own. -/
structure Lies (slot : Nat) (E M : Set Nat) (s : Scheduler) : Prop where
  ended : ∃ t, s.tasks slot = some t ∧ t.state = .exited ∧ ∀ r ∈ M, r ∈ t.goods.owns
  apart : ∀ cpu, cpu ≠ 0 → s.current cpu ≠ slot
  used : ∀ e ∈ E, e ≠ 0 ∧ s.endpoints e = true
  names : ∀ e ∈ E, ∀ i t, s.tasks i = some t → i ≠ slot → e ∉ t.goods.endpoints
  kept : ∀ r ∈ M, r ∉ s.orphans
  owns : ∀ r ∈ M, ∀ i t, s.tasks i = some t → i ≠ slot → r ∉ t.goods.owns
  reaches : ∀ r ∈ M, ∀ i t, s.tasks i = some t → i ≠ slot → r ∉ t.goods.reaches

/-- The task is out of the table, and what it alone had is free again. -/
structure Returned (slot : Nat) (E M : Set Nat) (s : Scheduler) : Prop where
  out : s.tasks slot = none
  endpoints : ∀ e ∈ E, s.endpoints e = false
  memory : ∀ r ∈ M, s.free r = true

section Lies
variable {E M : Set Nat} {R : Task → Prop}

theorem Listed.among_iff (hl : Listed s) {p : Task → Bool} :
    among s.tasks s.chunks p = true ↔ ∃ i t, s.tasks i = some t ∧ p t = true := by
  simp only [among, any_eq_true, mem_range, Option.any_eq_true]
  constructor
  · rintro ⟨i, -, t, ht, hp⟩
    exact ⟨i, t, ht, hp⟩
  · rintro ⟨i, t, ht, hp⟩
    exact ⟨i, hl.within i t ht, t, ht, hp⟩

theorem Listed.free_iff (hl : Listed s) {r : Nat} : s.free r = true ↔ r ∉ s.orphans ∧
    ∀ i t, s.tasks i = some t → r ∉ t.goods.owns ∧ r ∉ t.goods.reaches := by
  have h := @Listed.among_iff s hl fun t => t.goods.owns.contains r || t.goods.reaches.contains r
  simp only [Bool.or_eq_true, contains_iff_mem] at h
  rw [free, Bool.and_eq_true, Bool.not_eq_true', Bool.not_eq_true', ← Bool.not_eq_true, ← Bool.not_eq_true, h,
    contains_iff_mem]
  grind

/-- What a task has after a trade it had before, or it lives and took it where nobody had it or from a
task that lives. -/
structure Fair (s : Scheduler) (t : Task) (g : Goods) : Prop where
  ended : t.state = .exited → g.owns = t.goods.owns
  endpoints : ∀ e ∈ g.endpoints, e ∈ t.goods.endpoints ∨ s.endpoints e = false ∨
    ∃ i u, s.tasks i = some u ∧ u.state ≠ .exited ∧ e ∈ u.goods.endpoints
  owns : ∀ r ∈ g.owns, r ∈ t.goods.owns ∨ s.free r = true
  reaches : ∀ r ∈ g.reaches, r ∈ t.goods.reaches ∨
    ∃ i u, s.tasks i = some u ∧ u.state ≠ .exited ∧ (r ∈ u.goods.owns ∨ r ∈ u.goods.reaches)

theorem Listed.fair (hl : Listed s) {t : Task} {g : Goods} (h : s.fair t g = true) : Fair s t g := by
  unfold Scheduler.fair at h
  split at h
  · simp only [Bool.and_eq_true, beq_iff_eq, all_eq_true, contains_iff_mem] at h
    obtain ⟨⟨howns, hends⟩, hreaches⟩ := h
    exact ⟨fun _ => howns, fun e he => .inl (hends e he), fun r hr => .inl (howns ▸ hr),
      fun r hr => .inl (hreaches r hr)⟩
  · rename_i hlives
    simp only [Bool.and_eq_true, all_eq_true, Bool.or_eq_true, Bool.not_eq_true', contains_iff_mem, living,
      hl.among_iff, bne_iff_ne] at h
    obtain ⟨⟨hends, howns⟩, hreaches⟩ := h
    exact ⟨fun he => absurd he hlives, fun e he => .inr (hends e he), howns, fun r hr => .inr (hreaches r hr)⟩

theorem Lies.ne_zero (h : Lies slot E M s) (hl : Listed s) : slot ≠ 0 := by
  obtain ⟨t, ht, -⟩ := h.ended
  rintro rfl
  rw [hl.idle] at ht
  cases ht

theorem Lies.keeps (h : Lies slot E M s) (hk : Keeps R s s') : Lies slot E M s' := by
  refine ⟨?_, ?_, ?_, ?_, ?_, ?_, ?_⟩
  · obtain ⟨t, ht, he, hm⟩ := h.ended
    obtain ⟨f, hf, hkeep⟩ := hk.tasks slot
    obtain ⟨-, -, hg, hended, -⟩ := hkeep t
    exact ⟨f t, by rw [hf, ht]; rfl, hended he, hg ▸ hm⟩
  · rw [hk.current]
    exact h.apart
  · rw [hk.endpoints]
    exact h.used
  · intro e he i t' ht'
    obtain ⟨t, ht, -, hg, -⟩ := hk.origin ht'
    exact hg ▸ h.names e he i t ht
  · rw [hk.orphans]
    exact h.kept
  · intro r hr i t' ht'
    obtain ⟨t, ht, -, hg, -⟩ := hk.origin ht'
    exact hg ▸ h.owns r hr i t ht
  · intro r hr i t' ht'
    obtain ⟨t, ht, -, hg, -⟩ := hk.origin ht'
    exact hg ▸ h.reaches r hr i t ht

/-- A CPU picks no task that ended. -/
theorem Lies.pick_ne (h : Lies slot E M s) (h0 : slot ≠ 0) (cpu : Nat) : s.pick cpu ≠ slot := by
  rintro rfl
  obtain ⟨t, ht, he, -⟩ := h.ended
  rcases pick_ready s cpu with hp | ⟨band, hband⟩
  · exact h0 hp
  · obtain ⟨t', ht', -, -, hready⟩ := ready_task hband h0
    rw [ht, Option.some.injEq] at ht'
    rw [← ht', he] at hready
    cases hready

theorem Lies.select (h : Lies slot E M s) (hl : Listed s) (cpu now : Nat) :
    Lies slot E M (s.select cpu now) := by
  have hs := h.keeps (keeps_settle s cpu now)
  refine ⟨hs.ended, ?_, hs.used, hs.names, hs.kept, hs.owns, hs.reaches⟩
  intro c hc
  rw [select_current, update_apply]
  split
  · exact hs.pick_ne (h.ne_zero hl) cpu
  · exact h.apart c hc

theorem Lies.spawn (h : Lies slot E M s) (hl : Listed s) (cpu : Nat) (band : Band) :
    Lies slot E M (s.spawn cpu band) := by
  obtain ⟨-, hfree, -⟩ := freeSlot_spec hl
  obtain ⟨⟨t, ht, hend⟩, hapart, hused, hnames, hkept, howns, hreaches⟩ := h
  refine ⟨⟨t, ?_, hend⟩, hapart, hused, ?_, hkept, ?_, ?_⟩
  · simp only [Scheduler.spawn]
    grind
  all_goals
    simp only [Scheduler.spawn]
    grind

/-- Nobody gets what lies with a task that ended. -/
theorem Lies.trade (h : Lies slot E M s) (hl : Listed s) (i : Nat) (g : Goods) :
    Lies slot E M (s.trade i g) := by
  rcases trade_cases s i g with he | ⟨t, ht, hf, htasks, hend, horph, -, hcur⟩
  · rw [he]
    exact h
  obtain ⟨hended, hends, howns, hreaches⟩ := hl.fair hf
  obtain ⟨⟨u, hu, hexit, hm⟩, hapart, hused, hnames, hkept, hown, hreach⟩ := h
  have hfree : ∀ r ∈ M, s.free r = false := by
    intro r hr
    rw [← Bool.not_eq_true, hl.free_iff]
    grind
  refine ⟨?_, hcur ▸ hapart, fun e he => ⟨(hused e he).1, hend e (hused e he).2⟩, ?_, ?_, ?_, ?_⟩ <;> grind

theorem Lies.reapable (h : Lies slot E M s) (hl : Listed s) (hcur : s.current 0 = 0) :
    s.reapable slot = true := by
  obtain ⟨t, ht, he, -⟩ := h.ended
  have h0 := h.ne_zero hl
  have hnone : (List.range cpuMax).any (fun cpu => s.current cpu == slot) = false := by
    rw [any_eq_false]
    intro cpu _
    by_cases hc : cpu = 0
    · simpa [hc, hcur] using h0.symm
    · simpa using h.apart cpu hc
  simp [Scheduler.reapable, h0, hnone, ht, he]

theorem Lies.idle (h : Lies slot E M s) (hl : Listed s) (hcur : s.current 0 = 0) :
    Returned slot E M s.reap := by
  have hreap := h.reapable hl hcur
  obtain ⟨⟨t, ht, -⟩, -, hused, hnames, hkept, howns, hreaches⟩ := h
  have hout : s.reap.tasks slot = none := if_pos ⟨hl.within slot t ht, hreap⟩
  have horigin : ∀ i u, s.reap.tasks i = some u → s.tasks i = some u ∧ i ≠ slot := by
    intro i u hu
    refine ⟨(reap_tasks hu).1, ?_⟩
    rintro rfl
    rw [hout] at hu
    cases hu
  refine ⟨hout, ?_, ?_⟩
  · intro e he
    have hnone : among s.reap.tasks s.reap.chunks (fun t => t.goods.endpoints.contains e) = false := by
      rw [← Bool.not_eq_true, hl.reap.among_iff]
      grind
    have h0 := (hused e he).1
    change (e == 0 || _) = false
    rw [Bool.or_eq_false_iff, beq_eq_false_iff_ne]
    exact ⟨h0, hnone⟩
  · intro r hr
    rw [hl.reap.free_iff]
    have hnone : referenced s.reap.tasks s.reap.chunks r = false := by
      rw [referenced, ← Bool.not_eq_true, hl.reap.among_iff]
      grind
    refine ⟨?_, by grind⟩
    intro hmem
    have hmem' : r ∈ s.orphans ∨ referenced s.reap.tasks s.reap.chunks r = true := by
      simp only [Scheduler.reap] at hmem ⊢
      split at hmem <;> simp only [mem_filter, mem_append] at hmem <;> tauto
    rw [hnone] at hmem'
    exact hkept r hr (hmem'.resolve_right (by simp))

/-- A task that ended lies there until a pass of the idle loop takes it out. -/
theorem Lies.act (h : Lies slot E M s) (hl : Listed s) (a : Act) :
    Lies slot E M (act a s) ∨ Returned slot E M (Scheduler.act a s) := by
  cases a with
  | select cpu now => exact .inl (h.select hl cpu now)
  | idle =>
    simp only [Scheduler.act]
    split
    · exact .inr (h.idle hl ‹_›)
    · exact .inl h
  | spawn cpu band => exact .inl (h.spawn hl cpu band)
  | trade i g => exact .inl (h.trade hl i g)
  | _ => exact .inl (h.keeps (keeps_act (by trivial) s))

theorem Lies.run (h : Lies slot E M s) (hl : Listed s) (as : List Act) :
    Lies slot E M (run s as) ∨ ∃ n ≤ as.length, Returned slot E M (Scheduler.run s (as.take n)) := by
  induction as generalizing s with
  | nil => exact .inl h
  | cons a as ih =>
    rcases h.act hl a with h' | hout
    · rcases ih h' (hl.act a) with h' | ⟨n, hn, hout⟩
      · exact .inl h'
      · exact .inr ⟨n + 1, by simpa using hn, hout⟩
    · exact .inr ⟨1, by simp, by simpa [Scheduler.run] using hout⟩

end Lies

theorem act_current (h : ∀ now, a ≠ .select cpu now) : (act a s).current cpu = s.current cpu := by
  cases a with
  | select c now =>
    have hne : cpu ≠ c := by
      rintro rfl
      exact h now rfl
    simp only [act, select_current, update_of_ne hne]
  | idle =>
    simp only [act]
    split <;> rfl
  | trade i g =>
    simp only [act, trade]
    grind
  | _ => rfl

theorem run_append (s : Scheduler) (as bs : List Act) : run s (as ++ bs) = run (run s as) bs :=
  foldl_append

theorem run_current {as : List Act} (h : ∀ a ∈ as, ∀ now, a ≠ .select cpu now) :
    (run s as).current cpu = s.current cpu := by
  induction as generalizing s with
  | nil => rfl
  | cons a as ih =>
    rw [forall_mem_cons] at h
    exact (ih h.2).trans (act_current h.1)

theorem Listed.run (h : Listed s) (as : List Act) : Listed (run s as) := by
  induction as generalizing s with
  | nil => exact h
  | cons a as ih => exact ih (h.act a)

/-- Among the acts the boot CPU selects while all its tasks rest, and its loop makes a pass before the
CPU's next select. -/
def Pauses (s : Scheduler) (as : List Act) : Prop :=
  ∃ before now between after, as = before ++ .select 0 now :: between ++ .idle :: after ∧
    AtRest 0 now (run s before) ∧ ∀ a ∈ between, ∀ now', a ≠ .select 0 now'

/-- A select of a CPU whose tasks all rest picks idle. Every task that ended is taken out of the table, with
the endpoints and the memory it alone had, within any acts among which the boot CPU pauses so. -/
theorem idle_has_its_turn {s : Scheduler} (hr : Reached s) (as : List Act) :
    (∀ cpu now before, AtRest cpu now (run s before) →
      (run s (before ++ [.select cpu now])).current cpu = 0) ∧
    (Pauses s as → ∀ slot E M, Lies slot E M s →
      ∃ n ≤ as.length, Returned slot E M (run s (as.take n))) := by
  have hidle : ∀ cpu now before, AtRest cpu now (run s before) →
      (run s (before ++ [.select cpu now])).current cpu = 0 := by
    intro cpu now before hrest
    rw [run_append]
    exact hrest.picks_idle
  refine ⟨hidle, ?_⟩
  rintro ⟨before, now, between, after, rfl, hrest, hb⟩ slot E M h
  have hl := hr.listed
  set upto := before ++ .select 0 now :: between with hupto
  rcases h.run hl upto with h' | ⟨n, hn, hout⟩
  · have hcur : (run s upto).current 0 = 0 := by
      rw [hupto, append_cons, run_append, run_current hb]
      exact hidle 0 now before hrest
    refine ⟨upto.length + 1, by simp, ?_⟩
    rw [take_append, take_of_length_le (Nat.le_succ _), Nat.add_sub_cancel_left, run_append]
    have hpass : run (run s upto) [.idle] = (run s upto).reap := if_pos hcur
    exact hpass ▸ h'.idle (hl.run _) hcur
  · refine ⟨n, by simp only [length_append]; omega, ?_⟩
    rw [take_append_of_le_length hn]
    exact hout

theorem Reached.run (h : Reached s) (as : List Act) : Reached (run s as) := by
  induction as generalizing s with
  | nil => exact h
  | cons a as ih => exact ih (h.step a)

theorem Listed.all (hl : Listed s) {p : Nat → Task → Bool}
    (h : ((List.range (s.chunks * chunk)).all fun i => (s.tasks i).all (p i)) = true) {i : Nat} {t : Task}
    (ht : s.tasks i = some t) : p i t = true := by
  have := all_eq_true.mp h i (mem_range.mpr (hl.within i t ht))
  rwa [ht] at this

/-- Two applications; the second, with an endpoint and a region of its own, has ended. -/
def busy : Scheduler :=
  run start [.spawn 0 .application, .spawn 0 .application, .trade 2 ⟨[3], [7], []⟩, .select 0 0, .select 0 0,
    .become 2 .exited, .select 0 0]

theorem reached_busy : Reached busy := Reached.start.run _

theorem lies_busy : Lies 2 {3} {7} busy := by
  have hothers : ∀ i t, busy.tasks i = some t → i ≠ 2 → t.goods = ⟨[], [], []⟩ := by
    intro i t ht hi
    have := reached_busy.listed.all (p := fun i t => i == 2 || t.goods == ⟨[], [], []⟩) (by decide +kernel) ht
    simpa [hi] using this
  have hended : (busy.tasks 2).any (fun t => t.state == .exited && t.goods == ⟨[3], [7], []⟩) = true := by
    decide +kernel
  refine ⟨?_, ?_, ?_, ?_, ?_, ?_, ?_⟩
  · obtain ⟨t, ht, he⟩ := Option.any_eq_true .. |>.mp hended
    simp only [Bool.and_eq_true, beq_iff_eq] at he
    exact ⟨t, ht, he.1, by simp [he.2]⟩
  · intro cpu hcpu
    rw [busy, run_current (by simp [hcpu.symm])]
    exact Nat.zero_ne_add_one 1
  · rintro e rfl
    exact ⟨by decide, by decide +kernel⟩
  rotate_left
  · rintro r rfl
    decide +kernel
  all_goals
    intro x _ i t ht hi
    simp [hothers i t ht hi]

def rounds : List Act := [.select 0 0, .idle, .select 0 0, .idle, .select 0 0, .idle]

/-- Three selects in a row, more than the two applications there are, all pick the first one: idle has no
turn, and the task that ended is still in the table with what it had, though no CPU runs it. -/
theorem idle_starves : Reached busy ∧ Lies 2 {3} {7} busy ∧
    (∀ i t, busy.tasks i = some t → t.band = .application) ∧
    [1, 3, 5].map (fun n => (run busy (rounds.take n)).current 0) = [1, 1, 1] ∧
    (run busy rounds).reapable 2 = true ∧ (run busy rounds).endpoints 3 = true ∧
    (run busy rounds).free 7 = false := by
  refine ⟨reached_busy, lies_busy, ?_, by decide +kernel, by decide +kernel, by decide +kernel,
    by decide +kernel⟩
  intro i t ht
  simpa using reached_busy.listed.all (p := fun _ t => t.band == .application) (by decide +kernel) ht

/-- Once the application sleeps, the next select picks idle, and its pass takes the ended task out. -/
theorem idle_after_rest : ∃ n ≤ 5, Returned 2 {3} {7} (run busy
    ([.select 0 5, .become 1 (.sleeping 9), .select 0 6, .flush 1, .idle].take n)) := by
  have hrest : AtRest 0 6 (run busy [.select 0 5, .become 1 (.sleeping 9)]) := by
    intro i t ht _
    simpa using (reached_busy.run _).listed.all (p := fun _ t => decide (Rests 6 t)) (by decide +kernel) ht
  exact (idle_has_its_turn reached_busy _).2
    ⟨[.select 0 5, .become 1 (.sleeping 9)], 6, [.flush 1], [], rfl, hrest, by simp⟩ 2 {3} {7} lies_busy

end Scheduler

end MindCore.Kernel.Sched
