import MindCore.Kernel.Ipc

/-!
# What messages do to tasks

The operations that move messages edit one task after another and write beside them: notices, bindings, the
log. A property of systems that is `Closed` under both is kept by all of them. A transfer only makes nodes.
-/

namespace MindCore.Kernel.Ipc

open List
open Sched (State)

namespace System

/-- An edit of a task. What it is given, and what it sends, satisfies `G`. -/
inductive Edit (G : Pending → Prop) (t : Task) : Task → Prop
  | clear (index : Nat) : Edit G t (t.clear index)
  | arrive (index : Nat) (p : Pending) (given : G p) :
    Edit G t ((t.clear index).put ⟨index, p.cap, p.node⟩)
  | rest {u : Task} (table : u.table = t.table) (maps : u.maps = t.maps)
    (pending : u.pending = t.pending ∨ ∀ p, u.pending = some p → G p) : Edit G t u

/-- The tasks and the ledger stay. -/
structure Beside (s s' : System) : Prop where
  tasks : s'.tasks = s.tasks
  made : s'.made = s.made
  origin : s'.origin = s.origin
  next : s'.nextNode = s.nextNode

structure Closed (G : Pending → Prop) (P : System → Prop) : Prop where
  edit : ∀ {s slot t u}, P s → s.tasks slot = some t → Edit G t u → P (s.set slot u)
  beside : ∀ {s s'}, P s → Beside s s' → P s'
  pending : ∀ {s slot t p}, P s → s.tasks slot = some t → t.pending = some p → G p

section
variable {G : Pending → Prop} {slot : Nat} {t u : Task} {s : System}

theorem Edit.keep (table : u.table = t.table) (maps : u.maps = t.maps) (pending : u.pending = t.pending) :
    Edit G t u :=
  .rest table maps (.inl pending)

theorem Edit.cancel (table : u.table = t.table) (maps : u.maps = t.maps) (pending : u.pending = none) :
    Edit G t u := by
  refine .rest table maps (.inr ?_)
  rw [pending]
  nofun

theorem beside_tell (s : System) (e : Event) : Beside s (s.tell e) := ⟨rfl, rfl, rfl, rfl⟩

theorem modify_none (h : s.tasks slot = none) (f : Task → Task) : s.modify slot f = s := by
  have hm : s.tasks.modify slot f = s.tasks := by
    unfold Table.modify
    congr 1
    rw [h]
    exact Function.update_eq_self_iff.mpr h.symm
  rw [modify, hm]

theorem modify_eq_set (h : s.tasks slot = some t) (f : Task → Task) : s.modify slot f = s.set slot (f t) := by
  have hlen := Table.lt_len h
  unfold modify set Table.modify Table.set
  congr 2
  · rw [h]
    rfl
  · omega

end

/-! ### Who is blocked -/

variable {s : System} {i : Nat} {state : State}

theorem inState_spec (h : s.inState state i = true) : ∃ t, s.tasks i = some t ∧ t.state = state := by
  unfold inState at h
  split at h
  · rename_i t ht
    exact ⟨t, ht, by simpa using h⟩
  · cases h

theorem blocked_spec (h : s.blocked state = some i) : ∃ t, s.tasks i = some t ∧ t.state = state :=
  inState_spec (find?_some h)

theorem foldl_pick {P : Nat → Prop} (f : Option Nat → Nat → Option Nat)
    (hf : ∀ best i j, f best i = some j → j = i ∨ best = some j) (l : List Nat) (hl : ∀ i ∈ l, P i)
    (best : Option Nat) (hb : ∀ j, best = some j → P j) (h : l.foldl f best = some i) : P i := by
  induction l generalizing best with
  | nil => exact hb i h
  | cons x l ih =>
    refine ih (fun i hi => hl i (mem_cons_of_mem x hi)) (f best x) ?_ h
    intro j hj
    rcases hf best x j hj with rfl | hj
    · exact hl j mem_cons_self
    · exact hb j hj

theorem firstSender_spec {ep : Nat} (h : s.firstSender ep = some i) :
    ∃ t, s.tasks i = some t ∧ t.state = .blockedSend ep := by
  refine foldl_pick (P := fun i => ∃ t, s.tasks i = some t ∧ t.state = .blockedSend ep) _ ?_ _ ?_ none ?_ h
  · intro best i j hj
    split at hj
    · cases hj
      exact .inl rfl
    · split at hj
      · cases hj
        exact .inl rfl
      · exact .inr hj
  · intro i hi
    exact inState_spec (mem_filter.mp hi).2
  · nofun

/-! ### The operations -/

section
variable {G : Pending → Prop} {P : System → Prop} (hP : Closed G P) (h : P s)
include hP h

theorem Closed.modify (slot : Nat) (f : Task → Task) (hf : ∀ t, Edit G t (f t)) : P (s.modify slot f) := by
  cases ht : s.tasks slot with
  | none =>
    rw [modify_none ht]
    exact h
  | some t =>
    rw [modify_eq_set ht]
    exact hP.edit h ht (hf t)

theorem Closed.fail (slot : Nat) (outcome : Outcome) : P (s.fail slot outcome) := by
  unfold System.fail
  split
  · rename_i t ht
    refine hP.beside ?_ (beside_tell _ _)
    exact hP.edit h ht (.keep rfl rfl rfl)
  · exact h

theorem Closed.handOver (sender receiver receive : Nat) {p : Option Pending} (hp : ∀ q, p = some q → G q) :
    P (s.handOver sender receiver p receive) := by
  unfold System.handOver
  split
  · rename_i p
    have harrive : ∀ t, Edit G t ((t.clear receive).put ⟨receive, p.cap, p.node⟩) :=
      fun t => .arrive receive p (hp p rfl)
    split
    · refine hP.beside ?_ (beside_tell _ _)
      unfold place
      split
      · exact hP.modify h _ _ harrive
      · split
        · split
          · exact hP.modify (hP.modify h _ _ fun t => .clear _) _ _ harrive
          · exact h
        · exact h
    · exact h
  · exact h

theorem Closed.deliver (ep sender receiver : Nat) : P (s.deliver ep sender receiver) := by
  unfold System.deliver
  split
  · rename_i f r hf hr
    have hsent : P ((s.set sender { f with pending := none }).tell (.message sender receiver ep)) := by
      refine hP.beside ?_ (beside_tell _ _)
      exact hP.edit h hf (.cancel rfl rfl rfl)
    have hready := hP.modify (hP.handOver hsent sender receiver r.receive fun q hq => hP.pending h hf hq) receiver
      (fun r => { r with state := .ready }) fun t => .keep rfl rfl rfl
    split
    · have hcall := hP.modify (hP.modify hready sender (fun t => { t with callSeq := f.callSeq + 1 }) fun t =>
        .keep rfl rfl rfl) receiver (fun r => { r with replyTo := some ⟨sender, f.pid, f.callSeq + 1⟩ }) fun t =>
        .keep rfl rfl rfl
      refine hP.beside ?_ (beside_tell _ _)
      refine hP.modify ?_ _ _ fun t => .keep rfl rfl rfl
      split
      · split
        · exact hP.fail hcall _ _
        · exact hcall
      · exact hcall
    · exact hP.modify hready _ _ fun t => .keep rfl rfl rfl
  · exact h

theorem Closed.tellIf (b : Bool) (e : Event) : P (s.tellIf b e) := hP.beside h ⟨rfl, rfl, rfl, rfl⟩

theorem Closed.compose (q : SendRequest) (badge slot : Nat) {pending : Option Pending}
    (hp : ∀ p, pending = some p → G p) : P (s.compose q badge slot pending) := by
  refine hP.tellIf ?_ _ _
  have hsent : P { s with sendSeq := s.sendSeq + 1 } := hP.beside h ⟨rfl, rfl, rfl, rfl⟩
  exact hP.modify hsent _ _ fun t => .rest rfl rfl (.inr hp)

theorem Closed.ipcRecv (index receive slot : Nat) (timed : Bool) (t : Task) :
    P (ipcRecv index receive timed slot t s) := by
  have hr := hP.modify h slot (fun t => { t with receive := receive }) fun t => .keep rfl rfl rfl
  unfold System.ipcRecv
  split
  · exact h
  · split
    · exact h
    · dsimp only
      split
      · exact hP.beside hr ⟨rfl, rfl, rfl, rfl⟩
      · split
        · exact hP.beside hr ⟨rfl, rfl, rfl, rfl⟩
        · split
          · exact hP.deliver hr _ _ _
          · exact hP.modify hr _ _ fun t => .keep rfl rfl rfl

theorem Closed.postExit (ep pid reason : Nat) : P (s.postExit ep pid reason) := by
  unfold System.postExit
  split
  · exact hP.modify h _ _ fun t => .keep rfl rfl rfl
  · split
    · exact hP.beside h ⟨rfl, rfl, rfl, rfl⟩
    · exact h

theorem Closed.wakeStranded (i : Nat) : P (s.wakeStranded i) := by
  unfold System.wakeStranded
  split
  · rename_i t ht
    split
    · split
      · exact h
      · split
        · refine hP.fail ?_ _ _
          exact hP.edit h ht (.cancel rfl rfl rfl)
        · exact hP.edit h ht (.cancel rfl rfl rfl)
    · exact h
  · exact h

theorem Closed.failWaiting (server i : Nat) : P (s.failWaiting server i) := by
  unfold System.failWaiting
  split
  · exact hP.fail h _ _
  · exact h

theorem Closed.terminate (slot reason : Nat) : P (s.terminate slot reason) := by
  unfold System.terminate
  split
  · exact h
  · rename_i t ht
    split
    · exact h
    · have hexit : P ((s.set slot { t with state := .exited, pending := none }).tellIf t.calling
          (.gone slot t.sendSeq)) := by
        refine hP.tellIf ?_ _ _
        exact hP.edit h ht (.cancel rfl rfl rfl)
      refine List.foldlRecOn _ _ ?_ fun s h i _ => hP.failWaiting h slot i
      refine List.foldlRecOn _ _ ?_ fun s h i _ => hP.wakeStranded h i
      unfold leave
      split
      · exact hP.postExit hexit _ _ _
      · exact hexit

theorem Closed.expire (slot : Nat) : P (s.expire slot) := by
  unfold System.expire
  split
  · exact h
  · rename_i t ht
    have hclear : P (s.set slot { t with pending := none, timed := false }) :=
      hP.edit h ht (.cancel rfl rfl rfl)
    split
    · split
      · exact hP.fail hclear _ _
      · exact hP.modify hclear _ _ fun t => .keep rfl rfl rfl
    · exact h

theorem Closed.raiseIrq (line : Nat) : P (s.raiseIrq line) := by
  refine List.foldlRecOn _ _ h ?_
  intro s h b _
  split
  · split
    · exact hP.modify h _ _ fun t => .keep rfl rfl rfl
    · exact hP.beside h ⟨rfl, rfl, rfl, rfl⟩
  · exact h

end

/-! ### Calls that make nodes -/

section
variable {s s' s'' : System}

/-- Only the ledger, the numbers of endpoints, the objects or the revocations change. -/
structure Aside (s s' : System) : Prop where
  tasks : s'.tasks = s.tasks
  log : s'.log = s.log
  sent : s'.sendSeq = s.sendSeq
  pids : s'.nextPid = s.nextPid

theorem Aside.refl (s : System) : Aside s s := ⟨rfl, rfl, rfl, rfl⟩

theorem Aside.trans (h : Aside s s') (h' : Aside s' s'') : Aside s s'' :=
  ⟨h'.tasks.trans h.tasks, h'.log.trans h.log, h'.sent.trans h.sent, h'.pids.trans h.pids⟩

end

theorem root_aside (s : System) (cap : Capability) : Aside s (s.root cap).1 := ⟨rfl, rfl, rfl, rfl⟩

theorem child_aside (s : System) (x : Slot) (cap : Capability) : Aside s (s.child x cap).1 :=
  ⟨rfl, rfl, rfl, rfl⟩

theorem transfer_aside (s : System) (t : Task) (n : Named) : Aside s (s.transfer t n).1 := by
  unfold transfer
  split
  · exact .refl s
  · split
    · exact .refl s
    · split
      · exact .refl s
      · split
        · exact .refl s
        · split
          · exact .refl s
          · exact child_aside s _ _

theorem offer_aside (s : System) (t : Task) (n : Option Named) : Aside s (s.offer t n).1 := by
  cases n with
  | none => exact .refl s
  | some n => exact transfer_aside s t n

theorem grants_aside (service : Bool) (t : Task) (gs : List Grant) {s s' : System} {table : List Slot}
    {moves : List Nat} (hg : grants service t gs s = some (s', table, moves)) : Aside s s' := by
  induction gs generalizing s s' table moves with
  | nil =>
    obtain ⟨rfl, -, -⟩ := hg
    exact .refl s
  | cons g rest ih =>
    simp only [grants] at hg
    split at hg
    · cases hg
    · have ha := transfer_aside s t g.own
      split at hg
      · cases hg
      · rename_i s₁ p heq
        rw [heq] at ha
        split at hg
        · rename_i cap s₂ tab mvs hcap hrest
          obtain ⟨rfl, -, -⟩ := hg
          exact ha.trans (ih hrest)
        · cases hg

end System

end MindCore.Kernel.Ipc
