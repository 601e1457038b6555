import MindCore.Kernel.AuthorityRun
import MindCore.Kernel.Calls

/-!
# Tasks in the world of calls

What a task is in the world of `Calls` is read off its state, its counters, its pending reply and the reply
capabilities it saved. Most of the kernel's calls leave that alone, or only lose rights.
-/

namespace MindCore.Kernel.Ipc

open List
open Calls (Phase Party Mark World)

def Event.mark : Event → Option Mark
  | .called slot call => some (.called slot call)
  | .received server slot pid seq call => some (.received server slot pid seq call)
  | .answer slot call outcome => some (.answer slot call outcome)
  | .gone slot call => some (.gone slot call)
  | _ => none

variable {cap : Capability} {receive : Nat}

namespace Task

def phase (t : Task) : Phase :=
  match t.state with
  | .exited => .gone
  | .blockedReply server => .waits server
  | .blockedSend _ => if t.pendingCall then .asked else .idle
  | _ => .idle

def saved (t : Task) (index : Nat) : Option Call :=
  match (t.cap index).map Slot.cap with
  | some (.reply slot pid seq) => some ⟨slot, pid, seq⟩
  | _ => none

/-- The calls the task may answer: its pending reply, and the replies it saved in slots of its own. -/
def rights (t : Task) : Set Call :=
  {c | t.replyTo = some c ∨ ∃ index, slotDynamic ≤ index ∧ t.saved index = some c}

def callIn (t : Task) : Phase → Nat
  | .asked | .waits _ => t.sendSeq
  | _ => 0

/-- The task as a party; with `sending` it has composed a call it is not blocked in yet. -/
def view (sending : Bool) (t : Task) : Party where
  pid := t.pid
  phase := if sending then .asked else t.phase
  call := t.callIn (if sending then .asked else t.phase)
  seq := t.callSeq
  rights := t.rights

/-! ### Tables -/

variable {index : Nat} {t u : Task}

theorem find?_filter_index {l : List Slot} {p : Slot → Bool} (h : ∀ x ∈ l, x.index = index → p x = true) :
    (l.filter p).find? (fun x => x.index == index) = l.find? fun x => x.index == index := by
  induction l with
  | nil => rfl
  | cons x l ih =>
    have ih := ih fun y hy => h y (mem_cons_of_mem x hy)
    by_cases hx : x.index = index
    · have hp := h x mem_cons_self hx
      simp [hp, hx]
    · by_cases hp : p x = true
      · simp [hp, hx, ih]
      · simp [hp, hx, ih]

theorem cap_put (t : Task) (x : Slot) (index : Nat) :
    (t.put x).cap index = if x.index = index then some x else t.cap index := by
  by_cases h : x.index = index
  · simp [cap, put, h]
  · have hb : (x.index == index) = false := by simp [h]
    simp [cap, put, hb, h]

theorem cap_clear_of_ne (t : Task) {i : Nat} (h : index ≠ i) : (t.clear i).cap index = t.cap index := by
  refine find?_filter_index ?_
  intro x _ hx
  simp [hx, h]

theorem cap_clear_self (t : Task) (index : Nat) : (t.clear index).cap index = none := by
  refine find?_eq_none.mpr ?_
  intro x hx
  simpa using (mem_filter.mp hx).2

theorem saved_of_cap (h : u.cap index = t.cap index) : u.saved index = t.saved index := by
  simp only [saved, h]

theorem saved_none
    (h : ∀ x, t.cap index = some x → ∀ slot pid seq, x.cap ≠ .reply slot pid seq) : t.saved index = none := by
  unfold saved
  split
  · rename_i slot pid seq hc
    obtain ⟨x, hx, he⟩ := Option.map_eq_some_iff.mp hc
    exact absurd he (h x hx slot pid seq)
  · rfl

theorem rights_congr (hr : u.replyTo = t.replyTo)
    (hs : ∀ index, slotDynamic ≤ index → u.saved index = t.saved index) : u.rights = t.rights := by
  ext c
  simp only [rights, Set.mem_ofPred_eq, hr]
  refine or_congr Iff.rfl (exists_congr fun index => and_congr_right fun hi => ?_)
  rw [hs index hi]

theorem view_congr (hp : u.pid = t.pid) (hph : u.phase = t.phase) (hs : u.sendSeq = t.sendSeq)
    (hc : u.callSeq = t.callSeq) (hr : u.rights = t.rights) (b : Bool) : u.view b = t.view b := by
  have hcall : u.callIn = t.callIn := by
    funext ph
    cases ph <;> simp [callIn, hs]
  simp only [view, hp, hph, hc, hr, hcall]

theorem saved_clear {i : Nat} (h : t.saved i = none) : (t.clear i).saved index = t.saved index := by
  by_cases hi : index = i
  · subst hi
    rw [h]
    exact saved_none fun x hx => by rw [cap_clear_self] at hx; cases hx
  · exact saved_of_cap (cap_clear_of_ne t hi)

theorem saved_put {x : Slot} (hf : t.cap x.index = none)
    (hx : ∀ slot pid seq, x.cap ≠ .reply slot pid seq) : (t.put x).saved index = t.saved index := by
  by_cases hi : x.index = index
  · subst hi
    rw [saved_none (t := t) fun y hy => by rw [hf] at hy; cases hy]
    refine saved_none ?_
    intro y hy
    rw [cap_put, if_pos rfl, Option.some.injEq] at hy
    subst hy
    exact hx
  · refine saved_of_cap ?_
    rw [cap_put, if_neg hi]

theorem saved_arrive {node : Node} (hf : fixed receive = true)
    (hi : slotDynamic ≤ index) : ((t.clear receive).put ⟨receive, cap, node⟩).saved index = t.saved index := by
  have hlt : receive < slotDynamic := by
    simp only [fixed, Bool.and_eq_true, decide_eq_true_eq] at hf
    exact hf.2
  have hne : index ≠ receive := by omega
  refine saved_of_cap ?_
  rw [cap_put, if_neg (Ne.symm hne), cap_clear_of_ne t hne]

/-- No two capabilities in one slot, and a reply is never sent. -/
structure Neat (t : Task) : Prop where
  table : (t.table.map Slot.index).Nodup
  pending : ∀ p, t.pending = some p → ∀ slot pid seq, p.cap ≠ .reply slot pid seq

theorem cap_eq_none_iff : t.cap index = none ↔ index ∉ t.table.map Slot.index := by
  simp only [cap, find?_eq_none, beq_iff_eq, mem_map, not_exists, not_and]

theorem cap_filter (hn : (t.table.map Slot.index).Nodup) (p : Slot → Bool) (index : Nat) :
    ({ t with table := t.table.filter p } : Task).cap index = (t.cap index).filter p := by
  simp only [cap]
  generalize t.table = l at hn ⊢
  induction l with
  | nil => rfl
  | cons x l ih =>
    rw [map_cons, nodup_cons] at hn
    have ih := ih hn.2
    by_cases hx : x.index = index
    · by_cases hp : p x = true
      · simp [hp, hx, Option.filter_some]
      · have hnone : (l.find? fun x => x.index == index) = none := by
          refine find?_eq_none.mpr ?_
          intro y hy he
          refine hn.1 (mem_map.mpr ⟨y, hy, ?_⟩)
          rw [hx]
          simpa using he
        rw [hnone] at ih
        simp [hp, hx, ih, Option.filter_some]
    · by_cases hp : p x = true
      · simp [hp, hx, ih]
      · simp [hp, hx, ih]

theorem Nodup.filter (hn : (t.table.map Slot.index).Nodup) (p : Slot → Bool) :
    ((t.table.filter p).map Slot.index).Nodup :=
  hn.sublist (filter_sublist.map _)

theorem free_cap (h : t.free index = true) : slotDynamic ≤ index ∧ t.cap index = none := by
  simpa only [free, Bool.and_eq_true, decide_eq_true_eq, Option.isNone_iff_eq_none] using h

end Task

namespace System

/-- The system as a world of calls. The task `sending` has composed a call; `dying` have ended, and their
clients are being woken. -/
def world (sending : Option Nat) (dying : Set Nat) (s : System) : World where
  party i := (s.tasks i).map (Task.view (decide (sending = some i)))
  marks := s.log.filterMap Event.mark
  sent := s.sendSeq
  pids := s.nextPid
  dying := dying

theorem world_eq {w w' : World} (h₁ : w.party = w'.party) (h₂ : w.marks = w'.marks) (h₃ : w.sent = w'.sent)
    (h₄ : w.pids = w'.pids) (h₅ : w.dying = w'.dying) : w = w' := by
  cases w
  cases w'
  simp only at h₁ h₂ h₃ h₄ h₅
  rw [h₁, h₂, h₃, h₄, h₅]

section
variable {A : Option Nat} {D : Set Nat} {i j : Nat}

theorem world_party {s : System} {t : Task} (ht : s.tasks i = some t) :
    (s.world A D).party i = some (t.view (decide (A = some i))) := by
  simp only [world, ht, Option.map_some]

theorem world_set (s : System) (i : Nat) (t : Task) :
    (s.set i t).world A D = (s.world A D).put i (t.view (decide (A = some i))) := by
  refine world_eq ?_ rfl rfl rfl rfl
  funext j
  by_cases hj : j = i
  · subst hj
    simp only [world, System.set, Table.set_self, Option.map_some, Calls.World.put_self]
  · rw [Calls.World.put_of_ne _ hj]
    simp only [world, System.set, Table.set_of_ne _ hj]

theorem world_tell (s : System) {e : Event} {m : Mark} (h : e.mark = some m) :
    (s.tell e).world A D = (s.world A D).say m := by
  simp only [world, System.tell, World.say, filterMap_cons, h]

theorem sending_ne (hA : A = some i ∨ A = none) (hj : j ≠ i) : A ≠ some j := by
  rcases hA with rfl | rfl
  · exact fun he => hj (Option.some.inj he).symm
  · exact fun he => by cases he

/-- That a task sends is seen in its own party only. -/
theorem put_sending (s : System) (hA : A = some i ∨ A = none) (p : Party) :
    (s.world A D).put i p = (s.world none D).put i p := by
  refine world_eq ?_ rfl rfl rfl rfl
  funext j
  by_cases hj : j = i
  · subst hj
    rw [Calls.World.put_self, Calls.World.put_self]
  · rw [Calls.World.put_of_ne _ hj, Calls.World.put_of_ne _ hj]
    simp only [world, decide_eq_false (sending_ne hA hj)]
    rfl

end

structure Alike (t u : Task) : Prop where
  view : ∀ b, u.view b = t.view b
  reply : u.replyTo = t.replyTo
  neat : t.Neat → u.Neat

structure Same (s s' : System) : Prop where
  back : ∀ i u, s'.tasks i = some u → ∃ t, s.tasks i = some t ∧ Alike t u
  stays : ∀ i t, s.tasks i = some t → ∃ u, s'.tasks i = some u
  marks : s'.log.filterMap Event.mark = s.log.filterMap Event.mark
  sent : s'.sendSeq = s.sendSeq
  pids : s'.nextPid = s.nextPid

section
variable {s s' s'' : System} {A : Option Nat} {D : Set Nat}

theorem Alike.refl (t : Task) : Alike t t := ⟨fun _ => rfl, rfl, fun h => h⟩

variable {t : Task}

theorem Alike.trans {u v : Task} (h : Alike t u) (h' : Alike u v) : Alike t v :=
  ⟨fun b => (h'.view b).trans (h.view b), h'.reply.trans h.reply, fun hn => h'.neat (h.neat hn)⟩

def Neat (s : System) : Prop := ∀ i t, s.tasks i = some t → t.Neat

theorem Same.neat (h : Same s s') (hn : s.Neat) : s'.Neat := by
  intro i u hu
  obtain ⟨t, ht, ha⟩ := h.back i u hu
  exact ha.neat (hn i t ht)

theorem Same.refl (s : System) : Same s s :=
  ⟨fun _ u hu => ⟨u, hu, .refl u⟩, fun _ t ht => ⟨t, ht⟩, rfl, rfl, rfl⟩

section
variable (h : Same s s')
include h

theorem Same.trans (h' : Same s' s'') : Same s s'' := by
  refine ⟨?_, ?_, h'.marks.trans h.marks, h'.sent.trans h.sent, h'.pids.trans h.pids⟩
  · intro i v hv
    obtain ⟨u, hu, ha'⟩ := h'.back i v hv
    obtain ⟨t, ht, ha⟩ := h.back i u hu
    exact ⟨t, ht, ha.trans ha'⟩
  · intro i t ht
    obtain ⟨u, hu⟩ := h.stays i t ht
    exact h'.stays i u hu

theorem Same.world : s'.world A D = s.world A D := by
  refine world_eq ?_ h.marks h.sent h.pids rfl
  funext i
  simp only [System.world]
  cases hu : s'.tasks i with
  | some u =>
    obtain ⟨t, ht, ha⟩ := h.back i u hu
    rw [ht, Option.map_some, Option.map_some, ha.view]
  | none =>
    cases ht : s.tasks i with
    | none => rfl
    | some t =>
      obtain ⟨u, hu'⟩ := h.stays i t ht
      rw [hu] at hu'
      cases hu'

theorem Same.aside (ha : Aside s' s'') : Same s s'' := by
  refine ⟨?_, ?_, ?_, ha.sent.trans h.sent, ha.pids.trans h.pids⟩
  · rw [ha.tasks]
    exact h.back
  · rw [ha.tasks]
    exact h.stays
  · rw [ha.log]
    exact h.marks

theorem Same.set {i : Nat} {u : Task} (ht : s'.tasks i = some t) (ha : Alike t u) : Same s (s'.set i u) := by
  refine h.trans ⟨?_, ?_, rfl, rfl, rfl⟩
  · intro j v hv
    rcases System.set_some hv with ⟨rfl, rfl⟩ | ⟨-, hv⟩
    · exact ⟨t, ht, ha⟩
    · exact ⟨v, hv, .refl v⟩
  · intro j v hv
    by_cases hj : j = i
    · subst hj
      exact ⟨u, by simp [System.set]⟩
    · exact ⟨v, by simp only [System.set, Table.set_of_ne _ hj]; exact hv⟩

theorem Same.modify (i : Nat) (f : Task → Task) (hf : ∀ t, s'.tasks i = some t → Alike t (f t)) :
    Same s (s'.modify i f) := by
  cases ht : s'.tasks i with
  | none =>
    rw [modify_none ht]
    exact h
  | some t =>
    rw [modify_eq_set ht]
    exact h.set ht (hf t ht)

theorem Same.tell (e : Event) (he : e.mark = none) : Same s (s'.tell e) := by
  refine ⟨h.back, h.stays, ?_, h.sent, h.pids⟩
  simp only [System.tell, filterMap_cons, he]
  exact h.marks

end

theorem alike_table {table : List Slot}
    (h : ∀ index, slotDynamic ≤ index → ({ t with table := table } : Task).saved index = t.saved index)
    (hn : (t.table.map Slot.index).Nodup → (table.map Slot.index).Nodup) : Alike t { t with table := table } :=
  ⟨Task.view_congr rfl rfl rfl rfl (Task.rights_congr rfl h), rfl, fun ht => ⟨hn ht.table, ht.pending⟩⟩

theorem alike_put {x : Slot} (hf : t.cap x.index = none)
    (hx : ∀ slot pid seq, x.cap ≠ .reply slot pid seq) : Alike t (t.put x) := by
  refine alike_table (fun _ _ => Task.saved_put hf hx) ?_
  intro hn
  rw [map_cons, nodup_cons]
  exact ⟨Task.cap_eq_none_iff.mp hf, hn⟩

theorem clear_put_nodup (x : Slot) (hn : (t.table.map Slot.index).Nodup) :
    (((t.clear x.index).put x).table.map Slot.index).Nodup := by
  simp only [Task.put, map_cons, nodup_cons]
  exact ⟨Task.cap_eq_none_iff.mp (Task.cap_clear_self t x.index), Task.Nodup.filter hn _⟩

theorem alike_arrive (t : Task) {node : Node} (hf : fixed receive = true) :
    Alike t ((t.clear receive).put ⟨receive, cap, node⟩) :=
  alike_table (fun _ hi => Task.saved_arrive hf hi) (clear_put_nodup ⟨receive, cap, node⟩)

theorem alike_clear {index : Nat} (h : t.saved index = none) : Alike t (t.clear index) :=
  alike_table (fun _ _ => Task.saved_clear h) fun hn => Task.Nodup.filter hn _

theorem alike_ready (h : t.phase = .idle) : Alike t { t with state := .ready } :=
  ⟨Task.view_congr rfl h.symm rfl rfl rfl, rfl, fun hn => ⟨hn.table, hn.pending⟩⟩

end

/-! ### Calls that leave calls alone -/

section
variable {s s' : System} {slot : Nat} {t : Task}

section
variable (ht : s.tasks slot = some t)
include ht

theorem same_insertRoot (index : Nat)
    (hc : ∀ slot pid seq, cap ≠ .reply slot pid seq) : Same s (insertRoot cap index slot t s) := by
  unfold insertRoot
  split
  · rename_i hf
    exact ((Same.refl s).aside (root_aside s cap)).set ht (alike_put (Task.free_cap hf).2 hc)
  · exact .refl s

theorem same_capMint (source index : Nat) (mask : Rights) (offset length badge : Nat)
    (deny : Bool) : Same s (capMint source index mask offset length badge deny slot t s) := by
  unfold capMint
  split
  · exact .refl s
  · split
    · exact .refl s
    · rename_i cap hc
      split
      · exact .refl s
      · rename_i hf
        simp only [Bool.or_eq_true, not_or, Bool.not_eq_true', Bool.not_eq_false] at hf
        exact ((Same.refl s).aside (child_aside s _ _)).set ht
          (alike_put (Task.free_cap hf.2).2 (mint_kind hc).1)

theorem same_composite (base size index : Nat) : Same s (composite base size index slot t s) := by
  unfold composite
  split
  · rename_i hf
    exact ((Same.refl s).aside (root_aside s _)).set ht (alike_arrive t hf)
  · exact .refl s

theorem same_memDetach (base size index : Nat) : Same s (memDetach base size index slot t s) := by
  unfold memDetach
  split
  · rename_i hf
    simp only [Bool.and_eq_true] at hf
    have ha : Aside s { (s.root (.memory base size ⟨true, true, false, false, false⟩)).1 with
        objects := (base, size, s.nextNode + 1) :: s.objects } := ⟨rfl, rfl, rfl, rfl⟩
    exact ((Same.refl s).aside ha).set ht (alike_put (Task.free_cap hf.2).2 fun _ _ _ he => by cases he)
  · exact .refl s

theorem same_memMap (index : Nat) : Same s (memMap index slot t s) := by
  unfold memMap
  split
  · exact .refl s
  · dsimp only
    split
    · exact .refl s
    · exact (Same.refl s).set ht ⟨fun _ => rfl, rfl, fun hn => ⟨hn.table, hn.pending⟩⟩

end

theorem Same.wake (h : Same s s') {ep r : Nat} (hr : s'.blocked (.blockedRecv ep) = some r) :
    Same s (s'.modify r fun u => { u with state := .ready }) := by
  refine h.modify _ _ ?_
  intro u hu
  obtain ⟨v, hv, hst⟩ := blocked_spec hr
  rw [hu, Option.some.injEq] at hv
  subst hv
  exact alike_ready (by simp [Task.phase, hst])

theorem Same.postExit (h : Same s s') (ep pid reason : Nat) : Same s (s'.postExit ep pid reason) := by
  unfold System.postExit
  split
  · rename_i r hr
    exact h.wake hr
  · split
    · exact ⟨h.back, h.stays, h.marks, h.sent, h.pids⟩
    · exact h

theorem same_raiseIrq (s : System) (line : Nat) : Same s (s.raiseIrq line) := by
  refine List.foldlRecOn _ _ (.refl s) ?_
  intro s' h b _
  split
  · split
    · rename_i r hr
      exact h.wake hr
    · exact ⟨h.back, h.stays, h.marks, h.sent, h.pids⟩
  · exact h

theorem doomed_reply (hb : Bounded s) {root id : Nat} (hd : s.doomed root id = true) {c : Capability} {n : Node}
    (hh : s.Holds c n) (hn : n.id = id) (slot pid seq : Nat) : c ≠ .reply slot pid seq := by
  rintro rfl
  simp only [doomed, Bool.and_eq_true, bne_iff_ne] at hd
  obtain ⟨⟨-, hne⟩, hder⟩ := hd
  have horigin : ∃ o, s.origin id = some o := by
    cases ho : s.origin id with
    | some o => exact ⟨o, rfl⟩
    | none =>
      have hroot : (id == root) = false := by simpa using hne
      cases hf : s.nextNode with
      | zero =>
        rw [hf] at hder
        simp only [derives, hroot] at hder
        cases hder
      | succ fuel =>
        rw [hf] at hder
        simp only [derives, hroot, ho] at hder
        cases hder
  obtain ⟨⟨p, pc⟩, ho⟩ := horigin
  obtain ⟨-, -, -, m, hm, -, -, hr⟩ := hb.ledger.derived id p pc ho
  obtain ⟨m', hm', hnar⟩ := (hb.held _ _ hh).made
  rw [hn, hm, Option.some.injEq] at hm'
  subst hm'
  cases hnar
  exact hr slot pid seq rfl

theorem same_strike (hb : Bounded s) (hneat : s.Neat) (root id : Nat) : Same s (s.strike root id) := by
  unfold strike
  split
  · rename_i hd
    refine ⟨?_, ?_, rfl, rfl, rfl⟩
    · intro i u hu
      obtain ⟨t, ht, rfl⟩ := Option.map_eq_some_iff.mp hu
      refine ⟨t, ht, Task.view_congr rfl rfl rfl rfl (Task.rights_congr rfl ?_), rfl, ?_⟩
      · intro index _
        have hcap := Task.cap_filter (hneat i t ht).table (fun x => x.node.id != id) index
        cases hc : t.cap index with
        | none =>
          rw [hc] at hcap
          exact Task.saved_of_cap (hcap.trans hc.symm)
        | some x =>
          by_cases hid : x.node.id = id
          · have hplain := doomed_reply hb hd (holds_cap ht hc) hid
            rw [hc, Option.filter_some, if_neg (by simp [hid])] at hcap
            have hbefore : t.saved index = none := Task.saved_none fun y hy => by
              rw [hc, Option.some.injEq] at hy
              subst hy
              exact hplain
            refine Eq.trans ?_ hbefore.symm
            exact Task.saved_none fun y hy => by cases hcap.symm.trans hy
          · rw [hc, Option.filter_some, if_pos (by simpa using hid)] at hcap
            exact Task.saved_of_cap (hcap.trans hc.symm)
      · intro hn
        exact ⟨Task.Nodup.filter hn.table _, fun p hp => hn.pending p (Option.filter_eq_some_iff.mp hp).1⟩
    · intro i t ht
      exact ⟨_, Option.map_eq_some_iff.mpr ⟨t, ht, rfl⟩⟩
  · exact .refl s

end

end System

end MindCore.Kernel.Ipc
