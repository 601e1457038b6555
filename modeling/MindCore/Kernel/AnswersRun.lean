import MindCore.Kernel.Replies

/-!
# Every call gets one answer, over whole runs

Every call of the kernel is a path in the world of calls. What that world keeps holds of every run; what it
keeps while no right to answer is lost holds of the runs whose replies are not refused and whose saved
replies are not dropped while the client waits.
-/

namespace MindCore.Kernel.Ipc

open List
open Sched (newEndpoint)
open Calls (Phase Party Mark World)
open Calls.World (Path Move)

namespace System

variable {u : Task}

section
variable {s s' : System} {K : Prop} {slot : Nat} {t : Task}

/-! ### Saving and dropping a reply -/

theorem world_set_view {s₁ : System} (ha : Aside s s₁) (ht : s.tasks slot = some t)
    (hv : ∀ b, u.view b = t.view b) : (s₁.set slot u).world none ∅ = s.world none ∅ := by
  rw [world_set, hv, ((Same.refl s).aside ha).world, Calls.World.put_party (world_party ht)]

variable {c : Call} {i index : Nat} {node : Node} {moves : List Nat}

theorem saved_saveReply :
    (({ t with replyTo := none } : Task).put ⟨index, .reply c.slot c.pid c.seq, node⟩).saved i =
      if index = i then some c else t.saved i := by
  simp only [Task.saved, Task.cap_put]
  by_cases hi : index = i
  · simp [hi]
  · simp only [hi, if_false]
    rfl

theorem rights_saveReply (hc : t.replyTo = some c) (hf : t.free index = true) :
    (({ t with replyTo := none } : Task).put ⟨index, .reply c.slot c.pid c.seq, node⟩).rights = t.rights := by
  obtain ⟨hdyn, hnone⟩ := Task.free_cap hf
  have hsaved : t.saved index = none := Task.saved_none fun x hx => by rw [hnone] at hx; cases hx
  ext d
  constructor
  · rintro (hd | ⟨i, hi, hd⟩)
    · cases hd
    · rw [saved_saveReply] at hd
      split at hd
      · cases hd
        exact .inl hc
      · exact .inr ⟨i, hi, hd⟩
  · rintro (hd | ⟨i, hi, hd⟩)
    · rw [hc, Option.some.injEq] at hd
      subst hd
      refine .inr ⟨index, hdyn, ?_⟩
      rw [saved_saveReply, if_pos rfl]
    · refine .inr ⟨i, hi, ?_⟩
      have hne : index ≠ i := by
        rintro rfl
        rw [hsaved] at hd
        cases hd
      rw [saved_saveReply, if_neg hne]
      exact hd

theorem world_saveReply (ht : s.tasks slot = some t) (index : Nat) :
    (saveReply index slot t s).world none ∅ = s.world none ∅ := by
  unfold saveReply
  split
  · rfl
  · rename_i c hc
    split
    · rename_i hf
      exact world_set_view (root_aside s _) ht (Task.view_congr rfl rfl rfl rfl (rights_saveReply hc hf))
    · rfl

/-! ### Spawning -/

theorem grants_plain (service : Bool) (t : Task) (gs : List Grant) {s s' : System} {table : List Slot}
    (hg : grants service t gs s = some (s', table, moves)) :
    (∀ x ∈ table, fixed x.index = true) ∧ (table.map Slot.index).Nodup ∧ ∀ index ∈ moves, t.saved index = none := by
  induction gs generalizing s s' table moves with
  | nil =>
    obtain ⟨-, rfl, rfl⟩ := hg
    exact ⟨fun x hx => (not_mem_nil hx).elim, nodup_nil, fun i hi => (not_mem_nil hi).elim⟩
  | cons g rest ih =>
    simp only [grants] at hg
    split at hg
    · cases hg
    · rename_i hfix
      simp only [Bool.or_eq_true, not_or, Bool.not_eq_true', Bool.not_eq_false] at hfix
      split at hg
      · cases hg
      · rename_i s₁ p heq
        split at hg
        · rename_i cap s₂ tab mvs hcap hrest
          obtain ⟨-, rfl, rfl⟩ := hg
          obtain ⟨hf, hn, hm⟩ := ih hrest
          refine ⟨?_, ?_, ?_⟩
          · intro x hx
            split at hx
            · exact hf x hx
            · rcases mem_cons.mp hx with rfl | hx
              · exact hfix.1
              · exact hf x hx
          · split
            · exact hn
            · rename_i hany
              rw [map_cons, nodup_cons]
              refine ⟨?_, hn⟩
              intro hmem
              obtain ⟨x, hx, he⟩ := mem_map.mp hmem
              exact hany (any_eq_true.mpr ⟨x, hx, by simpa using he⟩)
          · intro index hi
            rcases mem_append.mp hi with hi | hi
            · exact (transfer_plain (congrArg Prod.snd heq)).2 index (Option.mem_toList.mp hi)
            · exact hm index hi
        · cases hg

theorem alike_moves (h : ∀ index ∈ moves, t.saved index = none) :
    Alike t { t with table := t.table.filter fun x => !moves.contains x.index } := by
  refine alike_table ?_ fun hn => Task.Nodup.filter hn _
  intro index _
  by_cases hi : index ∈ moves
  · rw [h index hi]
    refine Task.saved_none ?_
    intro x hx
    have hmem := mem_of_find?_eq_some hx
    have hindex : x.index = index := by simpa using find?_some hx
    have hkept := (mem_filter.mp hmem).2
    rw [hindex] at hkept
    simp [hi] at hkept
  · refine Task.saved_of_cap (Task.find?_filter_index ?_)
    intro x _ hx
    simp [hx, hi]

theorem path_spawnWith (ht : s.tasks slot = some t) (service opens : Bool) (gs : List Grant) (child : Nat) :
    Path K (s.world none ∅) ((spawnWith service opens gs child slot t s).world none ∅) ∧
      (s.Neat → (spawnWith service opens gs child slot t s).Neat) := by
  unfold spawnWith
  split
  · exact ⟨.refl, fun h => h⟩
  · rename_i hfree
    split
    · exact ⟨.refl, fun h => h⟩
    · rename_i s₁ table moves hg
      obtain ⟨hfixed, hnodup, hmoves⟩ := grants_plain opens t gs hg
      have ha := grants_aside opens t gs hg
      have ht₁ : s₁.tasks slot = some t := by rw [ha.tasks]; exact ht
      have h₂ : Same s (s₁.set slot { t with table := t.table.filter fun x => !moves.contains x.index }) :=
        ((Same.refl s).aside ha).set ht₁ (alike_moves hmoves)
      have hchild : s.tasks child = none := by
        simp only [not_or] at hfree
        simpa using hfree.2.1
      generalize s₁.set slot { t with table := t.table.filter fun x => !moves.contains x.index } = s₂ at h₂ ⊢
      have hnone : s₂.tasks child = none := by
        cases hu : s₂.tasks child with
        | none => rfl
        | some u =>
          obtain ⟨v, hv, -⟩ := h₂.back child u hu
          rw [hchild] at hv
          cases hv
      have hrights : ∀ u : Task, u.replyTo = none → u.table = table → u.rights = ∅ := by
        intro u hr htab
        refine Set.eq_empty_of_forall_notMem ?_
        rintro c (hc | ⟨i, hi, hc⟩)
        · rw [hr] at hc
          cases hc
        · rw [Task.saved_none ?_] at hc
          · cases hc
          · intro x hx
            have hmem := mem_of_find?_eq_some hx
            rw [htab] at hmem
            have hf := hfixed x hmem
            have hindex : x.index = i := by simpa using find?_some hx
            simp only [fixed, Bool.and_eq_true, decide_eq_true_eq, hindex] at hf
            omega
      refine ⟨?_, ?_⟩
      · rw [← h₂.world (A := none) (D := ∅)]
        have hm := Move.spawn (K := K) (w := s₂.world none ∅) (i := child) (by simp only [world, hnone, Option.map_none])
        refine .single ?_
        rw [world_set, decide_eq_false (Option.some_ne_none child).symm]
        simp only [Task.view]
        rw [hrights]
        · exact hm
        · rfl
        · rfl
      · intro hn i u hu
        rcases System.set_some hu with ⟨rfl, rfl⟩ | ⟨-, hu⟩
        · exact ⟨hnodup, fun p hp => by cases hp⟩
        · exact h₂.neat hn i u hu

/-! ### Ending and timing out -/

theorem calling_iff {t : Task} : t.calling = true ↔ t.phase.Open := by
  unfold Task.calling Task.phase
  cases hs : t.state with
  | blockedSend ep =>
    cases hc : t.pendingCall with
    | true => simp [Phase.Open]
    | false => simp [Phase.Open]
  | blockedReply y => simp [Phase.Open]
  | exited => simp [Phase.Open]
  | _ => simp [Phase.Open]

theorem phase_idle {t : Task} (hc : ¬ t.calling = true) (hx : t.state ≠ .exited) : t.phase = .idle := by
  have hn := fun ho => hc (calling_iff.mpr ho)
  cases hp : t.phase with
  | idle => rfl
  | asked => rw [hp] at hn; exact (hn trivial).elim
  | waits y => rw [hp] at hn; exact (hn trivial).elim
  | gone =>
    unfold Task.phase at hp
    split at hp
    · rename_i hs
      exact absurd hs hx
    · cases hp
    · split at hp <;> cases hp
    · cases hp

theorem move_leave (ht : s.tasks slot = some t) (hx : t.state ≠ .exited) :
    Move K (s.world none ∅) (((s.set slot { t with state := .exited, pending := none }).tellIf t.calling
      (.gone slot t.sendSeq)).world none (insert slot ∅)) := by
  have hp := world_party (A := none) (D := ∅) ht
  rw [decide_eq_false (Option.some_ne_none slot).symm] at hp
  have hset := world_set (A := none) (D := insert slot ∅) s slot { t with state := .exited, pending := none }
  by_cases hc : t.calling = true
  · have ho := calling_iff.mp hc
    have hm := Move.dieCalling (K := K) hp ho
    rw [hc]
    refine (congrArg (Move K _) ((world_tell _ rfl).trans ?_)).mpr hm
    rw [hset]
    exact congrArg _ (congrArg _ (call_open ho).symm)
  · have hidle := phase_idle hc hx
    have hcall : (t.view false).call = 0 := by
      simp only [Task.view, hidle]
      rfl
    have hm := Move.die (K := K) hp hidle
    rw [hcall] at hm
    rw [Bool.eq_false_of_not_eq_true hc]
    exact (congrArg (Move K _) hset).mpr hm

variable {D : Set Nat}

theorem path_wakeStranded (s : System) (i : Nat) :
    Path K (s.world none D) ((s.wakeStranded i).world none D) := by
  unfold wakeStranded
  split
  · rename_i t ht
    split
    · rename_i ep hst
      split
      · exact .refl
      · have hclear : Same s (s.set i { t with pending := none }) :=
          (Same.refl s).set ht ⟨fun _ => rfl, rfl, fun hn => ⟨hn.table, fun p hp => by cases hp⟩⟩
        split
        · rename_i hc
          rw [← hclear.world]
          refine .single (move_fail (t := { t with pending := none }) (by simp [System.set]) (fun he => by cases he) ?_
            fun y he => by cases he)
          simp [Task.phase, hst, hc, Phase.Open]
        · rename_i hc
          have hphase : t.phase = .idle := by simp [Task.phase, hst, hc]
          have hready : Same s (s.set i { t with pending := none, state := .ready }) :=
            (Same.refl s).set ht ⟨Task.view_congr rfl hphase.symm rfl rfl rfl, rfl,
              fun hn => ⟨hn.table, fun p hp => by cases hp⟩⟩
          rw [hready.world]
          exact .refl
    · exact .refl
  · exact .refl

theorem path_failWaiting (server : Nat) (s : System) (i : Nat) :
    Path K (s.world none D) ((s.failWaiting server i).world none D) := by
  unfold failWaiting
  split
  · rename_i hin
    obtain ⟨t, ht, hst⟩ := inState_spec hin
    have hph : t.phase = .waits server := phase_waits.mpr hst
    exact .single (move_fail ht (fun he => by cases he) (by rw [hph]; trivial) fun y he => by cases he)
  · exact .refl

theorem path_foldl (f : System → Nat → System)
    (hf : ∀ s i, Path K (s.world none D) ((f s i).world none D)) (l : List Nat) (s : System) :
    Path K (s.world none D) ((l.foldl f s).world none D) := by
  induction l generalizing s with
  | nil => exact .refl
  | cons i l ih => exact (hf s i).trans (ih (f s i))

theorem failWaiting_left {server : Nat} (l : List Nat) (s : System) {t : Task}
    (ht : (l.foldl (failWaiting server) s).tasks i = some t) (hst : t.state = .blockedReply server) :
    s.tasks i = some t ∧ i ∉ l := by
  induction l generalizing s with
  | nil => exact ⟨ht, not_mem_nil⟩
  | cons j l ih =>
    obtain ⟨hi, hl⟩ := ih (s.failWaiting server j) ht
    unfold failWaiting at hi
    split at hi
    · rename_i hin
      obtain ⟨u, hu, -⟩ := inState_spec hin
      obtain ⟨h1, h2⟩ := fail_tasks (o := .peer) hu
      have hij : i ≠ j := by
        rintro rfl
        rw [h1, Option.some.injEq] at hi
        subst hi
        cases hst
      rw [h2 i hij] at hi
      exact ⟨hi, fun hm => (mem_cons.mp hm).elim hij hl⟩
    · rename_i hin
      have hij : i ≠ j := by
        rintro rfl
        refine hin ?_
        simp [inState, hi, hst]
      exact ⟨hi, fun hm => (mem_cons.mp hm).elim hij hl⟩

theorem path_terminate (s : System) (slot reason : Nat) :
    Path K (s.world none ∅) ((s.terminate slot reason).world none ∅) := by
  unfold terminate
  split
  · exact .refl
  · rename_i t ht
    split
    · exact .refl
    · rename_i hx
      have hleft : Path K (s.world none ∅) ((s.leave slot reason t).world none (insert slot ∅)) := by
        have hm := move_leave (K := K) ht hx
        unfold leave
        split
        · rw [((Same.refl _).postExit _ _ _).world]
          exact .single hm
        · exact .single hm
      generalize s.leave slot reason t = s₁ at hleft ⊢
      refine hleft.trans ?_
      unfold release
      refine (path_foldl _ path_wakeStranded (List.range s₁.tasks.len) s₁).trans ?_
      generalize (List.range s₁.tasks.len).foldl wakeStranded s₁ = s₂
      refine (path_foldl _ (path_failWaiting slot) (List.range s₂.tasks.len) s₂).trans ?_
      have hnone : ∀ i u, ((List.range s₂.tasks.len).foldl (failWaiting slot) s₂).tasks i = some u →
          u.state ≠ .blockedReply slot := by
        intro i u hu hst
        obtain ⟨hi, hl⟩ := failWaiting_left _ _ hu hst
        exact hl (mem_range.mpr (Table.lt_len hi))
      generalize (List.range s₂.tasks.len).foldl (failWaiting slot) s₂ = s₃ at hnone ⊢
      have hm := Move.bury (K := K) (w := s₃.world none (insert slot ∅)) (i := slot) fun j p hp hw => by
        obtain ⟨u, hu, rfl⟩ := Option.map_eq_some_iff.mp hp
        exact hnone j u hu (phase_waits.mp hw)
      refine .single ?_
      convert hm using 1
      refine world_eq rfl rfl rfl rfl ?_
      simp [world]

theorem path_expire (s : System) (slot : Nat) : Path K (s.world none ∅) ((s.expire slot).world none ∅) := by
  unfold expire
  split
  · exact .refl
  · rename_i t ht
    split
    · rename_i hw
      have hclear : Same s (s.set slot { t with pending := none, timed := false }) :=
        (Same.refl s).set ht ⟨fun _ => rfl, rfl, fun hn => ⟨hn.table, fun p hp => by cases hp⟩⟩
      have hself : (s.set slot { t with pending := none, timed := false }).tasks slot =
          some { t with pending := none, timed := false } := by simp [System.set]
      rw [← hclear.world (A := none) (D := ∅)]
      split
      · rename_i hc
        exact .single (move_fail hself (fun he => by cases he) (calling_iff.mp hc) fun y he => by cases he)
      · rename_i hc
        have hx : t.state ≠ .exited := by
          intro hx
          simp [Task.waiting, hx] at hw
        have hready := hclear.modify slot (fun t => { t with state := .ready }) fun u hu => by
          rw [hself, Option.some.injEq] at hu
          subst hu
          exact alike_ready (t := { t with pending := none, timed := false }) (phase_idle (t := t) hc hx)
        rw [hready.world, hclear.world]
        exact .refl
    · exact .refl

theorem path_reap (s : System) (runs : Nat → Bool) :
    Path K (s.world none ∅) ((s.reap runs).world none ∅) := by
  refine .single ?_
  have hm := Move.reap (K := K) (w := s.world none ∅) (f := ((s.reap runs).world none ∅).party) fun i => by
    simp only [world, System.reap, Table.keep]
    cases ht : s.tasks i with
    | none => exact .inl rfl
    | some t =>
      by_cases hk : (!(t.state == .exited && !runs i)) = true
      · exact .inl (by rw [Option.filter_some, if_pos hk])
      · refine .inr ⟨by rw [Option.filter_some, if_neg hk]; rfl, ?_⟩
        intro p hp
        cases hp
        have hx : t.state = .exited := by
          by_contra hne
          exact hk (by simp [hne])
        simp [Task.view, Task.phase, hx]
  exact hm

/-! ### Tables stay neat -/

section
variable (h : s.Neat)
include h

theorem Neat.set (ht : t.Neat) : (s.set slot t).Neat := by
  intro i u hu
  rcases System.set_some hu with ⟨rfl, rfl⟩ | ⟨-, hu⟩
  · exact ht
  · exact h i u hu

theorem Neat.of_tasks (he : s'.tasks = s.tasks) : s'.Neat := by
  intro i u hu
  rw [he] at hu
  exact h i u hu

end

theorem closed_neat : Closed (fun p => ∀ slot pid seq, p.cap ≠ .reply slot pid seq) Neat where
  edit := by
    intro s slot t u h ht he
    have hn := h slot t ht
    refine h.set ?_
    cases he with
    | clear index => exact ⟨Task.Nodup.filter hn.table _, hn.pending⟩
    | arrive index p _ => exact ⟨clear_put_nodup ⟨index, p.cap, p.node⟩ hn.table, hn.pending⟩
    | rest htab _ hpend =>
      refine ⟨htab ▸ hn.table, ?_⟩
      rcases hpend with he | hp
      · exact he ▸ hn.pending
      · exact hp
  beside h hb := h.of_tasks hb.tasks
  pending h ht hp := (h _ _ ht).pending _ hp

section
variable (h : s.Neat)
include h

theorem neat_ipcSend (q : SendRequest) (t : Task) : (ipcSend q slot t s).Neat := by
  unfold ipcSend
  split
  · exact h
  · dsimp only
    split
    · exact h
    · rename_i rights badge _ _
      generalize (if rights.grant = true then q.transfer else none) = n
      have hsent : (compose q badge slot (s.offer t n).2 (s.offer t n).1).Neat :=
        closed_neat.compose (h.of_tasks (offer_aside s t n).tasks) q badge slot fun p hp => (offer_plain hp).1
      split
      · exact closed_neat.deliver hsent _ _ _
      · exact closed_neat.modify hsent _ _ fun _ => .keep rfl rfl rfl

theorem neat_ipcReply (ht : s.tasks slot = some t) (saved : Option Nat) (n : Option Named) :
    (ipcReply saved n slot t s).Neat := by
  unfold ipcReply
  split
  · exact h
  · rename_i c u hc
    have h₁ : (s.set slot u).Neat := h.set ((takeReply_spec hc).2.2.2.2.2 (h slot t ht))
    dsimp only
    split
    · exact h₁
    · split
      · exact h₁
      · refine closed_neat.fail ?_ _ _
        exact closed_neat.handOver (h₁.of_tasks (offer_aside _ u n).tasks) _ _ _ fun p hp => (offer_plain hp).1

theorem neat_saveReply (ht : s.tasks slot = some t) (index : Nat) : (saveReply index slot t s).Neat := by
  unfold saveReply
  split
  · exact h
  · split
    · rename_i hf
      have hn := h slot t ht
      refine Neat.set (h.of_tasks rfl) ⟨?_, hn.pending⟩
      simp only [Task.put, map_cons, nodup_cons]
      exact ⟨Task.cap_eq_none_iff.mp (Task.free_cap hf).2, hn.table⟩
    · exact h

end

/-! ### Every call -/

/-- A reply whose client waits is not refused for what it transfers, and no saved reply whose client waits is
dropped. -/
def Kind (a : Act) (s : System) : Prop :=
  match a with
  | .reply slot saved n => ∀ t c u, s.running slot = some t → takeReply saved t = some (c, u) →
      (s.set slot u).awaitsReply c slot = true → (s.set slot u).replyRefused u n = false
  | .drop slot index => ∀ t c, s.running slot = some t → t.saved index = some c → s.awaitsReply c slot = false
  | _ => True

/-- The call is a path of calls and answers, and keeps tables neat. -/
def Simulated (K : Prop) (s s' : System) : Prop := Path K (s.world none ∅) (s'.world none ∅) ∧ s'.Neat

theorem Same.simulated (h : Same s s') (hn : s.Neat) : Simulated K s s' := by
  refine ⟨?_, h.neat hn⟩
  rw [h.world]
  exact .refl

theorem running_spec (h : s.running slot = some t) : s.tasks slot = some t ∧ t.state = .ready := by
  obtain ⟨ht, hs⟩ := Option.filter_eq_some_iff.mp h
  exact ⟨ht, by simpa using hs⟩

theorem simulated_call {f : Nat → Task → System → System} (hn : s.Neat)
    (hf : ∀ t, s.running slot = some t → s.tasks slot = some t → t.state = .ready → Simulated K s (f slot t s)) :
    Simulated K s (s.call slot f) := by
  unfold call
  split
  · rename_i t ht
    obtain ⟨h1, h2⟩ := running_spec ht
    exact hf t ht h1 h2
  · exact ⟨.refl, hn⟩

def withEndpoint (s : System) : System :=
  { s with
    endpoints := Function.update s.endpoints (newEndpoint s.endpoints s.endpointsLen) true
    endpointsLen := if newEndpoint s.endpoints s.endpointsLen = s.endpointsLen then 2 * s.endpointsLen else s.endpointsLen }

theorem act_simulated (hb : Bounded s) (hn : s.Neat) (a : Act) : Simulated (Kind a s) s (act a s) := by
  have hsame : Same s s := .refl s
  cases a with
  | send slot q => exact simulated_call hn fun t _ ht hr => ⟨path_ipcSend q ht hr, neat_ipcSend hn q t⟩
  | recv slot index receive timed =>
    exact simulated_call hn fun t _ ht hr =>
      ⟨path_ipcRecv hb hn index receive timed ht hr,
        closed_neat.ipcRecv hn _ _ _ timed _⟩
  | reply slot saved n =>
    refine simulated_call hn fun t hrun ht hr => ⟨path_ipcReply saved n ht hr ?_, neat_ipcReply hn ht saved n⟩
    intro hk c u hc haw
    exact hk t c u hrun hc haw
  | saveReply slot index =>
    refine simulated_call hn fun t _ ht _ => ⟨?_, neat_saveReply hn ht index⟩
    rw [world_saveReply ht index]
    exact .refl
  | mint slot source index mask offset length badge deny =>
    exact simulated_call hn fun t _ ht _ => (same_capMint ht source index mask offset length badge deny).simulated hn
  | drop slot index =>
    refine simulated_call hn fun t hrun ht hr => ?_
    have htn := hn slot t ht
    refine ⟨.single (move_lose ht hr rfl rfl rfl (clear_rights t index) ?_),
      hn.set ⟨Task.Nodup.filter htn.table _, htn.pending⟩⟩
    intro hk c hc hlost
    exact hk t c hrun (rights_clear hc hlost)
  | beginRevoke slot index =>
    refine simulated_call hn fun t _ _ _ => Same.simulated ?_ hn
    unfold beginRevoke
    split
    · exact hsame.aside ⟨rfl, rfl, rfl, rfl⟩
    · exact hsame
  | strike root id => exact (same_strike hb hn root id).simulated hn
  | endRevoke root => exact (hsame.aside ⟨rfl, rfl, rfl, rfl⟩).simulated hn
  | endpointCreate slot index =>
    refine simulated_call hn fun t _ ht _ => Same.simulated ?_ hn
    unfold endpointCreate
    split
    · have h₁ : Same s s.withEndpoint := ⟨hsame.back, hsame.stays, rfl, rfl, rfl⟩
      exact h₁.trans (same_insertRoot (s := s.withEndpoint) ht index fun _ _ _ he => by cases he)
    · exact hsame
  | grantRoot slot index cap =>
    simp only [act]
    split
    · rename_i hroot
      refine simulated_call hn fun t _ ht _ => (same_insertRoot ht index ?_).simulated hn
      rintro x y z rfl
      cases hroot
    · exact hsame.simulated hn
  | composite slot index base size =>
    simp only [act]
    split
    · exact simulated_call hn fun t _ ht _ => (same_composite ht base size index).simulated hn
    · exact hsame.simulated hn
  | memDetach slot base size index =>
    exact simulated_call hn fun t _ ht _ => (same_memDetach ht base size index).simulated hn
  | memMap slot index => exact simulated_call hn fun t _ ht _ => (same_memMap ht index).simulated hn
  | memUnmap slot m =>
    refine simulated_call hn fun t _ ht _ => Same.simulated (hsame.set ht ?_) hn
    exact ⟨fun _ => rfl, rfl, fun hn => ⟨hn.table, hn.pending⟩⟩
  | sweep => exact (hsame.aside ⟨rfl, rfl, rfl, rfl⟩).simulated hn
  | spawn slot service gs child =>
    refine simulated_call hn fun t _ ht _ => ?_
    unfold spawn
    split
    · exact hsame.simulated hn
    · obtain ⟨h1, h2⟩ := path_spawnWith (K := Kind (.spawn slot service gs child) s) ht service service gs child
      exact ⟨h1, h2 hn⟩
  | workerStart slot gs child =>
    refine simulated_call hn fun t _ ht _ => ?_
    obtain ⟨h1, h2⟩ := path_spawnWith (K := Kind (.workerStart slot gs child) s) ht t.service false gs child
    exact ⟨h1, h2 hn⟩
  | terminate slot reason => exact ⟨path_terminate s slot reason,
      closed_neat.terminate hn slot reason⟩
  | expire slot => exact ⟨path_expire s slot, closed_neat.expire hn slot⟩
  | reap runs =>
    refine ⟨path_reap s runs, ?_⟩
    intro i t ht
    exact hn i t (Option.filter_eq_some_iff.mp ht).1
  | irqBind slot line index =>
    refine simulated_call hn fun t _ _ _ => Same.simulated ?_ hn
    unfold irqBind
    split
    · dsimp only
      split
      · exact ⟨hsame.back, hsame.stays, rfl, rfl, rfl⟩
      · exact hsame
    · exact hsame
  | raiseIrq line => exact (same_raiseIrq s line).simulated hn
  | taskWatch slot target index =>
    refine simulated_call hn fun t _ _ _ => Same.simulated ?_ hn
    unfold taskWatch
    split
    · split
      · exact hsame.modify _ _ fun t _ => ⟨fun _ => rfl, rfl, fun hn => ⟨hn.table, hn.pending⟩⟩
      · exact hsame
    · exact hsame

end

/-! ### Runs -/

def marks (s : System) : List Mark := s.log.filterMap Event.mark

section
variable {s : System}

inductive Runs (P : Act → System → Prop) : System → Prop
  | start : Runs P start
  | step {s : System} (a : Act) : Runs P s → P a s → Runs P (act a s)

theorem Runs.reached {P : Act → System → Prop} (h : Runs P s) : Reached s := by
  induction h with
  | start => exact .start
  | step a _ _ ih => exact .step a ih

theorem start_neat : start.Neat := by
  intro i t ht
  obtain rfl := start_slot ht
  cases ht
  exact ⟨by decide, fun p hp => by cases hp⟩

variable {i : Nat}

theorem start_party {p : Party} (hp : (start.world none ∅).party i = some p) :
    p.phase = .idle ∧ p.pid = 1 := by
  obtain ⟨t, ht, rfl⟩ := Option.map_eq_some_iff.mp hp
  obtain rfl := start_slot ht
  cases ht
  exact ⟨rfl, rfl⟩

theorem start_ok : (start.world none ∅).Ok := by
  have hnone : ∀ m : Mark, m ∉ (start.world none ∅).marks := fun m => not_mem_nil
  refine ⟨?_, ?_, ?_, ?_, ?_, ?_, ?_, ?_, ?_, ?_, ?_, ?_, ?_⟩
  · exact fun i n hc => absurd hc (hnone _)
  · exact fun i j n hc => absurd hc (hnone _)
  · intro i p hp ho
    rw [(start_party hp).1] at ho
    exact ho.elim
  · exact fun i p _ _ y j pid seq => hnone _
  · intro i p y hp hw
    rw [(start_party hp).1] at hw
    cases hw
  · exact fun i n hc => absurd hc (hnone _)
  · exact fun m n hm => absurd hm (hnone _)
  · exact fun i n y ha => absurd ha (hnone _)
  · exact fun y i pid seq n hr => absurd hr (hnone _)
  · exact fun y y' i i' pid pid' seq seq' n hr => absurd hr (hnone _)
  · exact fun y y' i pid seq n n' hr => absurd hr (hnone _)
  · exact fun y i pid seq n hr => absurd hr (hnone _)
  · intro i p hp
    rw [(start_party hp).2]
    decide

theorem Reached.calls (h : Reached s) : s.Neat ∧ (s.world none ∅).Ok := by
  induction h with
  | start => exact ⟨start_neat, start_ok⟩
  | step a hr ih =>
    obtain ⟨hpath, hneat⟩ := act_simulated hr.bounded ih.1 a
    exact ⟨hneat, ih.2.path hpath⟩

theorem Reached.entitled (h : Reached s) : (s.world none ∅).Entitled := by
  induction h with
  | start =>
    intro y q c hq hc
    obtain ⟨t, ht, rfl⟩ := Option.map_eq_some_iff.mp hq
    obtain rfl := start_slot ht
    cases ht
    rcases hc with hc | ⟨index, hi, hc⟩
    · cases hc
    · have hne : index ≠ 1 ∧ index ≠ 2 ∧ index ≠ 3 := by
        simp only [slotDynamic] at hi
        omega
      simp [Task.saved, Task.cap, hne.1.symm, hne.2.1.symm, hne.2.2.symm] at hc
  | step a hr ih => exact ih.path (act_simulated hr.bounded hr.calls.1 a).1

theorem Runs.means (h : Runs Kind s) : (s.world none ∅).Means := by
  induction h with
  | start =>
    intro i p y hp hw
    rw [(start_party hp).1] at hw
    cases hw
  | step a hr hk ih =>
    obtain ⟨hpath, -⟩ := act_simulated hr.reached.bounded hr.reached.calls.1 a
    exact ih.path hk hpath

theorem reply_marks {y : Nat} {saved : Option Nat} {n : Option Named} {t : Task} {c : Call}
    (hrun : s.running y = some t) (hc : takeReply saved t = some (c, u)) :
    (act (.reply y saved n) s).marks = s.marks ∨ ∃ v, s.tasks c.slot = some v ∧ v.pid = c.pid ∧
      v.callSeq = c.seq ∧ v.state = .blockedReply y ∧
      (act (.reply y saved n) s).marks = .answer c.slot v.sendSeq (.reply y) :: s.marks := by
  obtain ⟨ht, hready⟩ := running_spec hrun
  simp only [act, call, hrun, ipcReply, hc]
  split
  · exact .inl rfl
  · rename_i haw
    split
    · exact .inl rfl
    · have hu : (s.set y u).tasks y = some u := by simp [System.set]
      obtain ⟨v, hv, h1, h2, h3⟩ := awaitsReply_spec (s := s.set y u) (c := c) (y := y) (by simpa using haw)
      have hne : c.slot ≠ y := by
        intro he
        rw [he, hu, Option.some.injEq] at hv
        subst hv
        rw [(takeReply_spec hc).2.1, hready] at h3
        cases h3
      have hv₀ : s.tasks c.slot = some v := by
        simpa only [System.set, Table.set_of_ne _ hne] using hv
      have h₃ := same_offered hu n c.slot
        (((((s.set y u).offer u n).1.tasks c.slot).map Task.receive).getD 0)
      refine .inr ⟨v, hv₀, h1, h2, h3, ?_⟩
      have hmarks := congrArg World.marks (h₃.world_fail (o := .reply y) hv)
      rw [fail_eq hv] at hmarks
      exact hmarks

theorem answer_called (h : (s.world none ∅).Ok) {n : Nat} {o : Outcome} (ha : .answer i n o ∈ s.marks) :
    .called i n ∈ s.marks := by
  have hmem : Mark.answer i n o ∈ Calls.ends n s.marks := mem_filter.mpr ⟨ha, by simp [Mark.ends]⟩
  obtain ⟨j, hj⟩ := h.ended _ n ha rfl
  rcases h.settled j n hj with ⟨p, hp, ho, rfl⟩ | ⟨m, hm, hor⟩
  · have hnil : Calls.ends p.call s.marks = [] := (h.going j p hp ho).2
    rw [hnil] at hmem
    cases hmem
  · have hm : Calls.ends n s.marks = [m] := hm
    rw [hm, mem_singleton] at hmem
    subst hmem
    rcases hor with hg | ⟨o', hg⟩
    · cases hg
    · cases hg
      exact hj

/-- Every call gets exactly one answer, its own, in every run in which no reply to a waiting client is refused
for its transfer and no saved reply of a waiting client is dropped. A call that was made goes on without an
end or has exactly one: an answer, or the end of its client. A reply is by the one server that received that
very call. The right a server replies by names one call, and the reply answers that call or nothing. And
whoever waits for a reply waits for a server that lives and has the means to give it. -/
theorem every_call_one_answer (h : Runs Kind s) : (∀ i n, .called i n ∈ s.marks →
      (∃ t, s.tasks i = some t ∧ t.calling = true ∧ t.sendSeq = n ∧ Calls.ends n s.marks = []) ∨
      (∃ o, Calls.ends n s.marks = [.answer i n o]) ∨ Calls.ends n s.marks = [.gone i n]) ∧
    (∀ i n o, .answer i n o ∈ s.marks → .called i n ∈ s.marks) ∧
    (∀ i n y, .answer i n (.reply y) ∈ s.marks → ∃ pid seq, .received y i pid seq n ∈ s.marks ∧
      ∀ y' i' pid' seq', .received y' i' pid' seq' n ∈ s.marks → y' = y ∧ i' = i) ∧
    (∀ y saved n t c u, s.running y = some t → takeReply saved t = some (c, u) →
      (act (.reply y saved n) s).marks = s.marks ∨
      ∃ m, (act (.reply y saved n) s).marks = .answer c.slot m (.reply y) :: s.marks ∧
        .received y c.slot c.pid c.seq m ∈ s.marks ∧
        ∀ y' m', .received y' c.slot c.pid c.seq m' ∈ s.marks → y' = y ∧ m' = m) ∧
    ∀ i t y, s.tasks i = some t → t.state = .blockedReply y → ∃ u, s.tasks y = some u ∧ u.state ≠ .exited ∧
      (u.replyTo = some ⟨i, t.pid, t.callSeq⟩ ∨
        ∃ index x, u.cap index = some x ∧ x.cap = .reply i t.pid t.callSeq) := by
  have hok := h.reached.calls.2
  refine ⟨?_, fun i n o ha => answer_called hok ha, ?_, ?_, ?_⟩
  · intro i n hc
    rcases hok.settled i n hc with ⟨p, hp, ho, rfl⟩ | ⟨m, hm, rfl | ⟨o, rfl⟩⟩
    · obtain ⟨t, ht, rfl⟩ := Option.map_eq_some_iff.mp hp
      exact .inl ⟨t, ht, calling_iff.mpr ho, (call_open ho).symm, (hok.going i _ hp ho).2⟩
    · exact .inr (.inr hm)
    · exact .inr (.inl ⟨o, hm⟩)
  · intro i n y ha
    obtain ⟨pid, seq, hr⟩ := hok.answered i n y ha
    refine ⟨pid, seq, hr, ?_⟩
    intro y' i' pid' seq' hr'
    exact ⟨(hok.single _ _ _ _ _ _ _ _ _ hr' hr).1, hok.once _ _ _ (hok.known _ _ _ _ _ hr') (hok.known _ _ _ _ _ hr)⟩
  · intro y saved n t c u hrun hc
    rcases reply_marks (n := n) hrun hc with he | ⟨v, hv, h1, h2, h3, he⟩
    · exact .inl he
    · have hph : v.phase = .waits y := phase_waits.mpr h3
      have hr := hok.waits c.slot (v.view false) y (world_party hv) hph
      have hcall : (v.view false).call = v.sendSeq := call_open (by rw [hph]; trivial)
      have hr : .received y c.slot c.pid c.seq v.sendSeq ∈ s.marks := by
        rw [hcall] at hr
        rw [← h1, ← h2]
        exact hr
      refine .inr ⟨v.sendSeq, he, hr, ?_⟩
      intro y' m' hr'
      have hm := hok.key _ _ _ _ _ _ _ hr' hr
      subst hm
      exact ⟨(hok.single _ _ _ _ _ _ _ _ _ hr' hr).1, rfl⟩
  · intro i t y ht hst
    obtain ⟨q, hq, hng, hmem⟩ := h.means i (t.view false) y (world_party ht) (phase_waits.mpr hst) (Set.notMem_empty y)
    obtain ⟨u, hu, rfl⟩ := Option.map_eq_some_iff.mp hq
    refine ⟨u, hu, ?_, ?_⟩
    · intro hx
      refine hng ?_
      simp [Task.view, Task.phase, hx]
    · rcases hmem with hr | ⟨index, -, hs⟩
      · exact .inl hr
      · refine .inr ⟨index, ?_⟩
        unfold Task.saved at hs
        split at hs
        · rename_i a b c hc
          obtain ⟨x, hx, hxc⟩ := Option.map_eq_some_iff.mp hc
          cases hs
          exact ⟨x, hx, hxc⟩
        · cases hs

/-- Also where replies are refused or dropped no call has two ends, and a reply to it is by the one server
that received it. -/
theorem no_call_ends_twice (h : Reached s) : (∀ n, (Calls.ends n s.marks).length ≤ 1) ∧
    ∀ i n y, .answer i n (.reply y) ∈ s.marks → (∃ pid seq, .received y i pid seq n ∈ s.marks) ∧
      ∀ y' i' pid seq, .received y' i' pid seq n ∈ s.marks → y' = y ∧ i' = i := by
  have hok := h.calls.2
  refine ⟨fun n => ?_, ?_⟩
  · cases hends : Calls.ends n s.marks with
    | nil => exact Nat.zero_le _
    | cons m ms =>
      obtain ⟨hm, hn⟩ := mem_filter.mp (hends ▸ mem_cons_self : m ∈ Calls.ends n s.marks)
      obtain ⟨i, hi⟩ := hok.ended m n hm (by simpa using hn)
      rcases hok.settled i n hi with ⟨p, hp, ho, rfl⟩ | ⟨m', hm', -⟩
      · cases hends.symm.trans (hok.going i p hp ho).2
      · rw [← hends]
        exact (congrArg length hm').le
  · intro i n y ha
    obtain ⟨pid, seq, hr⟩ := hok.answered i n y ha
    refine ⟨⟨pid, seq, hr⟩, fun y' i' _ _ hr' => ⟨(hok.single _ _ _ _ _ _ _ _ _ hr' hr).1, ?_⟩⟩
    exact hok.once _ _ _ (hok.known _ _ _ _ _ hr') (hok.known _ _ _ _ _ hr)

end

def spawnReader : Act := .spawn 1 false [⟨⟨1, ⟨endpointAll, false⟩, false, 0⟩, 1⟩] 2

def calledChild : System :=
  act (.send 1 ⟨1, true, none, 0, false⟩) (act (.recv 2 1 0 false) (act spawnReader start))

/-- The child that received init's call may answer it. -/
theorem child_may_answer : ∃ t, calledChild.tasks 1 = some t ∧ t.state = .blockedReply 2 ∧
      ∃ u, calledChild.tasks 2 = some u ∧ u.state ≠ .exited ∧ (u.replyTo = some ⟨1, t.pid, t.callSeq⟩ ∨
        ∃ index x, u.cap index = some x ∧ x.cap = .reply 1 t.pid t.callSeq) := by
  have hr : Runs Kind calledChild := .step _ (.step _ (.step _ .start trivial) trivial) trivial
  refine ⟨_, rfl, by decide, ?_⟩
  exact (every_call_one_answer hr).2.2.2.2 1 _ 2 rfl (by decide)

theorem answered_call_ends_once :
    let s := act (.reply 2 none none) calledChild
    Reached s ∧ ∀ n, (Calls.ends n s.marks).length ≤ 1 := by
  have hr : Reached (act (.reply 2 none none) calledChild) := .step _ (.step _ (.step _ (.step _ .start)))
  exact ⟨hr, (no_call_ends_twice hr).1⟩

/-- The child's reply names a memory object that may only move, to be copied: it is refused, and the child has
lost the right to answer. Init waits for a server that lives and has no means to answer it. -/
theorem client_left_by_refused_reply :
    let s := act (.reply 2 none (some ⟨43, ⟨endpointAll, false⟩, false, 0⟩))
      (act (.memDetach 2 page page 43) calledChild)
    Reached s ∧ (s.tasks 1).map (·.state) = some (.blockedReply 2) ∧
      (s.tasks 2).map (fun u => (u.state, u.replyTo, u.table.map Slot.cap)) =
        some (.ready, none, [.memory page page ⟨true, true, false, false, false⟩, .endpoint 1 endpointAll 0]) := by
  refine ⟨.step _ (.step _ (.step _ (.step _ (.step _ .start)))), ?_, ?_⟩
  · decide
  · decide

end System

end MindCore.Kernel.Ipc
