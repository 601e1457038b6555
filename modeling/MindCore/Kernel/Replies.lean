import MindCore.Kernel.Answers

/-!
# Messages in the world of calls

Sending, receiving and replying as moves of the world of `Calls`.
-/

namespace MindCore.Kernel.Ipc

open List
open Calls (Party)
open Calls.World (Path Move)

variable {cap : Capability} {receive : Nat}

namespace System

/-! ### Messages -/

section
variable {s s' : System}

def Movable (f : Task) (p : Pending) : Prop :=
  ∀ index z, p.movedFrom = some index → f.cap index = some z → z.node.id = p.node.id →
    ∀ slot pid seq, z.cap ≠ .reply slot pid seq

variable {f t r : Task} {i x y : Nat} {p : Pending} {o : Outcome} {c : Call}

theorem movable_of_bounded (hb : Bounded s) (hn : s.Neat) (hf : s.tasks i = some f)
    (hp : f.pending = some p) : Movable f p := by
  rintro index z - hz hid slot pid seq hc
  obtain ⟨m, hm, hnar⟩ := (hb.held _ _ (holds_cap hf hz)).made
  obtain ⟨m', hm', hnar'⟩ := (hb.held _ _ ⟨i, f, hf, Task.mem_holdings.mpr (.inr ⟨p, hp, rfl, rfl⟩)⟩).made
  rw [← hid, hm, Option.some.injEq] at hm'
  subst hm'
  rw [hc] at hnar
  cases hnar
  generalize hpc : p.cap = c at hnar'
  cases hnar'
  exact (hn i f hf).pending p hp slot pid seq hpc

theorem Same.place (h : Same s s') (hf : fixed receive = true)
    (hm : ∀ t, s'.tasks x = some t → Movable t p) : Same s (s'.place x y receive p) := by
  unfold System.place
  split
  · exact h.modify _ _ fun t _ => alike_arrive t hf
  · rename_i index hmoved
    split
    · rename_i z hz
      split
      · rename_i hid
        refine Same.modify (h.modify _ _ ?_) _ _ fun t _ => alike_arrive t hf
        intro t ht
        rw [ht, Option.bind_some] at hz
        refine alike_clear (Task.saved_none ?_)
        intro z' hz'
        rw [hz, Option.some.injEq] at hz'
        subst hz'
        exact hm t ht index z hmoved hz hid
      · exact h
    · exact h

theorem Same.handOver (h : Same s s') (x y receive : Nat) {p : Option Pending}
    (hm : ∀ q, p = some q → ∀ t, s'.tasks x = some t → Movable t q) : Same s (s'.handOver x y p receive) := by
  unfold System.handOver
  split
  · split
    · rename_i q hf
      exact (h.place hf (hm q rfl)).tell _ rfl
    · exact h
  · exact h

theorem transfer_plain {n : Named} (h : (s.transfer t n).2 = some p) :
    (∀ slot pid seq, p.cap ≠ .reply slot pid seq) ∧ ∀ index, p.movedFrom = some index → t.saved index = none := by
  simp only [transfer] at h
  split at h
  · cases h
  · rename_i x hx
    split at h
    · cases h
    · rename_i cap hc
      split at h
      · cases h
      · split at h
        · cases h
        · refine ⟨fun _ _ _ => ?_, ?_⟩
          · split at h <;> cases h <;> exact handed_ne_reply hc
          · intro index hi
            split at h
            · cases h
              cases hi
              refine Task.saved_none ?_
              intro y hy slot pid seq he
              rw [hx, Option.some.injEq] at hy
              subst hy
              rw [he] at hc
              cases hc
            · cases h
              cases hi

theorem offer_plain {n : Option Named} (h : (s.offer t n).2 = some p) :
    (∀ slot pid seq, p.cap ≠ .reply slot pid seq) ∧ Movable t p := by
  cases n with
  | none => cases h
  | some n =>
    obtain ⟨hcap, hmoved⟩ := transfer_plain h
    refine ⟨hcap, ?_⟩
    intro index z hi hz _ slot pid seq he
    have hnone := hmoved index hi
    simp [Task.saved, hz, he] at hnone

variable {K : Prop} {A : Option Nat} {D : Set Nat}

theorem call_open (ho : t.phase.Open) : (t.view false).call = t.sendSeq := by
  simp only [Task.view, Bool.false_eq_true, if_false]
  cases hp : t.phase with
  | asked => rfl
  | waits y => rfl
  | idle => rw [hp] at ho; exact ho.elim
  | gone => rw [hp] at ho; exact ho.elim

theorem fail_eq (ht : s.tasks i = some t) :
    s.fail i o = (s.set i { t with state := .ready }).tell (.answer i t.sendSeq o) := by
  simp only [fail, ht]

theorem world_fail (ht : s.tasks i = some t) (hs : A ≠ some i) :
    (s.fail i o).world A D =
      ((s.world A D).put i { t.view false with phase := .idle, call := 0 }).say (.answer i t.sendSeq o) := by
  rw [fail_eq ht, world_tell _ rfl, world_set, decide_eq_false hs]
  rfl

theorem move_fail (ht : s.tasks i = some t) (hs : A ≠ some i)
    (ho : t.phase.Open) (hr : ∀ y, o = .reply y → t.phase = .waits y) :
    Move K (s.world A D) ((s.fail i o).world A D) := by
  have hp := world_party (A := A) (D := D) ht
  rw [decide_eq_false hs] at hp
  have hm := Move.answer (K := K) (o := o) hp ho hr
  rw [call_open ho] at hm
  rw [world_fail ht hs]
  exact hm

theorem awaitsReply_spec (h : s.awaitsReply c y = true) :
    ∃ t, s.tasks c.slot = some t ∧ t.pid = c.pid ∧ t.callSeq = c.seq ∧ t.state = .blockedReply y := by
  unfold awaitsReply at h
  split at h
  · rename_i t ht
    simp only [Bool.and_eq_true, beq_iff_eq] at h
    exact ⟨t, ht, h.1.1, h.1.2, h.2⟩
  · cases h

theorem path_receive (hf : s.tasks x = some f) (hr : s.tasks y = some r) (hne : x ≠ y)
    (hx : A = some x ∨ A = none ∧ f.phase = .asked) (hy : r.state = .ready)
    (hlost : ∀ c, r.replyTo = some c → ¬ (s.world A D).Awaits c y) :
    Path K (s.world A D) ((((s.set y { r with replyTo := some ⟨x, f.pid, f.callSeq + 1⟩ }).set x
      { f with callSeq := f.callSeq + 1, state := .blockedReply y }).tell
        (.received y x f.pid (f.callSeq + 1) f.sendSeq)).world none D) := by
  have hA := hx.imp_right And.left
  have hpx := world_party (A := A) (D := D) hf
  have hpy := world_party (A := A) (D := D) hr
  rw [decide_eq_false (sending_ne hA (Ne.symm hne))] at hpy
  have hasked : (f.view (decide (A = some x))).phase = .asked := by
    rcases hx with hx | ⟨-, hph⟩
    · simp [Task.view, hx]
    · simp [Task.view, hph]
  have hcall : (f.view (decide (A = some x))).call = f.sendSeq := by
    rcases hx with hx | ⟨-, hph⟩
    · simp [Task.view, hx, Task.callIn]
    · simp [Task.view, hph, Task.callIn]
  set R : Set Call := {c | ∃ index, slotDynamic ≤ index ∧ r.saved index = some c} with hR
  have hsub : R ⊆ (r.view false).rights := fun c hc => .inr hc
  have hidle : (r.view false).phase = .idle := by simp [Task.view, Task.phase, hy]
  have hlose := Move.lose (K := K) (R := R) hpy hsub fun _ c hc hn => by
    rcases hc with hc | hc
    · exact hlost c hc
    · exact absurd hc hn
  have hreceive := Move.receive (K := K) (x := x) (y := y)
    ((Calls.World.put_of_ne (s.world A D) hne { r.view false with rights := R }).trans hpx) hasked
    (Calls.World.put_self ..) hidle
  have hrights : ({ r with replyTo := some ⟨x, f.pid, f.callSeq + 1⟩ } : Task).rights =
      insert ⟨x, f.pid, f.callSeq + 1⟩ R := by
    ext c
    simp only [Task.rights, Set.mem_ofPred_eq, Set.mem_insert_iff, Option.some.injEq, hR]
    exact or_congr eq_comm Iff.rfl
  have hserver : ({ r with replyTo := some ⟨x, f.pid, f.callSeq + 1⟩ } : Task).view false =
      { r.view false with rights := insert ⟨x, f.pid, f.callSeq + 1⟩ R } := by
    simp only [Task.view, hrights]
    rfl
  have hclient : ({ f with callSeq := f.callSeq + 1, state := .blockedReply y } : Task).view false =
      { f.view (decide (A = some x)) with phase := .waits y, call := f.sendSeq, seq := f.callSeq + 1 } := rfl
  rw [Calls.World.put_put, hcall] at hreceive
  rw [world_tell _ rfl, world_set, world_set, decide_eq_false (by simp), decide_eq_false (by simp), hserver, hclient,
    Calls.World.put_comm _ (Ne.symm hne), ← put_sending s hA, ← Calls.World.put_comm _ (Ne.symm hne)]
  exact .tail (.single hlose) hreceive

theorem phase_waits : t.phase = .waits y ↔ t.state = .blockedReply y := by
  unfold Task.phase
  constructor
  · intro h
    split at h
    · cases h
    · rename_i hs
      cases h
      exact hs
    · split at h <;> cases h
    · cases h
  · intro h
    rw [h]

theorem awaits_spec (h : (s.world A D).Awaits c y) :
    ∃ t, s.tasks c.slot = some t ∧ t.pid = c.pid ∧ t.callSeq = c.seq ∧ t.state = .blockedReply y := by
  obtain ⟨p, hp, hpid, hseq, hph⟩ := h
  obtain ⟨t, ht, rfl⟩ := Option.map_eq_some_iff.mp hp
  refine ⟨t, ht, hpid, hseq, phase_waits.mp ?_⟩
  by_cases hs : A = some c.slot
  · simp only [Task.view, hs, decide_true, if_true] at hph
    cases hph
  · simpa only [Task.view, hs, decide_false, Bool.false_eq_true, if_false] using hph

theorem awaitsReply_of (ht : s.tasks c.slot = some t) (hp : t.pid = c.pid)
    (hs : t.callSeq = c.seq) (hw : t.state = .blockedReply y) : s.awaitsReply c y = true := by
  simp [awaitsReply, ht, hp, hs, hw]

theorem fail_tasks (ht : s.tasks i = some t) :
    (s.fail i o).tasks i = some { t with state := .ready } ∧ ∀ j, j ≠ i → (s.fail i o).tasks j = s.tasks j := by
  simp only [fail, ht, System.tell, System.set, Table.set_self, true_and]
  exact fun j hj => Table.set_of_ne _ hj _

theorem awaitsReply_set {u : Task} (ht : s.tasks i = some t) (h : t.state ≠ .blockedReply y)
    (hu : u.state ≠ .blockedReply y) : (s.set i u).awaitsReply c y = s.awaitsReply c y := by
  by_cases hi : c.slot = i
  · subst hi
    simp only [awaitsReply, System.set, Table.set_self, ht, beq_eq_false_iff_ne.mpr h, beq_eq_false_iff_ne.mpr hu,
      Bool.and_false]
  · simp only [awaitsReply, System.set, Table.set_of_ne _ hi]

theorem fail_set (s : System) (u : Task) {j : Nat} (hne : j ≠ i) : (s.set i u).fail j o = (s.fail j o).set i u := by
  cases hv : s.tasks j with
  | none => simp only [fail, System.set, Table.set_of_ne _ hne, hv]
  | some v =>
    simp only [fail, System.set, Table.set_of_ne _ hne, hv, System.tell]
    unfold Table.set
    congr 2
    · exact Function.update_comm (Ne.symm hne) ..
    · dsimp only
      omega

theorem path_takeCall {f₀ r₀ : Task} (hf : s.tasks x = some f) (hr : s.tasks y = some r)
    (hne : x ≠ y) (hx : A = some x ∨ A = none ∧ f.phase = .asked) (hy : r.state = .ready)
    (hfs : ∀ z, f.state ≠ .blockedReply z) (hpid : f₀.pid = f.pid) (hseq : f₀.callSeq = f.callSeq)
    (hcall : f₀.sendSeq = f.sendSeq) (hr₀ : r₀.replyTo = r.replyTo) :
    Path K (s.world A D) ((s.takeCall x y f₀ r₀).world none D) := by
  have hrs : r.state ≠ .blockedReply y := by rw [hy]; exact fun he => by cases he
  have hset : ∀ s₁ : System, s₁.tasks y = some r → (s₁.set x { f with callSeq := f.callSeq + 1 }).tasks y = some r :=
    fun s₁ h => (Table.set_of_ne _ (Ne.symm hne) _).trans h
  -- the rest, once the client of the pending reply is no longer waiting
  have hfinish : ∀ s₁ : System, s₁.tasks x = some f → s₁.tasks y = some r →
      (∀ c, r.replyTo = some c → ¬ (s₁.world A D).Awaits c y) →
      Path K (s₁.world A D) (((((s₁.set x { f with callSeq := f.callSeq + 1 }).set y
        { r with replyTo := some ⟨x, f.pid, f.callSeq + 1⟩ }).modify x fun u => { u with state := .blockedReply y }).tell
          (.received y x f.pid (f.callSeq + 1) f.sendSeq)).world none D) := by
    intro s₁ h1 h2 h3
    have hpath := path_receive (K := K) h1 h2 hne hx hy h3
    rw [world_tell _ rfl, world_set, world_set] at hpath
    rw [modify_eq_set (t := { f with callSeq := f.callSeq + 1 })
        ((Table.set_of_ne _ hne _).trans (Table.set_self ..)), world_tell _ rfl, world_set, world_set, world_set,
      Calls.World.put_comm _ hne, Calls.World.put_put]
    exact hpath
  unfold takeCall
  rw [hpid, hseq, hcall, hr₀]
  dsimp only
  rw [modify_eq_set hf, modify_eq_set (hset s hr)]
  cases hreply : r.replyTo with
  | none => exact hfinish s hf hr fun c hc => by rw [hreply] at hc; cases hc
  | some c =>
    dsimp only
    have hsame : ((s.set x { f with callSeq := f.callSeq + 1 }).set y
        { r with replyTo := some ⟨x, f.pid, f.callSeq + 1⟩ }).awaitsReply c y = s.awaitsReply c y := by
      rw [awaitsReply_set (hset s hr) hrs, awaitsReply_set hf (hfs y)]
      · exact hfs y
      · exact hrs
    rw [hsame]
    split
    · rename_i haw
      obtain ⟨t, ht, -, -, hst⟩ := awaitsReply_spec haw
      have hcx : c.slot ≠ x := by
        intro he
        rw [he, hf, Option.some.injEq] at ht
        exact hfs y (ht ▸ hst)
      have hcy : c.slot ≠ y := by
        intro he
        rw [he, hr, Option.some.injEq] at ht
        exact hrs (ht ▸ hst)
      have hph : t.phase = .waits y := phase_waits.mpr hst
      have hanswer : Move K (s.world A D) ((s.fail c.slot .peer).world A D) :=
        move_fail ht (sending_ne (hx.imp_right And.left) hcx) (by rw [hph]; trivial) fun _ he => by cases he
      obtain ⟨hc, hother⟩ := fail_tasks (o := .peer) ht
      rw [fail_set _ _ hcy, fail_set _ _ hcx]
      refine .head hanswer (hfinish _ ((hother x (Ne.symm hcx)).trans hf) ((hother y (Ne.symm hcy)).trans hr) ?_)
      intro c' hc' haw'
      rw [hreply, Option.some.injEq] at hc'
      subst hc'
      obtain ⟨u, hu, -, -, hust⟩ := awaits_spec haw'
      rw [hc, Option.some.injEq] at hu
      subst hu
      cases hust
    · rename_i hnaw
      refine hfinish s hf hr ?_
      intro c' hc' haw'
      rw [hreply, Option.some.injEq] at hc'
      subst hc'
      obtain ⟨t, ht, hp, hq, hst⟩ := awaits_spec haw'
      exact hnaw (awaitsReply_of ht hp hq hst)

theorem Same.task (h : Same s s') (ht : s.tasks i = some t) : ∃ u, s'.tasks i = some u ∧ Alike t u := by
  obtain ⟨u, hu⟩ := h.stays i t ht
  obtain ⟨t', ht', ha⟩ := h.back i u hu
  rw [ht, Option.some.injEq] at ht'
  subst ht'
  exact ⟨u, hu, ha⟩

theorem Alike.phase {u : Task} (h : Alike t u) : u.phase = t.phase := congrArg Party.phase (h.view false)

theorem Alike.sendSeq {u : Task} (h : Alike t u) : u.sendSeq = t.sendSeq := congrArg Party.call (h.view true)

theorem path_deliver {ep : Nat} (hf : s.tasks x = some f) (hr : s.tasks y = some r) (hne : x ≠ y)
    (hidle : r.phase = .idle) (hm : ∀ p, f.pending = some p → Movable f p)
    (hcall : f.pendingCall = true → A = some x ∨ A = none ∧ f.phase = .asked)
    (hplain : f.pendingCall = false → A = none ∧ f.phase = .idle) (hfs : ∀ z, f.state ≠ .blockedReply z) :
    Path K (s.world A D) ((s.deliver ep x y).world none D) := by
  unfold deliver
  rw [hf, hr]
  dsimp only
  have h₁ : Same s ((s.set x { f with pending := none }).tell (.message x y ep)) := by
    refine Same.tell ?_ _ rfl
    exact (Same.refl s).set hf ⟨fun _ => rfl, rfl, fun hn => ⟨hn.table, fun p hp => by cases hp⟩⟩
  have h₂ := h₁.handOver x y r.receive (p := f.pending) fun p hp t ht => by
    simp only [System.tell, System.set, Table.set_self, Option.some.injEq] at ht
    subst ht
    exact hm p hp
  generalize ((s.set x { f with pending := none }).tell (.message x y ep)).handOver x y f.pending r.receive = s₂
    at h₂ ⊢
  obtain ⟨r₂, hr₂, har⟩ := h₂.task hr
  obtain ⟨f₂, hf₂, haf⟩ := h₂.task hf
  have h₃ : Same s (s₂.modify y fun u => { u with state := .ready }) := by
    refine h₂.modify _ _ ?_
    intro u hu
    rw [hr₂, Option.some.injEq] at hu
    subst hu
    exact alike_ready (har.phase.trans hidle)
  have hf₃ : (s₂.modify y fun u => { u with state := .ready }).tasks x = some f₂ := by
    simp only [System.modify, Table.modify_of_ne _ hne]
    exact hf₂
  have hr₃ : (s₂.modify y fun u => { u with state := .ready }).tasks y = some { r₂ with state := .ready } := by
    simp only [System.modify, Table.modify_self, hr₂, Option.map_some]
  rw [← h₃.world (A := A) (D := D)]
  split
  · rename_i hpc
    refine path_takeCall hf₃ hr₃ hne ?_ rfl ?_ ?_ ?_ haf.sendSeq.symm har.reply.symm
    · rw [haf.phase]
      exact hcall hpc
    · intro z hz
      exact hfs z (phase_waits.mp (haf.phase.symm.trans (phase_waits.mpr hz)))
    · exact (congrArg Party.pid (haf.view false)).symm
    · exact (congrArg Party.seq (haf.view false)).symm
  · rename_i hpc
    obtain ⟨hs, hph⟩ := hplain (by simpa using hpc)
    subst hs
    have h₄ := h₃.modify x (fun u => { u with state := .ready }) fun u hu => by
      rw [hf₃, Option.some.injEq] at hu
      subst hu
      exact alike_ready (haf.phase.trans hph)
    rw [h₄.world, h₃.world]
    exact .refl

end

/-! ### Sending, receiving, replying -/

section
variable {s s' : System} {K : Prop} {slot : Nat} {t : Task}

section
variable (q : SendRequest) (badge : Nat) (p : Option Pending) (ht : s.tasks slot = some t)
include q badge p ht

theorem compose_eq :
    s.compose q badge slot p = ({ s with sendSeq := s.sendSeq + 1 }.set slot { t with
      pending := p, pendingCall := q.call, pendingBadge := badge, sendSeq := s.sendSeq + 1, timed := q.timed,
      receive := q.receive }).tellIf q.call (.called slot (s.sendSeq + 1)) := by
  unfold compose
  dsimp only
  rw [modify_eq_set (s := { s with sendSeq := s.sendSeq + 1 }) ht]

theorem compose_tasks :
    (s.compose q badge slot p).tasks slot =
      some { t with
        pending := p, pendingCall := q.call, pendingBadge := badge, sendSeq := s.sendSeq + 1, timed := q.timed,
        receive := q.receive } ∧
      ∀ j, j ≠ slot → (s.compose q badge slot p).tasks j = s.tasks j := by
  simp only [compose, tellIf, System.modify, Table.modify_self, ht, Option.map_some, true_and]
  exact fun j hj => Table.modify_of_ne _ hj _

theorem move_compose_call
    (hready : t.state = .ready) (hq : q.call = true) :
    Move K (s.world none ∅) ((s.compose q badge slot p).world (some slot) ∅) := by
  have hp := world_party (A := none) (D := ∅) ht
  have hidle : (t.view false).phase = .idle := by simp [Task.view, Task.phase, hready]
  have hm := Move.ask (K := K) hp hidle
  rw [compose_eq q badge p ht, hq]
  change Move K _ ((System.tell (System.set _ slot _) (.called slot (s.sendSeq + 1))).world (some slot) ∅)
  rw [world_tell _ rfl, world_set, put_sending _ (.inl rfl), decide_eq_true rfl]
  exact hm

theorem move_compose_plain
    (hready : t.state = .ready) (hq : q.call = false) :
    Move K (s.world none ∅) ((s.compose q badge slot p).world none ∅) := by
  have hsame : (s.compose q badge slot p).world none ∅ = { s with sendSeq := s.sendSeq + 1 }.world none ∅ := by
    rw [compose_eq q badge p ht, hq]
    refine (world_set _ slot _).trans (Calls.World.put_party ((world_party (D := ∅) ht).trans ?_))
    simp only [Task.view, Task.phase, hready]
    rfl
  rw [hsame]
  exact .count

end

theorem path_ipcSend (q : SendRequest) (ht : s.tasks slot = some t) (hready : t.state = .ready) :
    Path K (s.world none ∅) ((ipcSend q slot t s).world none ∅) := by
  unfold ipcSend
  split
  · exact .refl
  · rename_i ep rights badge hep
    dsimp only
    split
    · exact .refl
    · generalize (if rights.grant = true then q.transfer else none) = n
      have ha := offer_aside s t n
      have h₁ : Same s (s.offer t n).1 := (Same.refl s).aside ha
      have ht₁ : (s.offer t n).1.tasks slot = some t := by rw [ha.tasks]; exact ht
      have hmov : ∀ p, (s.offer t n).2 = some p → Movable t p := fun p hp => (offer_plain hp).2
      generalize hpend : (s.offer t n).2 = pending at hmov ⊢
      obtain ⟨hself, hother⟩ := compose_tasks q badge pending ht₁
      -- the world once the message is composed
      have hcomposed : ∃ A, Path K (s.world none ∅)
          ((compose q badge slot pending (s.offer t n).1).world A ∅) ∧
          (q.call = true → A = some slot) ∧ (q.call = false → A = none) := by
        rw [← h₁.world (A := none) (D := ∅)]
        cases hq : q.call with
        | true =>
          exact ⟨some slot, .single (move_compose_call q badge pending ht₁ hready hq), fun _ => rfl,
            fun he => by cases he⟩
        | false =>
          exact ⟨none, .single (move_compose_plain q badge pending ht₁ hready hq), fun he => (by cases he),
            fun _ => rfl⟩
      obtain ⟨A, hpath, hcall, hplain⟩ := hcomposed
      refine hpath.trans ?_
      generalize compose q badge slot pending (s.offer t n).1 = s₂ at hself hother ⊢
      cases hr : s.blocked (.blockedRecv ep) with
      | some r =>
        obtain ⟨u, hu, hust⟩ := blocked_spec hr
        have hne : slot ≠ r := by
          rintro rfl
          rw [ht, Option.some.injEq] at hu
          subst hu
          rw [hready] at hust
          cases hust
        have hu₂ : s₂.tasks r = some u := by rw [hother r (Ne.symm hne), ha.tasks]; exact hu
        refine path_deliver hself hu₂ hne (by simp [Task.phase, hust]) ?_ ?_ ?_ ?_
        · intro p hp
          exact hmov p hp
        · exact fun hq => .inl (hcall hq)
        · exact fun hq => ⟨hplain hq, by simp [Task.phase, hready]⟩
        · intro z hz
          rw [hready] at hz
          cases hz
      | none =>
        have hsame : (s₂.modify slot fun t => { t with state := .blockedSend ep }).world none ∅ =
            s₂.world A ∅ := by
          have hA := (Bool.eq_false_or_eq_true q.call).imp hcall hplain
          rw [modify_eq_set hself, world_set, ← put_sending s₂ hA]
          refine Calls.World.put_party ((world_party hself).trans ?_)
          cases hq : q.call with
          | true =>
            rw [hcall hq]
            simp only [Task.view, Task.phase, decide_true, if_true]
            rfl
          | false =>
            rw [hplain hq]
            simp only [Task.view, Task.phase, hready]
            rfl
        rw [hsame]

theorem path_ipcRecv (hb : Bounded s) (hn : s.Neat) (index receive : Nat) (timed : Bool) (ht : s.tasks slot = some t)
    (hready : t.state = .ready) : Path K (s.world none ∅) ((ipcRecv index receive timed slot t s).world none ∅) := by
  have hidle : t.phase = .idle := by simp [Task.phase, hready]
  have h₁ : Same s (s.modify slot fun t => { t with receive := receive }) :=
    (Same.refl s).modify _ _ fun t _ => ⟨fun _ => rfl, rfl, fun hn => ⟨hn.table, hn.pending⟩⟩
  have ht₁ : (s.modify slot fun t => { t with receive := receive }).tasks slot = some { t with receive := receive } := by
    simp only [System.modify, Table.modify_self, ht, Option.map_some]
  unfold ipcRecv
  split
  · exact .refl
  · rename_i ep rights badge hep
    split
    · exact .refl
    · dsimp only
      split
      · have h₂ : Same s { (s.modify slot fun t => { t with receive := receive }) with bindings := takeIrq ep s.bindings } :=
          ⟨h₁.back, h₁.stays, h₁.marks, h₁.sent, h₁.pids⟩
        have hw := h₂.world (A := none) (D := ∅)
        exact hw ▸ .refl
      · split
        · have h₂ : Same s { (s.modify slot fun t => { t with receive := receive }) with
              exits := s.exits.eraseP fun e => e.ep == ep } := ⟨h₁.back, h₁.stays, h₁.marks, h₁.sent, h₁.pids⟩
          have hw := h₂.world (A := none) (D := ∅)
          exact hw ▸ .refl
        · rw [← h₁.world (A := none) (D := ∅)]
          split
          · rename_i sender hs
            obtain ⟨f, hf, hst⟩ := firstSender_spec hs
            have hne : sender ≠ slot := by
              rintro rfl
              rw [ht₁, Option.some.injEq] at hf
              subst hf
              rw [hready] at hst
              cases hst
            have hf₀ : s.tasks sender = some f := by
              simpa only [System.modify, Table.modify_of_ne _ hne] using hf
            refine path_deliver hf ht₁ hne ?_ ?_ ?_ ?_ ?_
            · exact hidle
            · intro p hp
              exact movable_of_bounded hb hn hf₀ hp
            · exact fun hq => .inr ⟨rfl, by simp [Task.phase, hst, hq]⟩
            · exact fun hq => ⟨rfl, by simp [Task.phase, hst, hq]⟩
            · intro z hz
              rw [hst] at hz
              cases hz
          · have h₂ := h₁.modify slot (fun t => { t with state := .blockedRecv ep, timed := timed }) fun u hu => by
              rw [ht₁, Option.some.injEq] at hu
              subst hu
              exact ⟨Task.view_congr rfl hidle.symm rfl rfl rfl, rfl, fun hn => ⟨hn.table, hn.pending⟩⟩
            rw [h₂.world, h₁.world]
            exact .refl

theorem rights_clear {index : Nat} {c : Call} (hc : c ∈ t.rights) (hn : c ∉ (t.clear index).rights) :
    t.saved index = some c := by
  rcases hc with hc | ⟨i, hi, hc⟩
  · exact absurd (.inl hc) hn
  · by_cases he : i = index
    · rw [← he]
      exact hc
    · refine absurd (.inr ⟨i, hi, ?_⟩) hn
      rw [Task.saved_of_cap (Task.cap_clear_of_ne t he)]
      exact hc

theorem clear_rights (t : Task) (index : Nat) : (t.clear index).rights ⊆ t.rights := by
  rintro c (hc | ⟨i, hi, hc⟩)
  · exact .inl hc
  · by_cases he : i = index
    · subst he
      rw [Task.saved_none fun x hx => by rw [Task.cap_clear_self] at hx; cases hx] at hc
      cases hc
    · rw [Task.saved_of_cap (Task.cap_clear_of_ne t he)] at hc
      exact .inr ⟨i, hi, hc⟩

variable {u : Task}

theorem move_lose (ht : s.tasks slot = some t) (hready : t.state = .ready) (hpid : u.pid = t.pid)
    (hst : u.state = t.state) (hseq : u.callSeq = t.callSeq) (hr : u.rights ⊆ t.rights)
    (hk : K → ∀ c ∈ t.rights, c ∉ u.rights → s.awaitsReply c slot = false) :
    Move K (s.world none ∅) ((s.set slot u).world none ∅) := by
  have hp := world_party (A := none) (D := ∅) ht
  have hm := Move.lose (K := K) (R := u.rights) hp hr fun hK c hc hn haw => by
    obtain ⟨v, hv, h1, h2, h3⟩ := awaits_spec haw
    have hfalse := hk hK c hc hn
    rw [awaitsReply_of hv h1 h2 h3] at hfalse
    cases hfalse
  have hview : u.view false = { t.view false with rights := u.rights } := by
    simp only [Task.view, Task.phase, hpid, hst, hseq, hready]
    rfl
  rw [world_set]
  exact hview ▸ hm

theorem takeReply_spec {saved : Option Nat} {c : Call} (h : takeReply saved t = some (c, u)) :
    u.pid = t.pid ∧ u.state = t.state ∧ u.callSeq = t.callSeq ∧ u.rights ⊆ t.rights ∧
      (∀ c' ∈ t.rights, c' ∉ u.rights → c' = c) ∧ (t.Neat → u.Neat) := by
  unfold takeReply at h
  split at h
  · obtain ⟨c', hc, he⟩ := Option.map_eq_some_iff.mp h
    cases he
    refine ⟨rfl, rfl, rfl, ?_, ?_, fun hn => ⟨hn.table, hn.pending⟩⟩
    · rintro d (hd | hd)
      · cases hd
      · exact .inr hd
    · rintro d (hd | hd) hn
      · rw [hc, Option.some.injEq] at hd
        exact hd.symm
      · exact absurd (.inr hd) hn
  · rename_i index
    split at h
    · rename_i i pid seq hc
      cases h
      refine ⟨rfl, rfl, rfl, clear_rights t index, ?_, fun hn => ⟨Task.Nodup.filter hn.table _, hn.pending⟩⟩
      intro d hd hn
      have hs := rights_clear hd hn
      rw [Task.saved, hc] at hs
      cases hs
      rfl
    · cases h

theorem Same.world_fail (h : Same s s') {i : Nat} {o : Outcome} (ht : s.tasks i = some t) :
    (s'.fail i o).world none ∅ = (s.fail i o).world none ∅ := by
  obtain ⟨u, hu, ha⟩ := h.task ht
  rw [System.world_fail hu (Option.some_ne_none i).symm, System.world_fail ht (Option.some_ne_none i).symm, h.world, ha.view, ha.sendSeq]

theorem same_offered (hu : s.tasks slot = some u) (n : Option Named) (y receive : Nat) :
    Same s ((s.offer u n).1.handOver slot y (s.offer u n).2 receive) := by
  have ha := offer_aside s u n
  refine ((Same.refl _).aside ha).handOver _ _ _ ?_
  intro p hp w hw
  rw [ha.tasks, hu, Option.some.injEq] at hw
  subst hw
  exact (offer_plain hp).2

def replyRefused (s : System) (t : Task) (n : Option Named) : Bool :=
  n.any (copyRefused t) || n.any (s.transferRefused t)

theorem path_ipcReply (saved : Option Nat) (n : Option Named) (ht : s.tasks slot = some t)
    (hready : t.state = .ready)
    (hk : K → ∀ c u, takeReply saved t = some (c, u) → (s.set slot u).awaitsReply c slot = true →
      (s.set slot u).replyRefused u n = false) :
    Path K (s.world none ∅) ((ipcReply saved n slot t s).world none ∅) := by
  unfold ipcReply
  split
  · exact .refl
  · rename_i c u hc
    obtain ⟨hpid, hst, hseq, hsub, honly, -⟩ := takeReply_spec hc
    have hu : (s.set slot u).tasks slot = some u := by simp [System.set]
    have hnot : t.state ≠ .blockedReply slot := by rw [hready]; exact fun he => by cases he
    have hsame : ∀ d : Call, (s.set slot u).awaitsReply d slot = s.awaitsReply d slot :=
      fun _ => awaitsReply_set ht hnot (hst ▸ hnot)
    dsimp only
    split
    · rename_i hnaw
      refine .single (move_lose ht hready hpid hst hseq hsub ?_)
      intro _ c' hc' hn
      rw [honly c' hc' hn, ← hsame]
      simpa using hnaw
    · rename_i haw
      have haw : (s.set slot u).awaitsReply c slot = true := by simpa using haw
      split
      · rename_i href
        refine .single (move_lose ht hready hpid hst hseq hsub ?_)
        intro hK
        have hfalse := hk hK c u hc haw
        rw [replyRefused, href] at hfalse
        cases hfalse
      · obtain ⟨v, hv₀, h1, h2, h3⟩ := awaitsReply_spec (hsame c ▸ haw)
        have hne : c.slot ≠ slot := by
          intro he
          rw [he, ht, Option.some.injEq] at hv₀
          exact hnot (hv₀ ▸ h3)
        have hv : (s.set slot u).tasks c.slot = some v := (Table.set_of_ne _ hne _).trans hv₀
        have hph : v.phase = .waits slot := phase_waits.mpr h3
        have hanswer : Move K (s.world none ∅) ((s.fail c.slot (.reply slot)).world none ∅) := by
          refine move_fail hv₀ (fun he => by cases he) (by rw [hph]; trivial) ?_
          intro y hy
          cases hy
          exact hph
        obtain ⟨hf1, hf2⟩ := fail_tasks (o := .reply slot) hv₀
        have hlose : Move K ((s.fail c.slot (.reply slot)).world none ∅)
            (((s.fail c.slot (.reply slot)).set slot u).world none ∅) := by
          refine move_lose ((hf2 slot (Ne.symm hne)).trans ht) hready hpid hst hseq hsub ?_
          intro _ c' hc' hn
          have hcc := honly c' hc' hn
          subst hcc
          simp [awaitsReply, hf1]
        have h₃ := same_offered hu n c.slot
          (((((s.set slot u).offer u n).1.tasks c.slot).map Task.receive).getD 0)
        rw [h₃.world_fail hv, fail_set _ _ hne]
        exact .tail (.single hanswer) hlose

end

end System

end MindCore.Kernel.Ipc
