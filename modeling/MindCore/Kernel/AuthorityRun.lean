import MindCore.Kernel.Authority
import MindCore.Kernel.Updates

/-!
# Authority in every run

Each call is a `Step`: those that make no node stay `Within` what was held, the others make theirs with
`root_spec` and `child_spec` first.
-/

namespace MindCore.Kernel.Ipc

open List
open Sched (newEndpoint)

namespace System

/-! ### Calls that make no node -/

variable {x : Slot}

section
variable {N : Capability → Prop} {s s' : System} {slot index : Nat} {t : Task}

theorem Within.drops (h : Within N s s') {u : Task} (ht : s'.tasks slot = some t)
    (htab : ∀ x ∈ u.table, x ∈ t.table) (hpend : u.pending = none ∨ u.pending = t.pending)
    (hmaps : ∀ q ∈ u.maps, q ∈ t.maps) : Within N s (s'.set slot u) := by
  refine h.set ?_ fun q hq => h.maps q ⟨slot, t, ht, hmaps q hq⟩
  intro c n hc
  rcases Task.mem_holdings.mp hc with ⟨x, hx, hcn⟩ | ⟨q, hq, hcn⟩
  · exact h.task ht (Task.mem_holdings.mpr (.inl ⟨x, htab x hx, hcn⟩))
  · rcases hpend with hp | hp
    · rw [hp] at hq
      cases hq
    · exact h.task ht (Task.mem_holdings.mpr (.inr ⟨q, hp ▸ hq, hcn⟩))

/-- What is held stays fair through every edit of a task. -/
theorem closed_within (N : Capability → Prop) (s : System) :
    Closed (fun p => Fair N s p.cap p.node) (Within N s) where
  edit := by
    intro s' slot t u h ht he
    cases he with
    | clear index => exact h.drops ht (fun _ hx => (mem_filter.mp hx).1) (.inr rfl) fun _ hq => hq
    | arrive index p hp =>
      refine h.set ?_ fun q hq => h.maps q ⟨slot, t, ht, hq⟩
      intro c n hc
      rcases Task.mem_holdings.mp hc with ⟨y, hy, rfl, rfl⟩ | hc
      · rcases mem_cons.mp hy with rfl | hy
        · exact hp
        · exact h.task ht (Task.mem_holdings.mpr (.inl ⟨y, (mem_filter.mp hy).1, rfl, rfl⟩))
      · exact h.task ht (Task.mem_holdings.mpr (.inr hc))
    | rest htab hmaps hpend =>
      refine h.set ?_ fun q hq => h.maps q ⟨slot, t, ht, hmaps ▸ hq⟩
      intro c n hc
      rcases Task.mem_holdings.mp hc with ⟨x, hx, hcn⟩ | ⟨q, hq, rfl, rfl⟩
      · exact h.task ht (Task.mem_holdings.mpr (.inl ⟨x, htab ▸ hx, hcn⟩))
      · rcases hpend with hp | hp
        · exact h.task ht (Task.mem_holdings.mpr (.inr ⟨q, hp ▸ hq, rfl, rfl⟩))
        · exact hp q hq
  beside h hb := h.of_tasks hb.made hb.origin hb.next hb.tasks
  pending h ht hp := h.task ht (Task.mem_holdings.mpr (.inr ⟨_, hp, rfl, rfl⟩))

section
variable (h : Within N s s')
include h

theorem Within.reap (runs : Nat → Bool) : Within N s (s'.reap runs) := by
  refine ⟨h.made, h.origin, h.next, ?_, ?_⟩
  · rintro c n ⟨i, t, ht, hmem⟩
    exact h.task (Option.filter_eq_some_iff.mp ht).1 hmem
  · rintro q ⟨i, t, ht, hmem⟩
    exact h.maps q ⟨i, t, (Option.filter_eq_some_iff.mp ht).1, hmem⟩

theorem Within.strike (root id : Nat) : Within N s (s'.strike root id) := by
  unfold System.strike
  split
  · refine ⟨h.made, h.origin, h.next, ?_, ?_⟩
    · rintro c n ⟨i, t, ht, hmem⟩
      obtain ⟨u, hu, rfl⟩ := Option.map_eq_some_iff.mp ht
      rcases Task.mem_holdings.mp hmem with ⟨x, hx, hcn⟩ | ⟨q, hq, hcn⟩
      · exact h.task hu (Task.mem_holdings.mpr (.inl ⟨x, (mem_filter.mp hx).1, hcn⟩))
      · exact h.task hu (Task.mem_holdings.mpr (.inr ⟨q, (Option.filter_eq_some_iff.mp hq).1, hcn⟩))
    · rintro q ⟨i, t, ht, hmem⟩
      obtain ⟨u, hu, rfl⟩ := Option.map_eq_some_iff.mp ht
      exact h.maps q ⟨i, u, hu, (mem_filter.mp hmem).1⟩
  · exact h

end

end

/-! ### Every call -/

section
variable {N : Capability → Prop} {s : System} {slot : Nat} {t : Task}

variable {u : Task} {cap : Capability} {service : Bool}

theorem step_insert {s₁ : System} (hb : Bounded s₁) (hx : Extends s s₁)
    (hf : Fair N s₁ x.cap x.node) (ht : s.tasks slot = some t) (htab : ∀ y ∈ u.table, y ∈ t.table)
    (hpend : u.pending = t.pending) (hmaps : u.maps = t.maps) : Step N s (s₁.set slot (u.put x)) := by
  rw [← hx.tasks] at ht
  have hm : ∀ q ∈ (u.put x).maps, Mapped N s₁ q := by
    intro q hq
    have hq : q ∈ u.maps := hq
    rw [hmaps] at hq
    exact .inl ⟨slot, t, ht, hq⟩
  refine .of_within hb hx ((Within.refl hb).set ?_ hm)
  intro c n hc
  rcases Task.mem_holdings.mp hc with ⟨y, hy, hcn⟩ | ⟨q, hq, hcn⟩
  · rcases mem_cons.mp hy with rfl | hy
    · obtain ⟨rfl, rfl, rfl⟩ := hcn
      exact hf
    · exact hb.fair ⟨slot, t, ht, Task.mem_holdings.mpr (.inl ⟨y, htab y hy, hcn⟩)⟩
  · have hq : t.pending = some q := hpend ▸ hq
    exact hb.fair ⟨slot, t, ht, Task.mem_holdings.mpr (.inr ⟨q, hq, hcn⟩)⟩

section
variable (h : Bounded s)
include h

section
variable (ht : s.tasks slot = some t)
include ht

theorem step_insertRoot (hu : Unbadged cap)
    (hN : N cap) (index : Nat) : Step N s (insertRoot cap index slot t s) := by
  unfold insertRoot
  split
  · obtain ⟨hb, hx, hf⟩ := root_spec h hu hN
    exact step_insert hb hx hf ht (fun _ hy => hy) rfl rfl
  · exact .within h (.refl h)

theorem step_saveReply (index : Nat)
    (hN : ∀ c : Call, N (.reply c.slot c.pid c.seq)) : Step N s (saveReply index slot t s) := by
  unfold saveReply
  split
  · exact .within h (.refl h)
  · rename_i c _
    split
    · have hu : Unbadged (.reply c.slot c.pid c.seq) := trivial
      obtain ⟨hb, hx, hf⟩ := root_spec h hu (hN c)
      exact step_insert hb hx hf ht (fun _ hy => hy) rfl rfl
    · exact .within h (.refl h)

theorem step_composite (base size index : Nat)
    (hN : N (.memory base size ⟨true, false, false, false, false⟩)) :
    Step N s (composite base size index slot t s) := by
  unfold composite
  split
  · have hu : Unbadged (.memory base size ⟨true, false, false, false, false⟩) := trivial
    obtain ⟨hb, hx, hf⟩ := root_spec h hu hN
    exact step_insert hb hx hf ht (fun _ hy => (mem_filter.mp hy).1) rfl rfl
  · exact .within h (.refl h)

theorem step_capMint (source index : Nat) (mask : Rights) (offset length badge : Nat) (deny : Bool) :
    Step N s (capMint source index mask offset length badge deny slot t s) := by
  unfold capMint
  split
  · exact .within h (.refl h)
  · rename_i x hx
    have hh := holds_cap ht hx
    split
    · exact .within h (.refl h)
    · rename_i cap hc
      obtain ⟨hn, hu⟩ := mint_narrow hc (h.held _ _ hh).badge
      split
      · exact .within h (.refl h)
      · obtain ⟨hb, hx', hf⟩ := child_spec h hh hn hu ⟨(mint_kind hc).2, (mint_kind hc).1⟩
        exact step_insert hb hx' hf ht (fun _ hy => hy) rfl rfl

theorem step_memDetach (base size index : Nat)
    (hN : N (.memory base size ⟨true, true, false, false, false⟩)) :
    Step N s (memDetach base size index slot t s) := by
  unfold memDetach
  split
  · have hu : Unbadged (.memory base size ⟨true, true, false, false, false⟩) := trivial
    obtain ⟨hb, hx, hf⟩ := root_spec h hu hN
    have hstep := step_insert (x := ⟨index, _, _⟩) hb hx hf ht (fun _ hy => hy) rfl rfl
    exact ⟨hstep.bounded.same rfl rfl rfl rfl, hstep.source, hstep.maps, hstep.made, hstep.opened⟩
  · exact .within h (.refl h)

theorem step_ipcSend (q : SendRequest) : Step N s (ipcSend q slot t s) := by
  unfold ipcSend
  split
  · exact .within h (.refl h)
  · rename_i ep rights badge _
    dsimp only
    split
    · exact .within h (.refl h)
    · generalize (if rights.grant = true then q.transfer else none) = n
      obtain ⟨hb, hx, hp⟩ := offer_spec h ht n
      refine .of_within hb hx ?_
      have hsent := (closed_within N _).compose (.refl hb) q badge slot hp
      split
      · exact (closed_within N _).deliver hsent _ _ _
      · exact (closed_within N _).modify hsent _ _ fun _ => .keep rfl rfl rfl

end

theorem step_ipcRecv (index receive : Nat) (timed : Bool) : Step N s (ipcRecv index receive timed slot t s) :=
  .within h ((closed_within N s).ipcRecv (.refl h) index receive slot timed t)

end

theorem takeReply_drops {saved : Option Nat} {c : Call} (h : takeReply saved t = some (c, u)) :
    (∀ x ∈ u.table, x ∈ t.table) ∧ u.pending = t.pending ∧ u.maps = t.maps := by
  unfold takeReply at h
  split at h
  · obtain ⟨c', -, he⟩ := Option.map_eq_some_iff.mp h
    cases he
    exact ⟨fun _ hx => hx, rfl, rfl⟩
  · split at h
    · cases h
      exact ⟨fun _ hx => (mem_filter.mp hx).1, rfl, rfl⟩
    · cases h

theorem step_ipcReply (h : Bounded s) (ht : s.tasks slot = some t) (saved : Option Nat) (n : Option Named) :
    Step N s (ipcReply saved n slot t s) := by
  unfold ipcReply
  split
  · exact .within h (.refl h)
  · rename_i c u hu
    obtain ⟨htab, hpend, hmaps⟩ := takeReply_drops hu
    have hset : Within (fun _ => False) s (s.set slot u) :=
      (Within.refl h).drops ht htab (.inr hpend) fun q hq => hmaps ▸ hq
    have hb := hset.bounded h
    refine Step.after hset ?_
    dsimp only
    split
    · exact .within hb (.refl hb)
    · split
      · exact .within hb (.refl hb)
      · have hu' : (s.set slot u).tasks slot = some u := by simp [System.set]
        obtain ⟨hb', hx, hp⟩ := offer_spec (N := N) hb hu' n
        have hP := closed_within N ((s.set slot u).offer u n).1
        exact .of_within hb' hx (hP.fail (hP.handOver (.refl hb') slot c.slot _ hp) c.slot (.reply slot))

theorem opened_narrow {cap' : Capability} (h : opened service cap = some cap')
    (hu : Unbadged cap) : Narrow cap cap' ∧ Unbadged cap' ∧ (cap' = cap ∨ service = true) := by
  unfold opened at h
  split at h
  · split at h
    · cases h
      exact ⟨.opened _, trivial, .inr ‹_›⟩
    · cases h
  · cases h
    exact ⟨.refl _, hu, .inl rfl⟩

theorem grants_spec (service : Bool) (gs : List Grant) (h : Bounded s) (ht : s.tasks slot = some t)
    {s' : System} {table : List Slot} {moves : List Nat}
    (hg : grants service t gs s = some (s', table, moves)) :
    Bounded s' ∧ Extends s s' ∧
      ∀ x ∈ table, Entitled s' x.cap x.node ∧ Source (fun _ => False) s' x.cap ∧
        (Fair (fun _ => False) s' x.cap x.node ∨ service = true) := by
  induction gs generalizing s s' table moves with
  | nil =>
    obtain ⟨rfl, rfl, rfl⟩ := hg
    exact ⟨h, .refl s, nofun⟩
  | cons g rest ih =>
    simp only [grants] at hg
    split at hg
    · cases hg
    · obtain ⟨hb, hx, hp⟩ := transfer_spec (N := fun _ => False) h ht g.own
      split at hg
      · cases hg
      · rename_i s₁ p heq
        rw [heq] at hb hx hp
        have hfair := hp p rfl
        split at hg
        · rename_i cap s₂ tab mvs hcap hrest
          obtain ⟨hb', hx', htab⟩ := ih hb (by rw [hx.tasks]; exact ht) hrest
          obtain ⟨hn, hu, hsame⟩ := opened_narrow hcap hfair.entitled.badge
          simp only [Option.some.injEq, Prod.mk.injEq] at hg
          obtain ⟨rfl, rfl, -⟩ := hg
          refine ⟨hb', hx.trans hx', ?_⟩
          have hnew : Entitled s₂ cap p.node ∧ Source (fun _ => False) s₂ cap ∧ (Fair (fun _ => False) s₂ cap p.node ∨ service = true) := by
            obtain ⟨m, hm, hnm⟩ := hfair.entitled.made
            have hsource : Source (fun _ => False) s₁ cap := by
              rcases hfair.source with ⟨c, n, hh, hc⟩ | hN
              · exact .inl ⟨c, n, hh, hc.trans hn⟩
              · exact hN.elim
            refine ⟨hx'.entitled ⟨⟨m, hm, hnm.trans hn⟩, hu, hfair.entitled.node⟩,
              hsource.of_tasks hx'.tasks.symm, ?_⟩
            rcases hsame with rfl | hs
            · exact .inl (hx'.fair hfair)
            · exact .inr hs
          intro y hy
          split at hy
          · exact htab y hy
          · rcases mem_cons.mp hy with rfl | hy
            · exact hnew
            · exact htab y hy
        · cases hg

theorem step_spawnWith (h : Bounded s) (ht : s.tasks slot = some t) {opens : Bool}
    (ho : opens = true → service = true) (gs : List Grant) (child : Nat) :
    Step (fun _ => False) s (spawnWith service opens gs child slot t s) := by
  unfold spawnWith
  split
  · exact .within h (.refl h)
  · split
    · exact .within h (.refl h)
    · rename_i s₁ table moves hg
      obtain ⟨hb, hx, htab⟩ := grants_spec opens gs h ht hg
      have hw : Within (fun _ => False) s₁
          (s₁.set slot { t with table := t.table.filter fun x => !moves.contains x.index }) :=
        (Within.refl hb).drops (by rw [hx.tasks]; exact ht) (fun _ hy => (mem_filter.mp hy).1) (.inr rfl)
          fun _ hq => hq
      have hstep := Step.of_within hb hx hw
      -- everybody else holds what the intermediate state has; the child holds its grants
      refine ⟨⟨hstep.bounded.ledger.same rfl rfl rfl, ?_⟩, ?_, ?_, hstep.made, ?_⟩
      · rintro c n ⟨i, u, hu, hmem⟩
        rcases System.set_some hu with ⟨rfl, rfl⟩ | ⟨-, hu⟩
        · rcases Task.mem_holdings.mp hmem with ⟨x, hx', rfl, rfl⟩ | ⟨q, hq, -⟩
          · exact (htab x hx').1.same rfl rfl
          · cases hq
        · exact (hstep.bounded.held c n ⟨i, u, hu, hmem⟩).same rfl rfl
      · rintro c n ⟨i, u, hu, hmem⟩
        rcases System.set_some hu with ⟨rfl, rfl⟩ | ⟨-, hu⟩
        · rcases Task.mem_holdings.mp hmem with ⟨x, hx', rfl, rfl⟩ | ⟨q, hq, -⟩
          · exact (htab x hx').2.1.of_tasks hx.tasks
          · cases hq
        · exact hstep.source c n ⟨i, u, hu, hmem⟩
      · rintro q ⟨i, u, hu, hmem⟩
        rcases System.set_some hu with ⟨rfl, rfl⟩ | ⟨-, hu⟩
        · cases hmem
        · exact hstep.maps q ⟨i, u, hu, hmem⟩
      · intro i u k n hu hmem hm
        rcases System.set_some hu with ⟨rfl, rfl⟩ | ⟨-, hu⟩
        · rcases Task.mem_holdings.mp hmem with ⟨x, hx', hc, rfl⟩ | ⟨q, hq, -⟩
          · rcases (htab x hx').2.2 with hf | hs
            · exact .inl (hc ▸ (hf.opened k hc hm).of_tasks hx.tasks)
            · exact .inr (ho hs)
          · cases hq
        · exact hstep.opened i u k n hu hmem hm

end

variable {s : System}

theorem step_call {N : Capability → Prop} (h : Bounded s) (slot : Nat)
    {f : Nat → Task → System → System} (hf : ∀ t, s.tasks slot = some t → Step N s (f slot t s)) :
    Step N s (s.call slot f) := by
  unfold call
  split
  · rename_i t ht
    exact hf t (Option.filter_eq_some_iff.mp ht).1
  · exact .within h (.refl h)

def makes : Act → Capability → Prop
  | .saveReply _ _, c => ∃ r : Call, c = .reply r.slot r.pid r.seq
  | .endpointCreate _ _, c => ∃ ep, c = .endpoint ep endpointAll 0
  | .grantRoot _ _ cap, c => c = cap
  | .composite _ _ base size, c => c = .memory base size ⟨true, false, false, false, false⟩
  | .memDetach _ base size _, c => c = .memory base size ⟨true, true, false, false, false⟩
  | _, _ => False

theorem memMap_step (h : Bounded s) {slot : Nat} {t : Task} (ht : s.tasks slot = some t)
    (index : Nat) : Step (fun _ => False) s (memMap index slot t s) := by
  unfold memMap
  split
  · exact .within h (.refl h)
  · rename_i x hx
    have hh : Source (fun _ => False) s x.cap := .inl ⟨x.cap, x.node, holds_cap ht hx, .refl _⟩
    have hset : ∀ q : Mapping, Through x.cap q →
        Step (fun _ => False) s (s.set slot { t with maps := q :: t.maps }) := by
      intro q hq
      refine .within h ((Within.refl h).set (fun c n hc => h.fair ⟨slot, t, ht, hc⟩) ?_)
      intro q' hq'
      rcases mem_cons.mp hq' with rfl | hq'
      · exact .inr ⟨x.cap, hh, hq⟩
      · exact .inl ⟨slot, t, ht, hq'⟩
    dsimp only
    split
    · exact .within h (.refl h)
    · rename_i q hq
      apply hset q
      split at hq
      · rename_i hcap
        split at hq
        · cases hq
          rw [hcap]
          exact ⟨rfl, rfl, rfl⟩
        · cases hq
      · rename_i hcap
        cases hq
        rw [hcap]
        exact ⟨rfl, rfl⟩
      · rename_i hcap
        cases hq
        rw [hcap]
        exact ⟨rfl, rfl⟩
      · cases hq

theorem act_step (h : Bounded s) (a : Act) : Step (makes a) s (act a s) := by
  have hsame : Within (makes a) s s := Within.refl h
  cases a with
  | send slot q => exact step_call h slot fun t ht => step_ipcSend h ht q
  | recv slot index receive timed => exact step_call h slot fun t _ => step_ipcRecv h index receive timed
  | reply slot saved n => exact step_call h slot fun t ht => step_ipcReply h ht saved n
  | saveReply slot index => exact step_call h slot fun t ht => step_saveReply h ht index fun c => ⟨c, rfl⟩
  | mint slot source index mask offset length badge deny =>
    exact step_call h slot fun t ht => step_capMint h ht source index mask offset length badge deny
  | drop slot index =>
    exact step_call h slot fun t ht =>
      .within h (hsame.drops ht (fun _ hx => (mem_filter.mp hx).1) (.inr rfl) fun _ hq => hq)
  | beginRevoke slot index =>
    refine step_call h slot fun t ht => .within h ?_
    unfold beginRevoke
    split
    · exact hsame.of_tasks rfl rfl rfl rfl
    · exact hsame
  | strike root id => exact .within h (hsame.strike root id)
  | endRevoke root => exact .within h (hsame.of_tasks rfl rfl rfl rfl)
  | endpointCreate slot index =>
    refine step_call h slot fun t ht => ?_
    unfold endpointCreate
    split
    · have hu : Unbadged (.endpoint (newEndpoint s.endpoints s.endpointsLen) endpointAll 0) := fun _ => rfl
      have hb : Bounded { s with
          endpoints := Function.update s.endpoints (newEndpoint s.endpoints s.endpointsLen) true
          endpointsLen := if newEndpoint s.endpoints s.endpointsLen = s.endpointsLen then 2 * s.endpointsLen else s.endpointsLen } :=
        h.same rfl rfl rfl rfl
      have hstep := step_insertRoot (N := makes (.endpointCreate slot index)) hb ht hu ⟨_, rfl⟩ index
      exact ⟨hstep.bounded, hstep.source, hstep.maps, hstep.made, hstep.opened⟩
    · exact .within h hsame
  | grantRoot slot index cap =>
    simp only [act]
    split
    · rename_i hr
      refine step_call h slot fun t ht => step_insertRoot (N := makes (.grantRoot slot index cap)) h ht ?_ rfl index
      cases cap with
      | endpoint id rights badge => cases hr
      | _ => trivial
    · exact .within h hsame
  | composite slot index base size =>
    simp only [act]
    split
    · exact step_call h slot fun t ht => step_composite h ht base size index rfl
    · exact .within h hsame
  | memDetach slot base size index => exact step_call h slot fun t ht => step_memDetach h ht base size index rfl
  | memMap slot index => exact step_call h slot fun t ht => memMap_step h ht index
  | memUnmap slot m =>
    exact step_call h slot fun t ht =>
      .within h (hsame.drops ht (fun _ hx => hx) (.inr rfl) fun _ hq => mem_of_mem_erase hq)
  | sweep => exact .within h (hsame.of_tasks rfl rfl rfl rfl)
  | spawn slot service gs child =>
    refine step_call h slot fun t ht => ?_
    unfold System.spawn
    split
    · exact .within h hsame
    · exact step_spawnWith h ht id gs child
  | workerStart slot gs child =>
    exact step_call h slot fun t ht => step_spawnWith h ht (by simp) gs child
  | terminate slot reason =>
    exact .within h ((closed_within _ s).terminate hsame slot reason)
  | expire slot => exact .within h ((closed_within _ s).expire hsame slot)
  | reap runs => exact .within h (hsame.reap runs)
  | irqBind slot line index =>
    refine step_call h slot fun t ht => .within h ?_
    unfold irqBind
    split
    · dsimp only
      split
      · exact hsame.of_tasks rfl rfl rfl rfl
      · exact hsame
    · exact hsame
  | raiseIrq line => exact .within h ((closed_within _ s).raiseIrq hsame line)
  | taskWatch slot target index =>
    refine step_call h slot fun t ht => .within h ?_
    unfold taskWatch
    split
    · split
      · exact (closed_within _ s).modify hsame _ _ fun _ => .keep rfl rfl rfl
      · exact hsame
    · exact hsame

theorem start_bounded : Bounded start := by
  refine ⟨⟨?_, nofun⟩, ?_⟩
  · intro id m hm
    simp only [start] at hm ⊢
    split at hm
    · omega
    · split at hm
      · omega
      · split at hm
        · omega
        · cases hm
  · rintro c n ⟨slot, t, ht, hmem⟩
    simp only [start] at ht
    split at ht
    · cases ht
      simp only [Task.holdings, map_cons, map_nil, Option.toList_none, append_nil,
        mem_cons, not_mem_nil, or_false, Prod.mk.injEq] at hmem
      rcases hmem with ⟨rfl, rfl⟩ | ⟨rfl, rfl⟩ | ⟨rfl, rfl⟩
      · exact ⟨⟨_, rfl, .refl _⟩, fun _ => rfl, .inl ⟨rfl, rfl⟩⟩
      · exact ⟨⟨_, rfl, .refl _⟩, trivial, .inl ⟨rfl, rfl⟩⟩
      · exact ⟨⟨_, rfl, .refl _⟩, trivial, .inl ⟨rfl, rfl⟩⟩
    · cases ht

theorem Reached.bounded (h : Reached s) : Bounded s := by
  induction h with
  | start => exact start_bounded
  | step a _ ih => exact (act_step ih a).bounded

/-! ### Bounded by the root -/

def Comes (s : System) : Nat → Nat → Prop := Relation.ReflTransGen fun p id => ∃ pc, s.origin id = some (p, pc)

theorem Ledger.rooted (h : Ledger s) (id : Nat) {m : Capability} (hm : s.made id = some m) :
    ∃ r rc, s.made r = some rc ∧ s.origin r = none ∧ s.Comes r id ∧ Narrow rc m := by
  induction id using Nat.strong_induction_on generalizing m with
  | _ id ih =>
    cases ho : s.origin id with
    | none => exact ⟨id, m, hm, ho, .refl, .refl m⟩
    | some o =>
      obtain ⟨p, pc⟩ := o
      obtain ⟨hp, -, ⟨mp, hmp, hn⟩, m', hm', hn', -⟩ := h.derived id p pc ho
      rw [hm, Option.some.injEq] at hm'
      subst hm'
      obtain ⟨r, rc, hr, hro, hcomes, hnr⟩ := ih p hp hmp
      exact ⟨r, rc, hr, hro, hcomes.tail ⟨pc, ho⟩, (hnr.trans hn).trans hn'⟩

/-- Authority never grows along the derivation tree, whatever the tasks call: a held capability with a
parent is bounded by what the parent was when it was derived, and by the root the kernel made; an
escrowed privilege opens only in a service. -/
theorem authority_never_grows {s : System} (h : Reached s) : (∀ cap node, s.Holds cap node → Unbadged cap ∧
      (node.parent ≠ 0 → ∃ pc, s.origin node.id = some (node.parent, pc) ∧ Narrow pc cap) ∧
      ∃ r rc, s.made r = some rc ∧ s.origin r = none ∧ s.Comes r node.id ∧ Narrow rc cap) ∧
    ∀ a slot t k node, (act a s).tasks slot = some t → (.privilege k, node) ∈ t.holdings →
      ((act a s).made node.id = some (.escrow k) ∨ ∃ p, (act a s).origin node.id = some (p, .escrow k)) →
      s.Holds (.privilege k) node ∨ t.service = true := by
  constructor
  · intro cap node hh
    have he := h.bounded.held cap node hh
    obtain ⟨m, hm, hn⟩ := he.made
    refine ⟨he.badge, ?_, ?_⟩
    · intro hp
      rcases he.node with ⟨h0, -⟩ | ⟨pc, ho⟩
      · exact absurd h0 hp
      · obtain ⟨-, -, -, m', hm', hn', -⟩ := h.bounded.ledger.derived _ _ pc ho
        rw [hm, Option.some.injEq] at hm'
        subst hm'
        exact ⟨pc, ho, hn'.trans hn⟩
    · obtain ⟨r, rc, hr, hro, hcomes, hnr⟩ := h.bounded.ledger.rooted node.id hm
      exact ⟨r, rc, hr, hro, hcomes, hnr.trans hn⟩
  · intro a slot t k node ht hmem hm
    have hstep := act_step h.bounded a
    refine hstep.opened slot t k node ht hmem ?_
    rcases hm with hm | ⟨p, ho⟩
    · exact hm
    · obtain ⟨m, hm, hn⟩ := (hstep.bounded.held _ _ ⟨slot, t, ht, hmem⟩).made
      obtain ⟨-, -, -, m', hm', -, hk⟩ := hstep.bounded.ledger.derived _ _ _ ho
      rw [hm, Option.some.injEq] at hm'
      subst hm'
      cases hn with
      | refl => cases hk.1 k rfl
      | opened => exact hm

/-- Init mints a badged child of its endpoint: the parent's endpoint, and no badge right. -/
theorem minted_child_bounded : let s := act (.mint 1 1 43 endpointAll 0 0 5 false) start
    s.Holds (.endpoint 1 ⟨true, true, true, true, false⟩ 5) ⟨4, 1⟩ ∧
      ∃ pc, s.origin 4 = some (1, pc) ∧ Narrow pc (.endpoint 1 ⟨true, true, true, true, false⟩ 5) := by
  have hh : (act (.mint 1 1 43 endpointAll 0 0 5 false) start).Holds
      (.endpoint 1 ⟨true, true, true, true, false⟩ 5) ⟨4, 1⟩ := ⟨1, _, rfl, by decide⟩
  have hr : Reached (act (.mint 1 1 43 endpointAll 0 0 5 false) start) := .step _ .start
  exact ⟨hh, ((authority_never_grows hr).1 _ _ hh).2.1 (by decide)⟩

end System

end MindCore.Kernel.Ipc
