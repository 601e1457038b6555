import MindCore.Kernel.AuthorityRun
import MindCore.Kernel.Memory

/-!
# Sealed memory

`CAP_INFO` says that a range is sealed when no writable capability, mapping, screen or DMA region meets
it. While somebody holds a capability over it the region stays, the pool hands out nothing of it, and
every new capability or mapping comes from one that could not write it.
-/

namespace MindCore.Kernel.Ipc

open List

def writes (cap : Capability) (base size : Nat) : Bool :=
  match cap with
  | .memory p s rights => rights.write && meets p s base size
  | .dma p s => meets p s base size
  | _ => false

namespace Machine

def sealed (m : Machine) (base size : Nat) : Bool :=
  !(m.regions.any fun r => r.holder != .orphan && meets r.base r.size base size) &&
    !m.sys.tasks.any fun t => t.table.any (fun x => writes x.cap base size) ||
      t.pending.any (fun p => writes p.cap base size) ||
      t.maps.any fun q => q.writable && meets q.base q.size base size

/-- What `CAP_INFO` says of a capability of the task, besides its kind and size. -/
def capInfo (m : Machine) (slot index : Nat) : Bool :=
  match (m.sys.running slot).bind fun t => (t.cap index).map Slot.cap with
  | some (.memory base size _) => m.sealed base size
  | _ => false

/-- Nobody can write the range: by a capability in a table or in a send, by a mapping, as a block, a
screen or a DMA region, or through a mapping that a CPU still has to flush. -/
structure Unwritable (m : Machine) (base size : Nat) : Prop where
  held : ∀ c n, m.sys.Holds c n → writes c base size = false
  maps : ∀ q, m.sys.Maps q → q.writable = true → meets q.base q.size base size = false
  regions : ∀ r ∈ m.regions, r.holder ≠ .orphan → meets r.base r.size base size = false
  flushed : ∀ q ∈ m.stale, q.cpu ∈ m.flush → q.writable = true → meets q.base q.size base size = false

def Object (m : Machine) (base size : Nat) : Prop :=
  ∃ r ∈ m.regions, r.holder = .orphan ∧ r.base ≤ base ∧ 0 < size ∧ base + size ≤ r.base + r.size

/-- Capabilities are bounded, registers are granted as the devices have them, and no region meets them. -/
structure Sound (m : Machine) : Prop extends Inv m where
  bounded : System.Bounded m.sys
  devices : ∀ c n, m.sys.Holds c n → ∀ base size, c = .mmio base size →
    ∃ g ∈ m.registers, g.1 ≤ base ∧ base + size ≤ g.1 + g.2
  pool : ∀ r ∈ m.regions, ∀ g ∈ m.registers, meets r.base r.size g.1 g.2 = false

/-! ### Ranges -/

variable {b s : Nat} {b' s' p z : Nat}

theorem meets_false : meets b s b' s' = false ↔ b' + s' ≤ b ∨ b + s ≤ b' := by
  simp only [meets, Bool.and_eq_false_iff, decide_eq_false_iff_not, not_lt]

theorem meets_inside (h : meets b s p z = false) (hb : b ≤ b')
    (hs : b' + s' ≤ b + s) : meets b' s' p z = false := by
  rw [meets_false] at h ⊢
  omega

theorem meets_within {p' z' : Nat} (h : meets b s p z = false) (hp : p ≤ p')
    (hz : p' + z' ≤ p + z) : meets b s p' z' = false := by
  rw [meets_false] at h ⊢
  omega

end Machine

variable {c : Capability}

theorem Narrow.writes {c' : Capability} (h : Narrow c c') {base size : Nat}
    (hc : writes c base size = false) : writes c' base size = false := by
  cases h with
  | refl => exact hc
  | endpoint => rfl
  | memory hr hp hs =>
    simp only [Ipc.writes, Bool.and_eq_false_iff] at hc ⊢
    rcases hc with hw | hm
    · refine .inl ?_
      by_contra hne
      rw [hr.2.1 (by simpa using hne)] at hw
      cases hw
    · exact .inr (Machine.meets_inside hm hp hs)
  | dma hp hs => exact Machine.meets_inside hc hp hs
  | mmio => rfl
  | ioPorts => rfl
  | opened => rfl

namespace Machine

/-! ### What a call may add -/

/-- The roots a call makes cannot write the range, and those of devices are registers. -/
def Harmless (N : Capability → Prop) (m : Machine) (base size : Nat) : Prop :=
  ∀ c, N c → writes c base size = false ∧ ∀ b z, c = .mmio b z →
    ∃ g ∈ m.registers, g.1 ≤ b ∧ b + z ≤ g.1 + g.2

variable {b z : Nat}

section
variable {N : Capability → Prop} {m : Machine} {s : System} {base size : Nat}

theorem Sound.devices_source (h : Sound m) (hN : Harmless N m base size)
    (hc : System.Source N m.sys c) (he : c = .mmio b z) :
    ∃ g ∈ m.registers, g.1 ≤ b ∧ b + z ≤ g.1 + g.2 := by
  subst he
  rcases hc with ⟨c, n, hh, hn⟩ | hc
  · cases hn with
    | refl => exact h.devices _ n hh b z rfl
    | mmio hp hs =>
      obtain ⟨g, hg, hlo, hhi⟩ := h.devices _ n hh _ _ rfl
      exact ⟨g, hg, hlo.trans hp, hs.trans hhi⟩
  · exact (hN _ hc).2 b z rfl

theorem Unwritable.source (h : Unwritable m base size) (hN : Harmless N m base size)
    (hc : System.Source N m.sys c) : writes c base size = false := by
  rcases hc with ⟨c', n, hh, hn⟩ | hc
  · exact hn.writes (h.held c' n hh)
  · exact (hN c hc).1

theorem Sound.sys (h : Sound m) (hs : System.Step N m.sys s) (hN : Harmless N m base size) :
    Sound { m with sys := s } :=
  ⟨h.toInv.sys s, hs.bounded, fun c n hh _ _ he => h.devices_source hN (hs.source c n hh) he, h.pool⟩

theorem Unwritable.sys (h : Unwritable m base size) (hm : Sound m) (ho : Object m base size)
    (hs : System.Step N m.sys s) (hN : Harmless N m base size) :
    Unwritable { m with sys := s } base size := by
  refine ⟨fun c n hh => h.source hN (hs.source c n hh), ?_, h.regions, h.flushed⟩
  intro q hq hw
  rcases hs.maps q hq with hq | ⟨c, hc, ht⟩
  · exact h.maps q hq hw
  · have hsrc := h.source hN hc
    cases c with
    | memory p z rights =>
      obtain ⟨hb, hz, hwr⟩ := ht
      simp only [writes, ← hwr, hw, Bool.true_and] at hsrc
      rw [hb, hz]
      exact hsrc
    | dma p z =>
      obtain ⟨hb, hz⟩ := ht
      rw [hb, hz]
      exact hsrc
    | mmio p z =>
      -- registers are apart from the region the range lies in
      obtain ⟨hb, hz⟩ := ht
      obtain ⟨g, hg, hlo, hhi⟩ := hm.devices_source hN hc rfl
      obtain ⟨r, hr, -, hrb, -, hrs⟩ := ho
      have := meets_false.mp (hm.pool r hr g hg)
      exact meets_false.mpr (by omega)
    | _ => cases ht

end

/-! ### One step -/

section
variable {m : Machine} {base size : Nat} {cap : Capability} {k : Holder} {l : List Region}

theorem harmless_root (hw : writes cap base size = false)
    (hd : ∀ b z, cap ≠ .mmio b z) : Harmless (fun c => c = cap) m base size := by
  rintro c rfl
  exact ⟨hw, fun b z he => absurd he (hd b z)⟩

theorem insertRoot_step (hm : Sound m) (hu : Unbadged cap) (slot index : Nat) :
    System.Step (fun c => c = cap) m.sys (m.sys.call slot (System.insertRoot cap index)) :=
  System.step_call hm.bounded slot fun _ ht =>
    System.step_insertRoot (N := fun c => c = cap) hm.bounded ht hu rfl index

variable {r : Region} {n : Node} {rights : Rights}

theorem Object.block (ho : Object m base size) (hm : Sound m) (hr : r ∈ m.regions)
    (hb : r.holder ≠ .orphan) : meets r.base r.size base size = false := by
  obtain ⟨o, hmem, horph, hlo, -, hhi⟩ := ho
  have hne : r ≠ o := by
    rintro rfl
    exact hb horph
  exact meets_within (hm.apart.forall hr hmem hne) hlo hhi

/-! Each operation keeps the machine in order. -/

theorem Sound.grow (h : Sound m) (hf : m.fresh b z = true) :
    Sound { m with regions := ⟨b, z, k⟩ :: m.regions } := by
  refine ⟨⟨pairwise_cons.mpr ⟨fresh_apart hf, h.apart⟩, h.marked⟩, h.bounded, h.devices, ?_⟩
  intro q hq g hg
  rcases mem_cons.mp hq with rfl | hq
  · simp only [fresh, Bool.and_eq_true, all_eq_true, Bool.not_eq_true'] at hf
    exact hf.2 g hg
  · exact h.pool q hq g hg

theorem Sound.orphan (h : Sound m) (hr : r ∈ m.regions) :
    Sound { m with regions := orphaned r :: m.regions.erase r } := by
  refine ⟨h.toInv.orphan hr, h.bounded, h.devices, ?_⟩
  intro q hq g hg
  rcases mem_cons.mp hq with rfl | hq
  · exact h.pool r hr g hg
  · exact h.pool q (mem_of_mem_erase hq) g hg

theorem Sound.fewer (h : Sound m) (hl : l.Sublist m.regions) : Sound { m with regions := l } :=
  ⟨⟨h.apart.sublist hl, h.marked⟩, h.bounded, h.devices, fun q hq => h.pool q (hl.subset hq)⟩

theorem Sound.retired (h : Sound m) : Sound m.retired := by
  refine ⟨h.toInv.retired, h.bounded, h.devices, ?_⟩
  intro q hq g hg
  obtain ⟨q', hq', rfl⟩ := mem_map.mp hq
  have hp := h.pool q' (mem_filter.mp hq').1 g hg
  split <;> exact hp

theorem writes_nowhere (c : Capability) : writes c 0 0 = false := by
  cases c <;> simp [writes, meets]

theorem Sound.root (h : Sound m) (cap : Capability) (hu : Unbadged cap) (hd : ∀ b z, cap ≠ .mmio b z)
    (slot index : Nat) : Sound { m with sys := m.sys.call slot (System.insertRoot cap index) } :=
  h.sys (insertRoot_step h hu slot index) (harmless_root (writes_nowhere cap) hd)

theorem strike_step (h : Sound m) (root id : Nat) : System.Step (fun _ => False) m.sys (m.sys.strike root id) :=
  .within h.bounded ((System.Within.refl h.bounded).strike root id)

theorem reap_step (h : Sound m) : System.Step (fun _ => False) m.sys (m.sys.reap m.runs) :=
  .within h.bounded ((System.Within.refl h.bounded).reap m.runs)

theorem Sound.strike (h : Sound m) (root id cpu : Nat) : Sound (m.strike root id cpu) := by
  have hs := strike_step h root id
  have hN : Harmless (fun _ => False) m 0 0 := fun _ hc => hc.elim
  have hinv := h.toInv.strike root id cpu
  unfold Machine.strike at hinv ⊢
  split
  · rename_i hd
    rw [if_pos hd] at hinv
    exact ⟨hinv, (h.sys hs hN).bounded, (h.sys hs hN).devices, h.pool⟩
  · exact h

theorem Sound.select (h : Sound m) (cpu next : Nat) : Sound (m.select cpu next) := by
  have hinv := h.toInv.select cpu next
  unfold Machine.select at hinv ⊢
  split
  · rename_i hc
    rw [if_pos hc] at hinv
    exact ⟨hinv, h.bounded, h.devices, h.pool⟩
  · exact h

theorem Sound.buried (h : Sound m) : Sound m.buried := by
  have hN : Harmless (fun _ => False) m 0 0 := fun _ hc => hc.elim
  exact h.sys (reap_step h) hN

theorem Sound.sweep (h : Sound m) : Sound m.sweep := by
  unfold Machine.sweep
  split
  · exact h.fewer filter_sublist
  · exact h

theorem harmless_plain {a : Act} (ha : m.allows a = true) : Harmless (System.makes a) m base size := by
  intro c hc
  cases a with
  | saveReply slot index =>
    obtain ⟨r, rfl⟩ := hc
    exact ⟨rfl, nofun⟩
  | endpointCreate slot index =>
    obtain ⟨ep, rfl⟩ := hc
    exact ⟨rfl, nofun⟩
  | grantRoot slot index cap =>
    subst hc
    cases c with
    | memory => cases ha
    | dma => cases ha
    | mmio b z =>
      refine ⟨rfl, ?_⟩
      intro b' z' he
      cases he
      obtain ⟨g, hg, hin⟩ := any_eq_true.mp ha
      simp only [Bool.and_eq_true, decide_eq_true_eq] at hin
      exact ⟨g, hg, hin⟩
    | _ => exact ⟨rfl, nofun⟩
  | composite => cases ha
  | memDetach => cases ha
  | _ => cases hc

theorem Sound.act (h : Sound m) (a : Op) : Sound (m.act a) := by
  cases a with
  | ipc a =>
    simp only [Machine.act]
    split
    · rename_i ha
      have hN : Harmless (System.makes a) m 0 0 := harmless_plain ha
      exact h.sys (System.act_step h.bounded a) hN
    · exact h
  | alloc slot b z =>
    simp only [Machine.act, Machine.alloc]
    split
    · rename_i hc
      rw [Bool.and_eq_true] at hc
      exact h.grow hc.2
    · exact h
  | free slot b =>
    simp only [Machine.act, Machine.free]
    split
    · rename_i r _ hr
      unfold retire
      split
      · exact h.orphan (owned_spec hr).1
      · exact h.fewer erase_sublist
    · exact h
  | memShare slot b z index =>
    simp only [Machine.act, Machine.memShare]
    split
    · split
      · exact h.root (.memory b z memoryAll) trivial (fun _ _ => Capability.noConfusion) slot index
      · exact h
    · exact h
  | memDetach slot b index =>
    simp only [Machine.act, Machine.memDetach]
    split
    · rename_i r _ hr
      split
      · exact h
      · exact (h.orphan (owned_spec hr).1).root (.memory r.base r.size ⟨true, true, false, false, false⟩) trivial
          (fun _ _ => Capability.noConfusion) slot index
    · exact h
  | composite slot index owner b =>
    simp only [Machine.act, Machine.composite]
    split
    · rename_i r _
      have hN : Harmless (fun c => c = .memory r.base r.size ⟨true, false, false, false, false⟩) m 0 0 :=
        harmless_root rfl fun _ _ => Capability.noConfusion
      refine h.sys (System.step_call h.bounded slot fun _ ht => ?_) hN
      exact System.step_composite h.bounded ht r.base r.size index rfl
    · exact h
  | dma slot b z index =>
    simp only [Machine.act, Machine.dma]
    split
    · rename_i hc
      rw [Bool.and_eq_true] at hc
      exact (h.grow hc.2).root (.dma b z) trivial (fun _ _ => Capability.noConfusion) slot index
    · exact h
  | strike root id cpu => exact h.strike root id cpu
  | select cpu next => exact h.select cpu next
  | reap => exact h.buried.retired.sweep

/-! And while the object stays, nobody comes to write the range. -/

structure Safe (m : Machine) (base size : Nat) : Prop where
  sound : Sound m
  object : Object m base size
  unwritable : Unwritable m base size

section
variable (h : Safe m base size)
include h

theorem Safe.sys {N : Capability → Prop} {s : System} (hs : System.Step N m.sys s)
    (hN : Harmless N m base size) : Safe { m with sys := s } base size :=
  ⟨h.sound.sys hs hN, h.object, h.unwritable.sys h.sound h.object hs hN⟩

theorem Safe.root (cap : Capability) (hu : Unbadged cap)
    (hw : writes cap base size = false) (hd : ∀ b z, cap ≠ .mmio b z) (slot index : Nat) :
    Safe { m with sys := m.sys.call slot (System.insertRoot cap index) } base size :=
  h.sys (insertRoot_step h.sound hu slot index) (harmless_root hw hd)

theorem Safe.grow (hf : m.fresh b z = true) :
    Safe { m with regions := ⟨b, z, k⟩ :: m.regions } base size := by
  obtain ⟨r, hr, horph, hlo, hpos, hhi⟩ := h.object
  refine ⟨h.sound.grow hf, ⟨r, mem_cons_of_mem _ hr, horph, hlo, hpos, hhi⟩,
    ⟨h.unwritable.held, h.unwritable.maps, ?_, h.unwritable.flushed⟩⟩
  intro q hq hk
  rcases mem_cons.mp hq with rfl | hq
  · exact meets_within (fresh_apart (h := k) hf r hr) hlo hhi
  · exact h.unwritable.regions q hq hk

theorem Safe.orphan (hr : r ∈ m.regions) (hb : r.holder ≠ .orphan) :
    Safe { m with regions := orphaned r :: m.regions.erase r } base size := by
  obtain ⟨o, ho, horph, hlo, hpos, hhi⟩ := h.object
  have hne : o ≠ r := by
    rintro rfl
    exact hb horph
  have hin : o ∈ orphaned r :: m.regions.erase r := mem_cons_of_mem _ ((mem_erase_of_ne hne).mpr ho)
  refine ⟨h.sound.orphan hr, ⟨o, hin, horph, hlo, hpos, hhi⟩,
    ⟨h.unwritable.held, h.unwritable.maps, ?_, h.unwritable.flushed⟩⟩
  intro q hq hk
  rcases mem_cons.mp hq with rfl | hq
  · exact absurd rfl hk
  · exact h.unwritable.regions q (mem_of_mem_erase hq) hk

theorem Safe.fewer (hl : l.Sublist m.regions)
    (ho : Object { m with regions := l } base size) : Safe { m with regions := l } base size :=
  ⟨h.sound.fewer hl, ho, ⟨h.unwritable.held, h.unwritable.maps,
    fun q hq => h.unwritable.regions q (hl.subset hq), h.unwritable.flushed⟩⟩

theorem Safe.free (slot b : Nat) : Safe (m.free slot b) base size := by
  unfold Machine.free
  split
  · rename_i r _ hr
    obtain ⟨hmem, -, hk⟩ := owned_spec hr
    have hne : r.holder ≠ .orphan := by rw [hk]; exact Holder.noConfusion
    unfold retire
    split
    · exact h.orphan hmem hne
    · refine h.fewer erase_sublist ?_
      obtain ⟨o, ho, horph, hrest⟩ := h.object
      refine ⟨o, (mem_erase_of_ne ?_).mpr ho, horph, hrest⟩
      rintro rfl
      exact hne horph
  · exact h

theorem Safe.memShare (slot b z index : Nat) : Safe (m.memShare slot b z index) base size := by
  unfold Machine.memShare
  split
  · rename_i r hr
    split
    · obtain ⟨hmem, rfl, hk⟩ := owned_spec hr
      have hblock : meets r.base r.size base size = false :=
        h.object.block h.sound hmem (by rw [hk]; exact Holder.noConfusion)
      refine h.root (.memory r.base z memoryAll) trivial ?_ (fun _ _ => Capability.noConfusion) slot index
      have hin : meets r.base z base size = false := meets_inside hblock (le_refl _) (by omega)
      simp [writes, hin]
    · exact h
  · exact h

theorem Safe.memDetach (slot b index : Nat) : Safe (m.memDetach slot b index) base size := by
  unfold Machine.memDetach
  split
  · rename_i r _ hr
    split
    · exact h
    · obtain ⟨hmem, -, hk⟩ := owned_spec hr
      have hne : r.holder ≠ .orphan := by rw [hk]; exact Holder.noConfusion
      have hblock := h.object.block h.sound hmem hne
      refine (h.orphan hmem hne).root (.memory r.base r.size ⟨true, true, false, false, false⟩) trivial ?_
        (fun _ _ => Capability.noConfusion) slot index
      simp [writes, hblock]
  · exact h

theorem Safe.composite (slot index owner b : Nat) : Safe (m.composite slot index owner b) base size := by
  unfold Machine.composite
  split
  · rename_i r _
    have hN : Harmless (fun c => c = .memory r.base r.size ⟨true, false, false, false, false⟩) m base size :=
      harmless_root rfl fun _ _ => Capability.noConfusion
    refine h.sys (System.step_call h.sound.bounded slot fun _ ht => ?_) hN
    exact System.step_composite h.sound.bounded ht r.base r.size index rfl
  · exact h

theorem Safe.dma (slot b z index : Nat) : Safe (m.dma slot b z index) base size := by
  unfold Machine.dma
  split
  · rename_i hc
    rw [Bool.and_eq_true] at hc
    have hg := h.grow (k := .dma) hc.2
    have hw := hg.unwritable.regions ⟨b, z, .dma⟩ mem_cons_self Holder.noConfusion
    exact hg.root (.dma b z) trivial hw (fun _ _ => Capability.noConfusion) slot index
  · exact h

theorem Safe.strike (root id cpu : Nat) : Safe (m.strike root id cpu) base size := by
  have hsys := h.sys (strike_step h.sound root id) fun _ hc => hc.elim
  have hsound := h.sound.strike root id cpu
  unfold Machine.strike at hsound ⊢
  split
  · rename_i hd
    rw [if_pos hd] at hsound
    refine ⟨hsound, h.object, ⟨hsys.unwritable.held, hsys.unwritable.maps, h.unwritable.regions, ?_⟩⟩
    intro q hq hf hw
    rcases mem_append.mp hq with hq | hq
    · obtain ⟨c, -, hq⟩ := mem_flatMap.mp hq
      unfold removed at hq
      split at hq
      · rename_i t ht
        obtain ⟨x, hx, rfl⟩ := mem_map.mp hq
        exact h.unwritable.maps x ⟨_, t, ht, (mem_filter.mp hx).1⟩ hw
      · cases hq
    · exact h.unwritable.flushed q hq (h.sound.marked q hq) hw
  · exact h

theorem Safe.select (cpu next : Nat) : Safe (m.select cpu next) base size := by
  have hsound := h.sound.select cpu next
  unfold Machine.select at hsound ⊢
  split
  · rename_i hc
    rw [if_pos hc] at hsound
    refine ⟨hsound, h.object, ⟨h.unwritable.held, h.unwritable.maps, h.unwritable.regions, ?_⟩⟩
    intro q hq hf hw
    have hq := (mem_filter.mp hq).1
    exact h.unwritable.flushed q hq (h.sound.marked q hq) hw
  · exact h

end

theorem Object.referenced (hlo : r.base ≤ base) (hpos : 0 < size) (hhi : base + size ≤ r.base + r.size)
    (hh : m.sys.Holds (.memory base size rights) n) : m.referenced r = true := by
  obtain ⟨slot, t, ht, hmem⟩ := hh
  refine Table.any_iff.mpr ⟨slot, t, ht, ?_⟩
  have hover : overlaps (.memory base size rights) r.base r.size = true := by
    simp only [overlaps, Bool.and_eq_true, decide_eq_true_eq]
    omega
  rcases Task.mem_holdings.mp hmem with ⟨x, hx, hc, -⟩ | ⟨p, hp, hc, -⟩
  · have hany : t.table.any (fun x => overlaps x.cap r.base r.size) = true :=
      any_eq_true.mpr ⟨x, hx, by rw [hc]; exact hover⟩
    rw [hany]
    rfl
  · rw [hp]
    simp [hc, hover]

theorem Safe.reap (h : Safe m base size)
    (hh : m.reap.sys.Holds (.memory base size rights) n) : Safe m.reap base size := by
  have hsys : m.reap.sys = m.sys.reap m.runs := by
    unfold Machine.reap sweep
    split <;> rfl
  rw [hsys] at hh
  have hburied : Safe m.buried base size := h.sys (reap_step h.sound) fun _ hc => hc.elim
  have hretired : Safe m.buried.retired base size := by
    obtain ⟨o, ho, horph, hlo, hpos, hhi⟩ := hburied.object
    have hkeep : m.buried.gone o = false := by simp [gone, horph]
    refine ⟨hburied.sound.retired,
      ⟨o, mem_map.mpr ⟨o, mem_filter.mpr ⟨ho, by simp [hkeep]⟩, by simp [hkeep]⟩, horph, hlo, hpos, hhi⟩,
      ⟨hburied.unwritable.held, hburied.unwritable.maps, ?_, hburied.unwritable.flushed⟩⟩
    intro q hq hk
    obtain ⟨q', hq', rfl⟩ := mem_map.mp hq
    split at hk
    · exact absurd rfl hk
    · rename_i hg
      rw [if_neg hg]
      exact hburied.unwritable.regions q' (mem_filter.mp hq').1 hk
  unfold Machine.reap sweep
  split
  · refine hretired.fewer filter_sublist ?_
    obtain ⟨o, ho, horph, hlo, hpos, hhi⟩ := hretired.object
    have href : m.buried.retired.referenced o = true := Object.referenced hlo hpos hhi hh
    exact ⟨o, mem_filter.mpr ⟨ho, by simp [href]⟩, horph, hlo, hpos, hhi⟩
  · exact hretired

theorem Safe.act (h : Safe m base size) (a : Op)
    (hh : (m.act a).sys.Holds (.memory base size rights) n) : Safe (m.act a) base size := by
  cases a with
  | ipc a =>
    simp only [Machine.act]
    split
    · rename_i ha
      exact h.sys (System.act_step h.sound.bounded a) (harmless_plain ha)
    · exact h
  | alloc slot b z =>
    simp only [Machine.act, Machine.alloc]
    split
    · rename_i hc
      rw [Bool.and_eq_true] at hc
      exact h.grow hc.2
    · exact h
  | free slot b => exact h.free slot b
  | memShare slot b z index => exact h.memShare slot b z index
  | memDetach slot b index => exact h.memDetach slot b index
  | composite slot index owner b => exact h.composite slot index owner b
  | dma slot b z index => exact h.dma slot b z index
  | strike root id cpu => exact h.strike root id cpu
  | select cpu next => exact h.select cpu next
  | reap => exact h.reap hh

end

/-! ### Runs -/

theorem Reached.sound {P : Op → Machine → Prop} {m : Machine} (h : Reached P m) : Sound m := by
  induction h with
  | start cpus registers =>
    refine ⟨⟨List.Pairwise.nil, nofun⟩, System.start_bounded, ?_, nofun⟩
    rintro c n ⟨slot, t, ht, hmem⟩ b z rfl
    obtain rfl := System.start_slot ht
    cases ht
    simp [Task.holdings] at hmem
  | step a _ _ ih => exact ih.act a

inductive Held (cap : Capability) (node : Node) (m : Machine) : Machine → Prop
  | now : Held cap node m m
  | step {m' : Machine} (a : Op) : Held cap node m m' → (m'.act a).sys.Holds cap node →
    Held cap node m (m'.act a)

theorem sealed_unwritable {m : Machine} {base size : Nat} (hs : m.sealed base size = true)
    (hq : m.flush = []) : Unwritable m base size := by
  simp only [sealed, Bool.and_eq_true, Bool.not_eq_true'] at hs
  obtain ⟨hreg, htask⟩ := hs
  have hnone : ∀ i t, m.sys.tasks i = some t → (t.table.any (fun x => writes x.cap base size) ||
      t.pending.any (fun p => writes p.cap base size) ||
      t.maps.any fun q => q.writable && meets q.base q.size base size) = false := by
    intro i t ht
    by_contra hne
    rw [Bool.not_eq_false] at hne
    rw [Table.any_iff.mpr ⟨i, t, ht, hne⟩] at htask
    cases htask
  refine ⟨?_, ?_, ?_, ?_⟩
  · rintro c n ⟨i, t, ht, hmem⟩
    have hno := hnone i t ht
    simp only [Bool.or_eq_false_iff, any_eq_false, Bool.not_eq_true] at hno
    rcases Task.mem_holdings.mp hmem with ⟨x, hx, rfl, -⟩ | ⟨p, hp, rfl, -⟩
    · exact hno.1.1 x hx
    · have := hno.1.2
      rw [hp] at this
      exact this
  · rintro q ⟨i, t, ht, hmem⟩ hw
    have hno := hnone i t ht
    simp only [Bool.or_eq_false_iff, any_eq_false, Bool.not_eq_true] at hno
    have := hno.2 q hmem
    rw [hw, Bool.true_and] at this
    exact this
  · intro r hr hk
    simp only [any_eq_false, Bool.and_eq_true, bne_iff_ne, not_and, Bool.not_eq_true] at hreg
    exact hreg r hr hk
  · intro q _ hf
    rw [hq] at hf
    cases hf

/-- A range that `CAP_INFO` calls sealed while no flush is pending is written by nobody for as long as
the capability is held. -/
theorem sealed_stays_sealed {m : Machine} (h : Reached (fun _ _ => True) m) {slot index : Nat} {t : Task}
    {base size : Nat} {rights : Rights} {node : Node} (ht : m.sys.running slot = some t)
    (hx : t.cap index = some ⟨index, .memory base size rights, node⟩) (ho : Object m base size)
    (hs : m.capInfo slot index = true) (hq : m.flush = []) {m' : Machine}
    (hm : Held (.memory base size rights) node m m') : Unwritable m' base size := by
  have hsealed : m.sealed base size = true := by
    unfold capInfo at hs
    rw [ht, Option.bind_some, hx] at hs
    exact hs
  have hsafe : Safe m' base size := by
    induction hm with
    | now => exact ⟨h.sound, ho, sealed_unwritable hsealed hq⟩
    | step a _ hh ih => exact ih.act a hh
  exact hsafe.unwritable

/-- A block of the task in slot 2 goes through slot 4 to slot 3, which maps it on CPU 1. Slot 4 revokes,
and waits for that CPU; the owner, whose own revocation finds no mapping left, detaches the block, mints a
read-only child and drops the writable one. -/
def relent : List Op :=
  [.ipc (.spawn 1 false [⟨⟨1, ⟨endpointAll, false⟩, false, 0⟩, 1⟩] 2),
   .ipc (.spawn 1 false [⟨⟨1, ⟨endpointAll, false⟩, false, 0⟩, 1⟩] 3),
   .ipc (.spawn 1 false [⟨⟨1, ⟨endpointAll, false⟩, false, 0⟩, 1⟩] 4),
   .select 0 2, .select 1 3, .select 2 4,
   .alloc 2 65536 4096,
   .memShare 2 65536 4096 43,
   .ipc (.recv 4 1 5 false),
   .ipc (.send 2 ⟨1, false, some ⟨43, ⟨memoryAll, false⟩, false, 0⟩, 0, false⟩),
   .ipc (.recv 3 1 5 false),
   .ipc (.send 4 ⟨1, false, some ⟨5, ⟨memoryAll, false⟩, false, 0⟩, 0, false⟩),
   .ipc (.memMap 3 5),
   .ipc (.beginRevoke 4 5), .strike 8 9 2, .ipc (.endRevoke 8),
   .ipc (.beginRevoke 2 43), .strike 7 8 0, .ipc (.endRevoke 7),
   .ipc (.drop 2 43),
   .memDetach 2 65536 43,
   .ipc (.mint 2 43 44 ⟨true, false, false, false, false⟩ 0 0 0 false),
   .ipc (.drop 2 43)]

theorem holds_of_running {m : Machine} {slot index : Nat} {x : Slot}
    (h : ((m.sys.running slot).bind fun t => t.cap index) = some x) :
    ∃ t, m.sys.running slot = some t ∧ t.cap index = some x ∧ m.sys.Holds x.cap x.node := by
  obtain ⟨t, ht, hx⟩ := Option.bind_eq_some_iff.mp h
  exact ⟨t, ht, hx, System.holds_cap (Option.filter_eq_some_iff.mp ht).1 hx⟩

/-- Once CPU 1 has switched, the range stays unwritable, also when more memory is allocated. -/
theorem relent_after_the_switch :
    ∃ m m', Reached (fun _ _ => True) m ∧ m.capInfo 2 44 = true ∧ m' = m.act (.alloc 3 131072 4096) ∧
      Unwritable m' 65536 4096 := by
  have hr : Reached (fun _ _ => True) ((start 3 []).run (relent ++ [.select 1 3])) :=
    (Reached.start 3 []).run _ fun _ _ _ => trivial
  have hcap : ((((start 3 []).run (relent ++ [.select 1 3])).sys.running 2).bind fun t => t.cap 44) =
      some ⟨44, .memory 65536 4096 ⟨true, false, false, false, false⟩, ⟨11, 10⟩⟩ := by decide
  have hcap' : (((((start 3 []).run (relent ++ [.select 1 3])).act (.alloc 3 131072 4096)).sys.running 2).bind
      fun t => t.cap 44) = some ⟨44, .memory 65536 4096 ⟨true, false, false, false, false⟩, ⟨11, 10⟩⟩ := by
    decide
  have hregions : ((start 3 []).run (relent ++ [.select 1 3])).regions = [⟨65536, 4096, .orphan⟩] := by
    decide
  have hobject : Object ((start 3 []).run (relent ++ [.select 1 3])) 65536 4096 :=
    ⟨⟨65536, 4096, .orphan⟩, hregions ▸ mem_singleton.mpr rfl, rfl, by decide, by decide, by decide⟩
  have hinfo : ((start 3 []).run (relent ++ [.select 1 3])).capInfo 2 44 = true := by decide
  have hflush : ((start 3 []).run (relent ++ [.select 1 3])).flush = [] := by decide
  obtain ⟨t, ht, hx, -⟩ := holds_of_running hcap
  obtain ⟨-, -, -, hheld⟩ := holds_of_running hcap'
  exact ⟨_, _, hr, hinfo, rfl, sealed_stays_sealed hr ht hx hobject hinfo hflush (.step _ .now hheld)⟩

/-- `CAP_INFO` says sealed while CPU 1 may still write the range. -/
theorem sealed_under_a_stale_mapping :
    ¬ ∀ m, Reached (fun _ _ => True) m → ∀ slot index t base size rights node,
      m.sys.running slot = some t → t.cap index = some ⟨index, .memory base size rights, node⟩ →
      Object m base size → m.capInfo slot index = true → Unwritable m base size := by
  intro h
  have hr : Reached (fun _ _ => True) ((start 3 []).run relent) :=
    (Reached.start 3 []).run relent fun _ _ _ => trivial
  have hcap : ((((start 3 []).run relent).sys.running 2).bind fun t => t.cap 44) =
      some ⟨44, .memory 65536 4096 ⟨true, false, false, false, false⟩, ⟨11, 10⟩⟩ := by decide
  have hregions : ((start 3 []).run relent).regions = [⟨65536, 4096, .orphan⟩] := by decide
  have hobject : Object ((start 3 []).run relent) 65536 4096 :=
    ⟨⟨65536, 4096, .orphan⟩, hregions ▸ mem_singleton.mpr rfl, rfl, by decide, by decide, by decide⟩
  have hinfo : ((start 3 []).run relent).capInfo 2 44 = true := by decide
  have hstale : ((start 3 []).run relent).stale = [⟨1, 65536, 4096, true⟩] := by decide
  have hflush : ((start 3 []).run relent).flush = [1] := by decide
  obtain ⟨t, ht, hx, -⟩ := holds_of_running hcap
  have hno := (h _ hr 2 44 t 65536 4096 _ _ ht hx hobject hinfo).flushed ⟨1, 65536, 4096, true⟩
    (hstale ▸ mem_singleton.mpr rfl) (hflush ▸ mem_singleton.mpr rfl) rfl
  exact absurd hno (by decide)

end Machine

end MindCore.Kernel.Ipc
