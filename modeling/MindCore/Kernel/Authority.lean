import MindCore.Kernel.Ipc

/-!
# Authority along the derivation tree

Every capability in a table or in a send is bounded by the capability its node was made as, that one by
the capability it was derived from, and so on up to a root the kernel made. Most calls only pass on
what somebody held; a node is made by `root` and by `child` alone.
-/

namespace MindCore.Kernel.Ipc

open Function

/-! ### Narrowing -/

def Rights.Le (a b : Rights) : Prop :=
  (a.read → b.read) ∧ (a.write → b.write) ∧ (a.grant → b.grant) ∧ (a.keep → b.keep) ∧ (a.badge → b.badge)

theorem Rights.Le.refl (a : Rights) : a.Le a := ⟨id, id, id, id, id⟩

variable {a b : Rights} {length offset badge index : Nat} {x : Slot}

theorem Rights.Le.trans {c : Rights} (h : a.Le b) (h' : b.Le c) : a.Le c :=
  ⟨h'.1 ∘ h.1, h'.2.1 ∘ h.2.1, h'.2.2.1 ∘ h.2.2.1, h'.2.2.2.1 ∘ h.2.2.2.1, h'.2.2.2.2 ∘ h.2.2.2.2⟩

theorem Rights.meet_le (a b : Rights) : (a.meet b).Le a := by
  simp only [Rights.Le, Rights.meet, Bool.and_eq_true]
  tauto

theorem Rights.le_kept (a : Rights) : a.Le a.kept := by
  simp only [Rights.Le, Rights.kept, Bool.or_eq_true]
  tauto

theorem Rights.Le.kept (h : a.Le b.kept) : a.kept.Le b.kept := by
  simp only [Rights.Le, Rights.kept, Bool.or_eq_true] at h ⊢
  tauto

/-- The second capability is bounded by the first: the same object, no further right (a keeper's read
right counted as held), a range inside, the badge kept, or the privilege an escrow stands for. -/
inductive Narrow : Capability → Capability → Prop
  | refl (c : Capability) : Narrow c c
  | endpoint {id : Nat} {r r' : Rights} {b b' : Nat} (hr : r'.Le r.kept) (hb : b ≠ 0 → b' = b) :
    Narrow (.endpoint id r b) (.endpoint id r' b')
  | memory {p s p' s' : Nat} {r r' : Rights} (hr : r'.Le r) (hp : p ≤ p') (hs : p' + s' ≤ p + s) :
    Narrow (.memory p s r) (.memory p' s' r')
  | dma {p s p' s' : Nat} (hp : p ≤ p') (hs : p' + s' ≤ p + s) : Narrow (.dma p s) (.dma p' s')
  | mmio {p s p' s' : Nat} (hp : p ≤ p') (hs : p' + s' ≤ p + s) : Narrow (.mmio p s) (.mmio p' s')
  | ioPorts {p s p' s' : Nat} (hp : p ≤ p') (hs : p' + s' ≤ p + s) : Narrow (.ioPorts p s) (.ioPorts p' s')
  | opened (kind : Privilege) : Narrow (.escrow kind) (.privilege kind)

theorem Narrow.trans {a b c : Capability} (h : Narrow a b) (h' : Narrow b c) : Narrow a c := by
  cases h with
  | refl => exact h'
  | endpoint hr hb =>
    cases h' with
    | refl => exact .endpoint hr hb
    | endpoint hr' hb' =>
      refine .endpoint (hr'.trans hr.kept) ?_
      intro h
      rw [hb' (by rw [hb h]; exact h), hb h]
  | memory hr hp hs =>
    cases h' with
    | refl => exact .memory hr hp hs
    | memory hr' hp' hs' => exact .memory (hr'.trans hr) (hp.trans hp') (hs'.trans hs)
  | dma hp hs =>
    cases h' with
    | refl => exact .dma hp hs
    | dma hp' hs' => exact .dma (hp.trans hp') (hs'.trans hs)
  | mmio hp hs =>
    cases h' with
    | refl => exact .mmio hp hs
    | mmio hp' hs' => exact .mmio (hp.trans hp') (hs'.trans hs)
  | ioPorts hp hs =>
    cases h' with
    | refl => exact .ioPorts hp hs
    | ioPorts hp' hs' => exact .ioPorts (hp.trans hp') (hs'.trans hs)
  | opened kind =>
    cases h' with
    | refl => exact .opened kind

def Unbadged : Capability → Prop
  | .endpoint _ rights badge => rights.badge = true → badge = 0
  | _ => True

theorem subRange_some {base size align : Nat} {r : Nat × Nat}
    (h : subRange base size align offset length = some r) : base ≤ r.1 ∧ r.1 + r.2 ≤ base + size := by
  unfold subRange at h
  rw [Option.ite_none_right_eq_some] at h
  obtain ⟨hc, he⟩ := h
  rw [Option.some.injEq] at he
  subst he
  omega

theorem mint_narrow {cap cap' : Capability} {mask : Rights}
    (h : mint cap mask offset length badge = some cap') (hu : Unbadged cap) :
    Narrow cap cap' ∧ Unbadged cap' := by
  cases cap with
  | endpoint id rights old =>
    simp only [mint] at h
    split at h
    · cases h
      have hmeet := Rights.meet_le rights.kept mask
      constructor
      · refine .endpoint ?_ fun ho => if_pos ho
        by_cases hb : (if old ≠ 0 then old else badge) ≠ 0
        · rw [if_pos hb]
          exact ⟨hmeet.1, hmeet.2.1, hmeet.2.2.1, hmeet.2.2.2.1, by simp⟩
        · rw [if_neg hb]
          exact hmeet
      · intro hb
        by_contra hne
        rw [if_pos hne] at hb
        cases hb
    · cases h
  | memory base size rights =>
    obtain ⟨r, hr, rfl⟩ := Option.map_eq_some_iff.mp h
    obtain ⟨hp, hs⟩ := subRange_some hr
    refine ⟨.memory ?_ hp hs, trivial⟩
    refine (Rights.meet_le _ _).trans ?_
    split
    · exact .refl _
    · exact ⟨id, by simp, id, id, id⟩
  | dma base size =>
    obtain ⟨r, hr, rfl⟩ := Option.map_eq_some_iff.mp h
    exact ⟨.dma (subRange_some hr).1 (subRange_some hr).2, trivial⟩
  | mmio base size =>
    obtain ⟨r, hr, rfl⟩ := Option.map_eq_some_iff.mp h
    exact ⟨.mmio (subRange_some hr).1 (subRange_some hr).2, trivial⟩
  | ioPorts base count =>
    obtain ⟨r, hr, rfl⟩ := Option.map_eq_some_iff.mp h
    exact ⟨.ioPorts (subRange_some hr).1 (subRange_some hr).2, trivial⟩
  | reply slot pid seq => cases h
  | interrupt | privilege | escrow | platform | restart | text => cases h; exact ⟨.refl _, trivial⟩

namespace System

theorem handed_narrow {cap cap' : Capability} {mask : Mask} (h : handed cap mask = some cap')
    (hu : Unbadged cap) : Narrow cap cap' ∧ Unbadged cap' := by
  unfold handed at h
  split at h
  · cases h
    refine ⟨.endpoint ((Rights.meet_le _ _).trans (Rights.le_kept _)) fun _ => rfl, ?_⟩
    intro hb
    exact hu ((Rights.meet_le _ _).2.2.2.2 hb)
  · cases h
  · cases h
    exact ⟨.refl _, hu⟩

/-! ### The ledger -/

structure Ledger (s : System) : Prop where
  known : ∀ id m, s.made id = some m → id ≤ s.nextNode
  derived : ∀ id p pc, s.origin id = some (p, pc) → p < id ∧ id ≤ s.nextNode ∧
    (∃ m, s.made p = some m ∧ Narrow m pc) ∧
    ∃ m, s.made id = some m ∧ Narrow pc m ∧ (∀ k, m = .privilege k → pc = .privilege k) ∧
      ∀ slot pid seq, m ≠ .reply slot pid seq

/-- The capability is bounded by what its node was made as, and the node is a root or a child. -/
structure Entitled (s : System) (cap : Capability) (node : Node) : Prop where
  made : ∃ m, s.made node.id = some m ∧ Narrow m cap
  badge : Unbadged cap
  node : node.parent = 0 ∧ s.origin node.id = none ∨ ∃ pc, s.origin node.id = some (node.parent, pc)

end System

def Task.holdings (t : Task) : List (Capability × Node) :=
  t.table.map (fun x => (x.cap, x.node)) ++ t.pending.toList.map fun p => (p.cap, p.node)

theorem Task.mem_holdings {t : Task} {c : Capability} {n : Node} :
    (c, n) ∈ t.holdings ↔ (∃ x ∈ t.table, x.cap = c ∧ x.node = n) ∨
      ∃ p, t.pending = some p ∧ p.cap = c ∧ p.node = n := by
  simp [Task.holdings]

namespace System

def Holds (s : System) (cap : Capability) (node : Node) : Prop :=
  ∃ slot t, s.tasks slot = some t ∧ (cap, node) ∈ t.holdings

def Maps (s : System) (q : Mapping) : Prop := ∃ slot t, s.tasks slot = some t ∧ q ∈ t.maps

def Through : Capability → Mapping → Prop
  | .memory base size rights, q => q.base = base ∧ q.size = size ∧ q.writable = rights.write
  | .dma base size, q | .mmio base size, q => q.base = base ∧ q.size = size
  | _, _ => False

/-- What a capability comes from: one that is held, or the kernel makes it. -/
def Source (N : Capability → Prop) (s : System) (cap : Capability) : Prop :=
  (∃ c n, s.Holds c n ∧ Narrow c cap) ∨ N cap

def Mapped (N : Capability → Prop) (s : System) (q : Mapping) : Prop :=
  s.Maps q ∨ ∃ c, Source N s c ∧ Through c q

/-- What may be held after a call that makes the roots in `N`; an escrowed privilege is open only where it
was. -/
structure Fair (N : Capability → Prop) (s : System) (cap : Capability) (node : Node) : Prop where
  entitled : Entitled s cap node
  opened : ∀ k, cap = .privilege k → s.made node.id = some (.escrow k) → s.Holds cap node
  source : Source N s cap

/-- The ledger is in order and everything held is entitled to. -/
structure Bounded (s : System) : Prop where
  ledger : Ledger s
  held : ∀ cap node, s.Holds cap node → Entitled s cap node

variable {N : Capability → Prop} {s : System}

theorem Bounded.fair (h : Bounded s) {c : Capability} {n : Node} (hh : s.Holds c n) : Fair N s c n :=
  ⟨h.held c n hh, fun _ _ _ => hh, .inl ⟨c, n, hh, .refl c⟩⟩

/-- A call that makes no node: the ledger stays, and all that is held afterwards is fair. -/
structure Within (N : Capability → Prop) (s s' : System) : Prop where
  made : s'.made = s.made
  origin : s'.origin = s.origin
  next : s'.nextNode = s.nextNode
  holds : ∀ c n, s'.Holds c n → Fair N s c n
  maps : ∀ q, s'.Maps q → Mapped N s q

structure Extends (s s' : System) : Prop where
  tasks : s'.tasks = s.tasks
  made : ∀ id m, s.made id = some m → s'.made id = some m
  origin : ∀ id m, s.made id = some m → s'.origin id = s.origin id

/-- What a call does, whatever it is: it may make nodes, and everything held is fair then, but for what a
new service finds opened. -/
structure Step (N : Capability → Prop) (s s' : System) : Prop where
  bounded : Bounded s'
  source : ∀ c n, s'.Holds c n → Source N s c
  maps : ∀ q, s'.Maps q → Mapped N s q
  made : ∀ id m, s.made id = some m → s'.made id = some m
  opened : ∀ slot t k n, s'.tasks slot = some t → (.privilege k, n) ∈ t.holdings →
    s'.made n.id = some (.escrow k) → s.Holds (.privilege k) n ∨ t.service = true

section
variable {N : Capability → Prop} {s s' s'' : System}

variable {c : Capability} {n : Node} {q : Mapping} {slot : Nat} {t : Task}

section
variable (h : s'.tasks = s.tasks)
include h

theorem Holds.of_tasks (hh : s'.Holds c n) : s.Holds c n := by
  obtain ⟨slot, t, ht, hmem⟩ := hh
  exact ⟨slot, t, by rw [← h]; exact ht, hmem⟩

theorem Maps.of_tasks (hq : s'.Maps q) : s.Maps q := by
  obtain ⟨slot, t, ht, hmem⟩ := hq
  exact ⟨slot, t, by rw [← h]; exact ht, hmem⟩

theorem Source.of_tasks (hc : Source N s' c) : Source N s c := by
  rcases hc with ⟨c', n', hh, hn⟩ | hc
  · exact .inl ⟨c', n', hh.of_tasks h, hn⟩
  · exact .inr hc

theorem Mapped.of_tasks (hq : Mapped N s' q) : Mapped N s q := by
  rcases hq with hq | ⟨c, hc, ht⟩
  · exact .inl (hq.of_tasks h)
  · exact .inr ⟨c, hc.of_tasks h, ht⟩

end

theorem Entitled.same (h : Entitled s c n) (hm : s'.made = s.made)
    (ho : s'.origin = s.origin) : Entitled s' c n :=
  ⟨by rw [hm]; exact h.made, h.badge, by rw [ho]; exact h.node⟩

theorem Ledger.same (h : Ledger s) (hm : s'.made = s.made) (ho : s'.origin = s.origin)
    (hn : s'.nextNode = s.nextNode) : Ledger s' := by
  refine ⟨?_, ?_⟩
  · rw [hm, hn]
    exact h.known
  · rw [ho, hm, hn]
    exact h.derived

theorem Bounded.same (h : Bounded s) (hm : s'.made = s.made) (ho : s'.origin = s.origin)
    (hn : s'.nextNode = s.nextNode) (ht : s'.tasks = s.tasks) : Bounded s' :=
  ⟨h.ledger.same hm ho hn, fun c n hh => (h.held c n (hh.of_tasks ht)).same hm ho⟩

theorem Extends.refl (s : System) : Extends s s := ⟨rfl, fun _ _ h => h, fun _ _ _ => rfl⟩

theorem Extends.trans (h : Extends s s') (h' : Extends s' s'') : Extends s s'' := by
  refine ⟨h'.tasks.trans h.tasks, fun id m hm => h'.made id m (h.made id m hm), ?_⟩
  intro id m hm
  rw [h'.origin id m (h.made id m hm), h.origin id m hm]

theorem Extends.entitled (h : Extends s s') (he : Entitled s c n) : Entitled s' c n := by
  obtain ⟨m, hm, hc⟩ := he.made
  refine ⟨⟨m, h.made _ m hm, hc⟩, he.badge, ?_⟩
  rw [h.origin _ m hm]
  exact he.node

theorem Extends.fair (h : Extends s s') (he : Fair N s c n) : Fair N s' c n := by
  refine ⟨h.entitled he.entitled, ?_, he.source.of_tasks h.tasks.symm⟩
  intro k hk hm
  obtain ⟨m, hm', -⟩ := he.entitled.made
  rw [h.made _ m hm'] at hm
  exact (he.opened k hk (hm'.trans hm)).of_tasks h.tasks.symm

theorem Within.refl (h : Bounded s) : Within N s s :=
  ⟨rfl, rfl, rfl, fun _ _ hh => h.fair hh, fun _ hq => .inl hq⟩

section
variable (h : Within N s s')
include h

theorem Within.of_tasks (hm : s''.made = s'.made) (ho : s''.origin = s'.origin)
    (hn : s''.nextNode = s'.nextNode) (ht : s''.tasks = s'.tasks) : Within N s s'' := by
  refine ⟨hm.trans h.made, ho.trans h.origin, hn.trans h.next, ?_, ?_⟩
  · intro c n hh
    exact h.holds c n (hh.of_tasks ht)
  · intro q hq
    exact h.maps q (hq.of_tasks ht)

theorem Within.task (ht : s'.tasks slot = some t) (hc : (c, n) ∈ t.holdings) : Fair N s c n :=
  h.holds c n ⟨slot, t, ht, hc⟩

theorem Within.set (ht : ∀ c n, (c, n) ∈ t.holdings → Fair N s c n) (hm : ∀ q ∈ t.maps, Mapped N s q) :
    Within N s (s'.set slot t) := by
  refine ⟨h.made, h.origin, h.next, ?_, ?_⟩
  · rintro c n ⟨i, u, hu, hmem⟩
    rcases System.set_some hu with ⟨rfl, rfl⟩ | ⟨-, hu⟩
    · exact ht c n hmem
    · exact h.task hu hmem
  · rintro q ⟨i, u, hu, hmem⟩
    rcases System.set_some hu with ⟨rfl, rfl⟩ | ⟨-, hu⟩
    · exact hm q hmem
    · exact h.maps q ⟨i, u, hu, hmem⟩

end

theorem Within.bounded (h : Bounded s) (hw : Within N s s') : Bounded s' := by
  refine ⟨h.ledger.same hw.made hw.origin hw.next, ?_⟩
  intro c n hh
  exact (hw.holds c n hh).entitled.same hw.made hw.origin

theorem Step.of_within (hb : Bounded s') (hx : Extends s s') (hw : Within N s' s'') : Step N s s'' := by
  refine ⟨hw.bounded hb, fun c n hh => (hw.holds c n hh).source.of_tasks hx.tasks,
    fun q hq => (hw.maps q hq).of_tasks hx.tasks, fun id m hm => ?_, ?_⟩
  · rw [hw.made]
    exact hx.made id m hm
  intro slot t k n ht hmem hm
  have hf := hw.task ht hmem
  rw [hw.made] at hm
  exact .inl ((hf.opened k rfl hm).of_tasks hx.tasks)

theorem Within.source (hw : Within (fun _ => False) s s') (hc : Source N s' c) : Source N s c := by
  rcases hc with ⟨c', n', hh, hn⟩ | hc
  · rcases (hw.holds c' n' hh).source with ⟨c'', n'', hh', hn'⟩ | hf
    · exact .inl ⟨c'', n'', hh', hn'.trans hn⟩
    · exact hf.elim
  · exact .inr hc

theorem Step.after (hw : Within (fun _ => False) s s') (hs : Step N s' s'') : Step N s s'' := by
  refine ⟨hs.bounded, fun c n hh => hw.source (hs.source c n hh), ?_,
    fun id m hm => hs.made id m (hw.made ▸ hm), ?_⟩
  · intro q hq
    rcases hs.maps q hq with hq | ⟨c, hc, ht⟩
    · rcases hw.maps q hq with hq | ⟨c, hc, ht⟩
      · exact .inl hq
      · exact .inr ⟨c, hc.imp_right fun hf => hf.elim, ht⟩
    · exact .inr ⟨c, hw.source hc, ht⟩
  · intro slot t k n ht hmem hm
    rcases hs.opened slot t k n ht hmem hm with hh | hserv
    · have hf := hw.holds _ _ hh
      obtain ⟨m, hm', -⟩ := hf.entitled.made
      rw [hs.made _ m (hw.made ▸ hm')] at hm
      exact .inl (hf.opened k rfl (hm'.trans hm))
    · exact .inr hserv

theorem Step.within (hb : Bounded s) (hw : Within N s s') : Step N s s' := .of_within hb (.refl s) hw

end

/-! ### Making nodes -/

variable {cap cap' : Capability} {mask : Mask}

theorem Bounded.fresh (h : Bounded s) {id : Nat} (hm : s.made id = some cap) : id ≠ s.nextNode + 1 := by
  have := h.ledger.known id cap hm
  omega

theorem Bounded.known_update (h : Bounded s) {id : Nat}
    (hm : Function.update s.made (s.nextNode + 1) (some cap) id = some cap') : id ≤ s.nextNode + 1 := by
  by_cases hi : id = s.nextNode + 1
  · exact hi.le
  · rw [update_of_ne hi] at hm
    exact (h.ledger.known id cap' hm).trans (Nat.le_succ _)

theorem root_spec (h : Bounded s) (hu : Unbadged cap) (hN : N cap) :
    Bounded (s.root cap).1 ∧ Extends s (s.root cap).1 ∧ Fair N (s.root cap).1 cap (s.root cap).2 := by
  have hx : Extends s (s.root cap).1 := by
    refine ⟨rfl, ?_, fun _ _ _ => rfl⟩
    intro id m hm
    simp only [System.root, update_of_ne (h.fresh hm)]
    exact hm
  have hnone : s.origin (s.nextNode + 1) = none := by
    cases ho : s.origin (s.nextNode + 1) with
    | none => rfl
    | some o =>
      have := (h.ledger.derived _ o.1 o.2 ho).2.1
      omega
  refine ⟨⟨⟨?_, ?_⟩, ?_⟩, hx, ⟨⟨⟨cap, ?_, .refl _⟩, hu, .inl ⟨rfl, hnone⟩⟩, ?_, .inr hN⟩⟩
  · exact fun _ _ => h.known_update
  · intro id p pc ho
    obtain ⟨hp, hid, ⟨m, hm, hn⟩, m', hm', hn', hk⟩ := h.ledger.derived id p pc ho
    exact ⟨hp, hid.trans (Nat.le_succ _), ⟨m, hx.made _ m hm, hn⟩, m', hx.made _ m' hm', hn', hk⟩
  · intro c n hh
    exact hx.entitled (h.held c n (hh.of_tasks hx.tasks))
  · simp [System.root]
  · intro k hk hm
    simp only [System.root, update_self, Option.some.injEq] at hm
    rw [hm] at hk
    cases hk

theorem child_spec (h : Bounded s) (hx : s.Holds x.cap x.node) (hn : Narrow x.cap cap) (hu : Unbadged cap)
    (hk : (∀ k, cap = .privilege k → x.cap = .privilege k) ∧ ∀ slot pid seq, cap ≠ .reply slot pid seq) :
    Bounded (s.child x cap).1 ∧ Extends s (s.child x cap).1 ∧
      Fair N (s.child x cap).1 cap (s.child x cap).2 := by
  have hext : Extends s (s.child x cap).1 := by
    refine ⟨rfl, ?_, ?_⟩
    · intro id m hm
      simp only [System.child, update_of_ne (h.fresh hm)]
      exact hm
    · intro id m hm
      simp only [System.child, update_of_ne (h.fresh hm)]
  obtain ⟨m, hm, hnm⟩ := (h.held _ _ hx).made
  have hle := h.ledger.known _ m hm
  have hmade : (s.child x cap).1.made (s.nextNode + 1) = some cap := by simp [System.child]
  refine ⟨⟨⟨?_, ?_⟩, ?_⟩, hext, ⟨⟨⟨cap, hmade, .refl _⟩, hu, .inr ⟨x.cap, ?_⟩⟩, ?_,
    .inl ⟨x.cap, x.node, hx, hn⟩⟩⟩
  · exact fun _ _ => h.known_update
  · intro id p pc ho
    by_cases hi : id = s.nextNode + 1
    · subst hi
      simp only [System.child, update_self, Option.some.injEq, Prod.mk.injEq] at ho
      obtain ⟨rfl, rfl⟩ := ho
      exact ⟨Nat.lt_succ_of_le hle, le_refl _, ⟨m, hext.made _ m hm, hnm⟩, cap, hmade, hn, hk⟩
    · simp only [System.child, update_of_ne hi] at ho
      obtain ⟨hp, hid, ⟨m, hm, hn⟩, m', hm', hn', hk⟩ := h.ledger.derived id p pc ho
      exact ⟨hp, hid.trans (Nat.le_succ _), ⟨m, hext.made _ m hm, hn⟩, m', hext.made _ m' hm', hn', hk⟩
  · intro c n hh
    exact hext.entitled (h.held c n (hh.of_tasks hext.tasks))
  · simp [System.child]
  · intro k hk hm
    rw [show (s.child x cap).2.id = s.nextNode + 1 from rfl, hmade, Option.some.injEq] at hm
    rw [hm] at hk
    cases hk

theorem handed_privilege (h : handed cap mask = some cap')
    {k : Privilege} (hk : cap' = .privilege k) : cap = .privilege k := by
  subst hk
  unfold handed at h
  split at h
  · cases h
  · cases h
  · cases h
    rfl

theorem handed_ne_reply (h : handed cap mask = some cap')
    {slot pid seq : Nat} : cap' ≠ .reply slot pid seq := by
  rintro rfl
  unfold handed at h
  split at h
  · cases h
  · cases h
  · rename_i hne
    cases h
    exact hne slot pid seq rfl

theorem mint_kind {mask : Rights} (h : mint cap mask offset length badge = some cap') :
    (∀ slot pid seq, cap' ≠ .reply slot pid seq) ∧ ∀ k, cap' = .privilege k → cap = .privilege k := by
  cases cap with
  | endpoint id rights old =>
    simp only [mint] at h
    split at h
    · cases h
      exact ⟨nofun, nofun⟩
    · cases h
  | memory => obtain ⟨r, -, rfl⟩ := Option.map_eq_some_iff.mp h; exact ⟨nofun, nofun⟩
  | dma => obtain ⟨r, -, rfl⟩ := Option.map_eq_some_iff.mp h; exact ⟨nofun, nofun⟩
  | mmio => obtain ⟨r, -, rfl⟩ := Option.map_eq_some_iff.mp h; exact ⟨nofun, nofun⟩
  | ioPorts => obtain ⟨r, -, rfl⟩ := Option.map_eq_some_iff.mp h; exact ⟨nofun, nofun⟩
  | reply slot pid seq => cases h
  | _ => cases h; exact ⟨nofun, fun _ => id⟩

end System

theorem Task.cap_mem {t : Task} (h : t.cap index = some x) : x ∈ t.table ∧ x.index = index :=
  ⟨List.mem_of_find?_eq_some h, by simpa using List.find?_some h⟩

namespace System

variable {s : System} {slot : Nat} {t : Task} {N : Capability → Prop}

theorem holds_cap (ht : s.tasks slot = some t) (hx : t.cap index = some x) : s.Holds x.cap x.node :=
  ⟨slot, t, ht, Task.mem_holdings.mpr (.inl ⟨x, (Task.cap_mem hx).1, rfl, rfl⟩)⟩

theorem transfer_spec (h : Bounded s) (ht : s.tasks slot = some t) (n : Named) :
    Bounded (s.transfer t n).1 ∧ Extends s (s.transfer t n).1 ∧
      ∀ p, (s.transfer t n).2 = some p → Fair N (s.transfer t n).1 p.cap p.node := by
  have hnone : Bounded s ∧ Extends s s ∧ ∀ p : Pending, none = some p → Fair N s p.cap p.node :=
    ⟨h, .refl s, nofun⟩
  unfold transfer
  split
  · exact hnone
  · rename_i x hx
    have hh := holds_cap ht hx
    have he := h.held _ _ hh
    split
    · exact hnone
    · rename_i cap hc
      obtain ⟨hn, hu⟩ := handed_narrow hc he.badge
      split
      · exact hnone
      · split
        · exact hnone
        · split
          · refine ⟨h, .refl s, ?_⟩
            rintro p hp
            cases hp
            obtain ⟨m, hm, hnm⟩ := he.made
            refine ⟨⟨⟨m, hm, hnm.trans hn⟩, hu, he.node⟩, ?_, .inl ⟨x.cap, x.node, hh, hn⟩⟩
            intro k hk _
            have hsame := handed_privilege hc hk
            rw [hk, ← hsame]
            exact hh
          · obtain ⟨hb, hx', hf⟩ := child_spec h hh hn hu ⟨fun k => handed_privilege hc, fun _ _ _ => handed_ne_reply hc⟩
            refine ⟨hb, hx', ?_⟩
            rintro p hp
            cases hp
            exact hf

theorem offer_spec (h : Bounded s) (ht : s.tasks slot = some t) (n : Option Named) :
    Bounded (s.offer t n).1 ∧ Extends s (s.offer t n).1 ∧
      ∀ p, (s.offer t n).2 = some p → Fair N (s.offer t n).1 p.cap p.node := by
  cases n with
  | none => exact ⟨h, .refl s, nofun⟩
  | some n => exact transfer_spec h ht n

end System

end MindCore.Kernel.Ipc
