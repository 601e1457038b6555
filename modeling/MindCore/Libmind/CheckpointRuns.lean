import MindCore.Libmind.CheckpointSystem

/-!
# Messages are applied once

In every run of two components what is true of every run of `Mail` is true of them: the steps of one
component are moves of its sender and of its receiver.
-/

namespace MindCore.Checkpoint

open List Proc

variable {log : List Message} {o : Message}

section System
variable [Sha256]
variable {c : Config} {epoch seq : UInt64} {l' : Live} {a : Act}

def Holds (c : Config) (i : Bool) (w : World) : List Save → Prop
  | [] => w.names (c.names i).manifest = (0, none)
  | save :: _ => w.names (c.names i).manifest =
      (save.manifest.epoch, some (Cid.of .raw save.manifest.encode)) ∧ save.manifest.encode ∈ w.blocks

structure PartyInv (c : Config) (i : Bool) (w : World) (p peer : Party) : Prop where
  holds : Holds c i w p.saves
  saves : ∀ save ∈ p.saves, Tallies c i save.manifest save.log
  live : ∀ l ∈ p.live, l.from_ = w.version c i → Tallies c i l.manifest l.log
  view : ∀ l ∈ p.live, ∀ v ∈ l.view, ∃ save ∈ peer.saves, save.manifest = v

structure Inv (c : Config) (s : System) : Prop where
  party : ∀ i, PartyInv c i s.world (s.parties i) (s.parties !i)
  mail : ∀ i, Mail.Inv Message.number (fun o => o.to_.bytes = c.name !i) (mail (s.face c i) (s.face c !i))

variable {saves : List Save} {s' : System} {view : Manifest} {m : Manifest} {w : World}

theorem found_eq (h : Holds c i w saves)
    (hd : Distinct w.blocks) (hf : Found (c.names i) w m) : ∃ save rest, saves = save :: rest ∧
      m = save.manifest := by
  obtain ⟨root, state, data, m₀, hm, hs, hdata, hmatch, hdec, heq⟩ := hf
  rcases saves with _ | ⟨save, rest⟩
  · rw [Holds, hm] at h
    simp at h
  · obtain ⟨hroot, hblock⟩ := h
    rw [hm] at hroot
    obtain ⟨hepoch, hroot'⟩ := Prod.mk.inj hroot
    have hcid : root = Cid.of .raw save.manifest.encode := Option.some.inj hroot'
    have hsame : data = save.manifest.encode := by
      refine hd hdata hblock ?_
      rw [hmatch, hcid]
      rfl
    rw [hsame] at hdec
    have hm₀ := Manifest.eq_of_decode_encode hdec
    refine ⟨save, rest, rfl, ?_⟩
    rw [heq, hm₀, hepoch]

variable {w w' : World}

theorem Holds.mono (h : Holds c i w saves) (hn : w'.names (c.names i).manifest = w.names (c.names i).manifest)
    (hb : w.blocks ⊆ w'.blocks) : Holds c i w' saves := by
  cases saves with
  | nil => exact hn.trans h
  | cons save rest => exact ⟨hn.trans h.1, hb h.2⟩

variable {s : System}

/-- A step of `i` that the mail of both allows. -/
theorem Inv.of_moves (i : Bool) (h : Inv c s) (hface : s'.face c (!i) = s.face c !i)
    (hmoves : Moves (c.name i) (c.name !i) (s.face c !i) (s.face c i) (s'.face c i))
    (hparty : PartyInv c i s'.world (s'.parties i) (s'.parties !i))
    (hpeer : PartyInv c (!i) s'.world (s'.parties !i) (s'.parties i)) : Inv c s' where
  party j := by
    rcases Bool.eq_or_eq_not j i with rfl | rfl
    · exact hparty
    · rw [Bool.not_not]
      exact hpeer
  mail j := by
    rcases Bool.eq_or_eq_not j i with rfl | rfl
    · rw [hface]
      exact Mail.reaches_inv (h.mail j) hmoves.sender
    · have hmail := h.mail (!i)
      rw [Bool.not_not] at hmail ⊢
      rw [hface]
      exact Mail.reaches_inv hmail hmoves.receiver

/-- A step of `i` that changes its instance, and of the store the blocks only. -/
theorem Inv.of_live (h : Inv c s)
    (hn : w.names = s.world.names) (hb : s.world.blocks ⊆ w.blocks) {live : Option Live}
    (hlive : ∀ l ∈ live, l.from_ = s.world.version c i → Tallies c i l.manifest l.log)
    (hview : ∀ l ∈ live, ∀ v ∈ l.view, ∃ save ∈ (s.parties !i).saves, save.manifest = v)
    (hmoves : Moves (c.name i) (c.name !i) (s.face c !i) (s.face c i)
      (Party.face ⟨live, (s.parties i).saves⟩ (s.world.version c i))) :
    Inv c ({ s with world := w }.set i ⟨live, (s.parties i).saves⟩) := by
  have hversion : ∀ j, w.version c j = s.world.version c j := fun j => by
    rw [World.version, World.version, hn]
  have hself := h.party i
  have hother := h.party !i
  rw [Bool.not_not] at hother
  refine h.of_moves i ?_ ?_ ?_ ?_
  · rw [System.face_set_other, hversion]
    rfl
  · rw [System.face_set_same, hversion]
    exact hmoves
  · rw [System.set_same, System.set_other]
    refine ⟨hself.holds.mono (congrFun hn _) hb, hself.saves, ?_, hview⟩
    intro l hl hfrom
    exact hlive l hl (hfrom.trans (hversion i))
  · rw [System.set_same, System.set_other]
    refine ⟨hother.holds.mono (congrFun hn _) hb, hother.saves, ?_, hother.view⟩
    intro l hl hfrom
    exact hother.live l hl (hfrom.trans (hversion _))

theorem Inv.of_change (h : Inv c s) {l : Live}
    (hl : (s.parties i).live = some l) (hn : w.names = s.world.names)
    (hb : s.world.blocks ⊆ w.blocks) (hfrom : l'.from_ = l.from_)
    (hview : ∀ v ∈ l'.view, ∃ save ∈ (s.parties !i).saves, save.manifest = v)
    (hcur : l.from_ = s.world.version c i → Tallies c i l'.manifest l'.log ∧
      Moves (c.name i) (c.name !i) (s.face c !i) (l.face (s.parties i).saves) (l'.face (s.parties i).saves)) :
    Inv c ({ s with world := w }.run i l') := by
  refine h.of_live hn hb ?_ ?_ ?_
  · intro k hk hk'
    cases hk
    exact (hcur (hfrom ▸ hk')).1
  · intro k hk
    cases hk
    exact hview
  · by_cases hv : l.from_ = s.world.version c i
    · rw [Party.face_current rfl (hfrom.trans hv)]
      have hface : s.face c i = l.face (s.parties i).saves := Party.face_current hl hv
      rw [hface]
      exact (hcur hv).2
    · rw [Party.face_fenced rfl (hfrom ▸ hv)]
      have hface : s.face c i = (s.parties i).lastFace := Party.face_fenced hl hv
      rw [hface]
      exact .idle _

theorem Landed.version_eq {from_ version : UInt64}
    (h : Landed (c.names i) m from_ version w w') : w'.version c i = from_ + 1 := by
  rw [World.version, h.names]
  simp

theorem Landed.names_other {from_ version : UInt64} (h : Landed (c.names i) m from_ version w w') :
    w'.names (c.names !i).manifest = w.names (c.names !i).manifest := by
  have hapart := c.apart i
  rw [h.names]
  simp [hapart.manifests.symm, hapart.right.symm]

theorem Landed.holds {from_ version : UInt64} (h : Landed (c.names i) m from_ version w w') :
    Holds c i w' (⟨m.stamped from_, log⟩ :: saves) := by
  refine ⟨?_, ?_⟩
  · rw [h.names]
    simp [Manifest.stamped]
  · rw [h.blocks]
    simp

theorem Inv.of_save (h : Inv c s) {l : Live} (hl : (s.parties i).live = some l)
    (hr : Landed (c.names i) l.manifest l.from_ version s.world w)
    (hm : l'.manifest = l.manifest.stamped l.from_) (hlog : l'.log = l.log)
    (hview : l'.view = l.view) (hfrom : l'.from_ = l.from_ + 1 ∨ l'.from_ = l.from_) :
    Inv c ({ s with world := w }.set i
      ⟨some l', ⟨l.manifest.stamped l.from_, l.log⟩ :: (s.parties i).saves⟩) := by
  have hself := h.party i
  have hother := h.party !i
  rw [Bool.not_not] at hother
  have hcur : l.from_ = s.world.version c i := hr.was.1.symm
  have htallies : Tallies c i (l.manifest.stamped l.from_) l.log :=
    ⟨⟨(hself.live l hl hcur).tabled.nodup, (hself.live l hl hcur).tabled.known⟩, (hself.live l hl hcur).last⟩
  have hblocks : s.world.blocks ⊆ w.blocks := by
    rw [hr.blocks]
    exact subset_append_left _ _
  have hversion : w.version c (!i) = s.world.version c !i := congrArg Prod.fst hr.names_other
  refine h.of_moves i ?_ ?_ ?_ ?_
  · rw [System.face_set_other, hversion]
    rfl
  · have hface : s.face c i = l.face (s.parties i).saves := Party.face_current hl hcur
    have hface' : Party.face ⟨some l', ⟨l.manifest.stamped l.from_, l.log⟩ :: (s.parties i).saves⟩
        (w.version c i) = { l.face (s.parties i).saves with
          saves := ⟨l.manifest.stamped l.from_, l.log⟩ :: (s.parties i).saves } := by
      rw [hr.version_eq]
      rcases hfrom with hnew | hold
      · rw [Party.face_current rfl hnew, Live.face, hm, hlog]
        rfl
      · have hne : l'.from_ ≠ l.from_ + 1 := by
          rw [hold]
          intro heq
          have := congrArg UInt64.toNat heq
          simp at this
          omega
        rw [Party.face_fenced rfl hne]
        rfl
    rw [System.face_set_same, hface', hface]
    exact .save _ _ rfl
  · rw [System.set_same, System.set_other]
    refine ⟨?_, ?_, ?_, ?_⟩
    · exact hr.holds
    · intro save hsave
      rcases mem_cons.mp hsave with rfl | hin
      · exact htallies
      · exact hself.saves save hin
    · intro k hk _
      cases hk
      rw [hm, hlog]
      exact htallies
    · intro k hk v hv
      cases hk
      rw [hview] at hv
      exact hself.view l hl v hv
  · rw [System.set_same, System.set_other]
    refine ⟨hother.holds.mono hr.names_other hblocks, hother.saves, ?_, ?_⟩
    · intro k hk hk'
      exact hother.live k hk (hk'.trans hversion)
    · intro k hk v hv
      obtain ⟨save, hsave, heq⟩ := hother.view k hk v hv
      exact ⟨save, mem_cons_of_mem _ hsave, heq⟩

theorem Holds.version {save : Save}
    (h : Holds c i w (save :: saves)) : w.version c i = save.manifest.epoch := by
  rw [World.version, h.1]

variable {s : System} {i : Bool} {l : Live}

section
variable (h : Inv c s)
include h

theorem restoreFound_inv (hd : Distinct s.world.blocks) (hf : Found (c.names i) s.world m) :
    Inv c (s.run i ⟨m, m.epoch, (s.parties i).savedLog, none⟩) := by
  have hself := h.party i
  obtain ⟨save, rest, hsaves, rfl⟩ := found_eq hself.holds hd hf
  have hholds := hself.holds
  rw [hsaves] at hholds
  refine h.of_live rfl (List.Subset.refl _) ?_ ?_ ?_
  · intro k hk _
    cases hk
    rw [Party.savedLog_eq, hsaves]
    exact hself.saves save (by rw [hsaves]; exact mem_cons_self)
  · intro k hk v hv
    cases hk
    exact nomatch hv
  · rw [Party.face_current rfl hholds.version.symm, Live.face, Party.savedLog_eq]
    have hmoves := (s.parties i).lastFace_moves (s.world.version c i) (c.name i) (c.name !i) (s.face c !i)
    rw [Party.lastFace, hsaves] at hmoves
    rw [hsaves]
    exact hmoves

theorem restoreFresh_inv {contract : Label} {version schema : UInt16} {state : Cid}
    (hf : s.world.names (c.names i).manifest = (epoch, none)) :
    Inv c (s.run i ⟨.new contract version schema state, epoch, [], none⟩) := by
  have hself := h.party i
  have hsaves : (s.parties i).saves = [] := by
    have hholds := hself.holds
    rcases hs : (s.parties i).saves with _ | ⟨save, rest⟩
    · rfl
    · rw [hs] at hholds
      have := hf.symm.trans hholds.1
      simp at this
  refine h.of_live rfl (List.Subset.refl _) ?_ ?_ ?_
  · intro k hk _
    cases hk
    exact ⟨⟨nodup_nil, fun _ hc => absurd hc not_mem_nil⟩, rfl⟩
  · intro k hk v hv
    cases hk
    exact nomatch hv
  · have hversion : s.world.version c i = epoch := congrArg Prod.fst hf
    rw [Party.face_current rfl hversion.symm, Live.face]
    have hmoves := (s.parties i).lastFace_moves (s.world.version c i) (c.name i) (c.name !i) (s.face c !i)
    rw [Party.lastFace, hsaves] at hmoves
    rw [hsaves]
    exact hmoves

theorem crash_inv : Inv c (s.set i { s.parties i with live := none }) := by
  refine h.of_live rfl (List.Subset.refl _) ?_ ?_ ?_
  · intro k hk
    exact nomatch hk
  · intro k hk
    exact nomatch hk
  · exact (s.parties i).lastFace_moves _ _ _ _

theorem read_inv (hd : Distinct s.world.blocks) (hl : (s.parties i).live = some l)
    (hf : Found (c.names !i) s.world view) :
    Inv c (s.run i { l with view := some view }) := by
  obtain ⟨save, rest, hsaves, rfl⟩ := found_eq (h.party !i).holds hd hf
  refine h.of_change hl rfl (List.Subset.refl _) rfl ?_ ?_
  · intro v hv
    cases hv
    exact ⟨save, by rw [hsaves]; exact mem_cons_self, rfl⟩
  · intro hcur
    exact ⟨(h.party i).live l hl hcur, .idle _⟩

section
variable (hl : (s.parties i).live = some l)
include hl

theorem Inv.numbered_view (hv : l.view = some view) : ∃ save ∈ (s.parties !i).saves, save.manifest = view ∧
      Mail.Numbered Message.number view.outbox.val view.sent.toNat := by
  obtain ⟨save, hsave, rfl⟩ := (h.party i).view l hl view hv
  refine ⟨save, hsave, rfl, ?_⟩
  have hmem : save.owes ∈ (Checkpoint.mail (s.face c !i) (s.face c !!i)).saves := by
    refine mem_map_of_mem ?_
    rw [System.face, Party.face_saves]
    exact hsave
  exact ((h.mail !i).saves save.owes hmem).1.numbered

theorem receive_inv (hv : l.view = some view) {answer : List Message → Message → Except Error UInt64}
    (hr : ((Manifest.receive (c.name i) (c.name !i) view (logged answer)).run
      (l.manifest, l.log)).state = (m, log)) :
    Inv c (s.run i { l with manifest := m, log := log }) := by
  obtain ⟨save, hsave, rfl, hnum⟩ := h.numbered_view hl hv
  obtain ⟨label, hlabel, hknown⟩ := c.label_known i
  refine h.of_change hl rfl (List.Subset.refl _) rfl ((h.party i).view l hl) ?_
  intro hcur
  have htallies := (h.party i).live l hl hcur
  have hsorted : (save.manifest.owed (c.name i)).Pairwise fun a b => a.number < b.number :=
    hnum.sorted.filter _
  have hrec := receiveEach_state (c.few i) hlabel hknown answer hsorted
    (fun o ho => hnum.pos o (mem_filter.mp ho).1) 0 htallies.tabled htallies.last
  rw [Manifest.receive] at hr
  rw [hr] at hrec
  refine ⟨⟨hrec.tabled, hrec.own⟩, ?_⟩
  obtain ⟨l', hlog, hpre⟩ := hrec.log
  have hface : Live.face { l with manifest := m, log := log } (s.parties i).saves =
      { l.face (s.parties i).saves with log := l.log ++ l' } := by
    have hout : m.outbox = l.manifest.outbox := hrec.outbox
    have hsent : m.sent = l.manifest.sent := hrec.sent
    have hlog' : log = l.log ++ l' := hlog
    rw [Live.face, Live.face, hout, hsent, hlog']
  rw [hface]
  refine .receive _ save ?_ l' ?_
  · rw [System.face, Party.face_saves]
    exact hsave
  · rw [Manifest.owed, filter_filter] at hpre
    have hsame : (save.manifest.outbox.val.filter fun o => o.to_.bytes = c.name i ∧
        Mail.last Message.number l.log < o.number) = save.manifest.outbox.val.filter fun o =>
        decide (Mail.last Message.number l.log < o.number) && decide (o.to_.bytes = c.name i) := by
      refine filter_congr fun o _ => ?_
      simp [Bool.and_comm]
    exact hsame ▸ hpre

theorem acknowledge_inv (hv : l.view = some view) :
    Inv c (s.run i { l with manifest := (l.manifest.acknowledge (c.name i) (c.name !i) view).2 }) := by
  obtain ⟨save, hsave, rfl⟩ := (h.party i).view l hl view hv
  refine h.of_change hl rfl (List.Subset.refl _) rfl ((h.party i).view l hl) ?_
  intro hcur
  have hmail := h.mail i
  have hface : s.face c i = l.face (s.parties i).saves := Party.face_current hl hcur
  rw [hface] at hmail
  have hnum : Mail.Numbered Message.number l.manifest.outbox.val l.manifest.sent.toNat := hmail.now.numbered
  have hack : (l.manifest.acknowledge (c.name i) (c.name !i) save.manifest).2 = _ :=
    acknowledge_eq hnum.sorted hnum.pos
  have hlast : save.manifest.op (c.name i) ≤ Mail.last Message.number (s.face c !i).savedLog := by
    have htallies := ((h.party !i).saves save hsave).last
    rw [Bool.not_not] at htallies
    rw [htallies]
    refine hmail.last_le (mem_map_of_mem ?_)
    rw [System.face, Party.face_saves]
    exact hsave
  refine ⟨((h.party i).live l hl hcur).congr ?_, ?_⟩
  · rw [hack]
  · rw [hack]
    exact .clear _ _ hlast

theorem send_inv {to_ what : Bytes} (hr : l.manifest.send to_ what = .ok (seq, m))
    (hnext : l.manifest.sent.toNat + 1 < 2 ^ 64) : Inv c (s.run i { l with manifest := m }) := by
  refine h.of_change hl rfl (List.Subset.refl _) rfl ((h.party i).view l hl) ?_
  intro hcur
  obtain ⟨t, _, hr₁⟩ := ok_of_bind hr
  obtain ⟨w, _, hr₂⟩ := ok_of_bind hr₁
  split at hr₂
  · cases hr₂
    refine ⟨((h.party i).live l hl hcur).congr rfl, ?_⟩
    refine .send (l.face (s.parties i).saves) ⟨l.manifest.sent + 1, t, w⟩ ?_
    change l.manifest.sent.toNat < (l.manifest.sent + 1).toNat
    rw [UInt64.toNat_add]
    simp only [UInt64.reduceToNat]
    omega
  · cases hr₂

theorem deliver_inv (hto : ∀ o ∈ l.manifest.outbox.val, o.seq = seq → o.to_.bytes ≠ c.name !i) :
    Inv c (s.run i { l with manifest := (l.manifest.delivered seq).2 }) := by
  obtain ⟨hclients, hsent, hsub, hmem⟩ := delivered_keeps l.manifest seq
  refine h.of_change hl rfl (List.Subset.refl _) rfl ((h.party i).view l hl) ?_
  intro hcur
  refine ⟨((h.party i).live l hl hcur).congr hclients, ?_⟩
  have hface : Live.face { l with manifest := (l.manifest.delivered seq).2 } (s.parties i).saves =
      { l.face (s.parties i).saves with out := (l.manifest.delivered seq).2.outbox.val } := by
    rw [Live.face, Live.face, hsent]
  rw [hface]
  exact .deliver _ _ hsub fun o ho hpeer => hmem o ho fun heq => hto o ho heq hpeer

theorem record_inv {who : Label} (hwho : who ∈ c.clients i) (hne : who.bytes ≠ c.name !i) {op result : UInt64}
    (hr : l.manifest.record who.bytes op result = .ok m) :
    Inv c (s.run i { l with manifest := m }) := by
  refine h.of_change hl rfl (List.Subset.refl _) rfl ((h.party i).view l hl) ?_
  intro hcur
  have htallies := (h.party i).live l hl hcur
  have hrec := Manifest.record_ok (c.few i) htallies.tabled who.new_bytes hwho hr
  refine ⟨⟨hrec.tabled, (hrec.others _ hne.symm).trans htallies.last⟩, ?_⟩
  have hface : Live.face { l with manifest := m } (s.parties i).saves =
      l.face (s.parties i).saves := by
    rw [Live.face, Live.face, hrec.outbox, hrec.sent]
  rw [hface]
  exact .idle _

theorem work_inv (hc : m.clients = l.manifest.clients) (ho : m.outbox = l.manifest.outbox)
    (hs : m.sent = l.manifest.sent) (hn : w.names = s.world.names)
    (hb : s.world.blocks ⊆ w.blocks) :
    Inv c ({ s with world := w }.run i { l with manifest := m }) := by
  refine h.of_change hl hn hb rfl ((h.party i).view l hl) ?_
  intro hcur
  refine ⟨((h.party i).live l hl hcur).congr hc, ?_⟩
  have hface : Live.face { l with manifest := m } (s.parties i).saves =
      l.face (s.parties i).saves := by
    rw [Live.face, Live.face, ho, hs]
  rw [hface]
  exact .idle _

end

theorem put_inv (data : Bytes) :
    Inv c { s with world := { s.world with blocks := s.world.blocks ++ [data] } } := by
  have hmoves : Moves (c.name false) (c.name !false) (s.face c !false) (s.face c false)
      (Party.face ⟨(s.parties false).live, (s.parties false).saves⟩ (s.world.version c false)) :=
    .idle _
  have hput := h.of_live (w := { s.world with blocks := s.world.blocks ++ [data] }) rfl
    (subset_append_left _ _) (h.party false).live (h.party false).view hmoves
  have hset : System.set { s with world := { s.world with blocks := s.world.blocks ++ [data] } } false
      ⟨(s.parties false).live, (s.parties false).saves⟩ =
      { s with world := { s.world with blocks := s.world.blocks ++ [data] } } := by
    rw [System.set]
    congr 1
    funext j
    cases j <;> rfl
  rw [hset] at hput
  exact hput

theorem step_inv (hd : Distinct s.world.blocks) (hs : Step c i a s s') (hok : Numbers i a s) : Inv c s' := by
  cases hs with
  | restoreFound _ contract version schema m world hr =>
    obtain ⟨rfl, hf⟩ := restore_ok hr
    exact restoreFound_inv h hd hf
  | restoreFresh _ contract version schema epoch state world hr =>
    obtain ⟨rfl, hf⟩ := restore_ok hr
    exact restoreFresh_inv h hf
  | crash _ => exact crash_inv h
  | read _ l hl contract version schema stateMax view state world hr =>
    obtain ⟨rfl, hf⟩ := read_ok hr
    exact read_inv h hd hl hf
  | receive _ l hl view hv answer m log hr => exact receive_inv h hl hv hr
  | acknowledge _ l hl view hv => exact acknowledge_inv h hl hv
  | send _ l hl to_ what seq m hr => exact send_inv h hl hr (hok rfl l hl)
  | deliver _ l hl seq hto => exact deliver_inv h hl hto
  | record _ l hl who hwho hne op result m hr => exact record_inv h hl hwho hne hr
  | work _ l hl m hc ho hs => exact work_inv h hl hc ho hs rfl (List.Subset.refl _)
  | save _ l hl version world hr =>
    have hland := save_ok hr
    exact h.of_save hl hland rfl rfl rfl (.inl hland.version)
  | saveLost _ l hl version world hr =>
    exact h.of_save hl (save_ok hr) rfl rfl rfl (.inr rfl)
  | saveFails _ l hl e world hr =>
    obtain rfl := save_error hr
    refine work_inv h hl ?_ ?_ ?_ ?_ ?_
    exacts [rfl, rfl, rfl, rfl, subset_append_left _ _]
  | put _ data => exact put_inv h data

end

theorem step_blocks (hs : Step c i a s s') : s.world.blocks ⊆ s'.world.blocks := by
  cases hs with
  | restoreFound _ _ _ _ _ _ hr | restoreFresh _ _ _ _ _ _ _ hr =>
    obtain ⟨rfl, _⟩ := restore_ok hr
    exact List.Subset.refl _
  | read _ l hl contract version schema stateMax view state world hr =>
    obtain ⟨rfl, _⟩ := read_ok hr
    exact List.Subset.refl _
  | save _ _ _ _ world hr | saveLost _ _ _ _ world hr =>
    have hblocks : world.blocks = _ := (save_ok hr).blocks
    exact hblocks ▸ subset_append_left _ _
  | saveFails _ l hl e world hr =>
    obtain rfl := save_error hr
    exact subset_append_left _ _
  | put _ data => exact subset_append_left _ _
  | crash | receive | acknowledge | send | deliver | record | work => exact List.Subset.refl _

theorem Inv.init : Inv c System.init where
  party i := by
    refine ⟨rfl, ?_, ?_, ?_⟩
    · intro save hsave
      exact nomatch hsave
    · intro l hl
      exact nomatch hl
    · intro l hl
      exact nomatch hl
  mail i := Mail.Inv.empty

theorem reaches_inv (h : Reaches c Numbers s) (hd : Distinct s.world.blocks) : Inv c s := by
  induction h with
  | refl => exact .init
  | tail _ hstep ih =>
    obtain ⟨i, a, hs, hok⟩ := hstep
    have hd' := hd.mono (step_blocks hs)
    exact step_inv (ih hd') hd' hs hok

/-- In every run in which no component sends past its last number, messages are applied exactly
once. -/
theorem messages_applied_once (c : Config) (s : System) (h : Reaches c Numbers s)
    (hd : Distinct s.world.blocks) (i : Bool) : ExactlyOnce c s i := by
  have hinv := reaches_inv h hd
  have hmail := hinv.mail i
  have hlog : ∀ save ∈ (s.parties !i).saves, save.log ∈ (mail (s.face c i) (s.face c !i)).logs := by
    intro save hsave
    rw [mail_logs]
    exact mem_map_of_mem hsave
  refine ⟨?_, ?_, ?_, ?_, ?_, ?_⟩
  · intro save hsave
    refine (hmail.logs _ (hlog save hsave)).sorted.imp ?_
    intro a b hab
    exact UInt64.lt_iff_toNat_lt.mpr hab
  · intro save hsave o ho
    obtain ⟨hshown, hto⟩ := (hmail.logs _ (hlog save hsave)).subset o ho
    exact ⟨showed_iff.mp hshown, hto⟩
  · have hgrows := (pairwise_cons.mp hmail.grows).2
    rw [mail_logs, pairwise_map] at hgrows
    exact hgrows
  · intro save hsave o hshown hto
    have happlied := hmail.logs _ (hlog save hsave)
    have hshown' : o ∈ (mail (s.face c i) (s.face c !i)).shown := showed_iff.mpr hshown
    have htallies := (hinv.party !i).saves save hsave
    have hlast := htallies.last
    rw [Bool.not_not] at hlast
    have hop : o.number ≤ save.manifest.op (c.name i) ↔ _ :=
      Manifest.le_op_iff htallies.tabled (hmail.shown_sent o hshown').1
    simp only [Message.number, ← UInt64.le_iff_toNat_le] at hop
    rw [← hop, hlast]
    exact ⟨fun ho => Mail.le_last happlied.sorted ho, fun hle => happlied.all o hshown' hto hle⟩
  · intro save hsave o hshown hto hle
    have hmem : save.owes ∈ (mail (s.face c i) (s.face c !i)).saves := by
      rw [mail_saves]
      exact mem_map_of_mem hsave
    have hkept := (hmail.saves _ hmem).1.kept o (showed_iff.mpr hshown) hto
      (UInt64.le_iff_toNat_le.mp hle)
    rw [Party.savedLog_eq, ← mail_logs]
    exact hkept
  · intro a b ha hb hab
    exact hmail.unique a (showed_iff.mpr ha) b (showed_iff.mpr hb) (congrArg UInt64.toNat hab)

end System

theorem System.set_set (s : System) (i : Bool) (p p' : Party) : (s.set i p).set i p' = s.set i p' := by
  unfold System.set
  congr 1
  funext j
  by_cases hj : j = i
  · rw [if_pos hj, if_pos hj]
  · rw [if_neg hj, if_neg hj]
    exact if_neg hj

theorem System.run_run (s : System) (i : Bool) (l l' : Live) : (s.run i l).run i l' = s.run i l' := by
  rw [System.run, System.run, System.set_same, System.set_set]
  rfl

theorem System.run_live (s : System) (i : Bool) (l : Live) : ((s.run i l).parties i).live = some l := by
  rw [System.run, System.set_same]

theorem System.run_saves (s : System) (i : Bool) (l : Live) :
    ((s.run i l).parties i).saves = (s.parties i).saves := by
  rw [System.run, System.set_same]

/-- The system with one more save of component `i`, whose instance is not looked at. -/
def System.saved (s : System) (i : Bool) (w : World) (save : Save) : System :=
  { s with world := w }.set i ⟨none, save :: (s.parties i).saves⟩

section Chosen
variable [Sha256] {c : Config} {ok : Bool → Act → System → Prop} {s : System} {i : Bool} {l : Live}

theorem reaches_send (h : Reaches c ok (s.run i l)) (to_ what : Label)
    (hroom : l.manifest.outbox.val.length < outboxMax) (hok : ok i .send (s.run i l)) :
    Reaches c ok (s.run i { l with manifest := { l.manifest with
      sent := l.manifest.sent + 1
      outbox := l.manifest.outbox.push ⟨l.manifest.sent + 1, to_, what⟩ hroom } }) := by
  have hsend := send_eq to_.new_bytes what.new_bytes hroom
  have hnext := h.tail ⟨i, .send, .send _ l (s.run_live i l) _ _ _ _ hsend, hok⟩
  rw [System.run_run] at hnext
  exact hnext

theorem reaches_deliver (h : Reaches c ok (s.run i l))
    (hout : l.manifest.outbox.val = [o]) (hto : o.to_.bytes ≠ c.name !i)
    (hok : ok i .deliver (s.run i l)) :
    Reaches c ok (s.run i { l with manifest := { l.manifest with outbox := .empty } }) := by
  have hother : ∀ p ∈ l.manifest.outbox.val, p.seq = o.seq → p.to_.bytes ≠ c.name !i := by
    intro p hp _
    rw [hout, mem_singleton] at hp
    rw [hp]
    exact hto
  have hnext := h.tail ⟨i, .deliver, .deliver _ l (s.run_live i l) o.seq hother, hok⟩
  rw [System.run_run, delivered_single hout] at hnext
  exact hnext

theorem reaches_save (h : Reaches c ok (s.run i l)) (hwas : (s.world.names (c.names i).manifest).1 = l.from_ ∧
      (s.world.names (c.names i).state).1 = l.from_)
    (hnext : l.from_.toNat + 1 < 2 ^ 64) (hok : ok i .save (s.run i l)) :
    ∃ w, Landed (c.names i) l.manifest l.from_ (l.from_ + 1) s.world w ∧
      Reaches c ok ((s.saved i w ⟨l.manifest.stamped l.from_, l.log⟩).run i
        { l with manifest := l.manifest.stamped l.from_, from_ := l.from_ + 1 }) := by
  obtain ⟨w, hr⟩ := save_lands (c.names i) l.manifest hwas hnext
  refine ⟨w, save_ok hr, ?_⟩
  have hstep := h.tail ⟨i, .save, .save _ l (s.run_live i l) _ w hr, hok⟩
  rw [System.run_saves] at hstep
  rw [System.run, System.saved, System.set_same, System.set_set]
  have hset : ∀ p, ({ s.run i l with world := w } : System).set i p =
      ({ s with world := w } : System).set i p := fun p => System.set_set { s with world := w } i _ p
  rw [hset] at hstep
  exact hstep

end Chosen

section Overrun

def pair : Config where
  name i := if i then [0x62] else [0x61]
  names i := if i then ⟨checkpointDir ++ [0x62], checkpointDir ++ [0x62] ++ stateLeaf⟩
    else ⟨checkpointDir ++ [0x61], checkpointDir ++ [0x61] ++ stateLeaf⟩
  clients i := if i then [⟨[0x61], by decide⟩] else [⟨[0x62], by decide⟩]
  distinct := by decide
  named i := by cases i <;> rfl
  few i := by cases i <;> decide
  known i := by
    cases i
    · exact ⟨⟨[0x62], by decide⟩, by simp, rfl⟩
    · exact ⟨⟨[0x61], by decide⟩, by simp, rfl⟩

def third : Label := ⟨[0x63], by decide⟩
def short : Label := ⟨[0x78], by decide⟩
def long : Label := ⟨[0x78, 0x78], by decide⟩

theorem distinct_of_forall [Sha256] {blocks : List Bytes}
    (h : ∀ a ∈ blocks, ∀ b ∈ blocks, Sha256.digest a = Sha256.digest b → a = b) : Distinct blocks :=
  fun a ha b hb => h a ha b hb

def Anyhow (_ : Bool) (_ : Act) (_ : System) : Prop := True

theorem third_ne : third.bytes ≠ pair.name !false := by decide

theorem reaches_sent [Sha256] {s : System} {l : Live} (h : Reaches pair Anyhow (s.run false l))
    (hout : l.manifest.outbox = .empty) (n : Nat) :
    Reaches pair Anyhow (s.run false { l with manifest := { l.manifest with
      sent := l.manifest.sent + UInt64.ofNat n } }) := by
  induction n with
  | zero =>
    have hzero : l.manifest.sent + UInt64.ofNat 0 = l.manifest.sent := by simp
    rw [hzero]
    exact h
  | succ n ih =>
    have hroom : l.manifest.outbox.val.length < outboxMax := by rw [hout]; decide
    have hsum : l.manifest.sent + UInt64.ofNat n + 1 = l.manifest.sent + UInt64.ofNat (n + 1) := by
      rw [UInt64.ofNat_add, UInt64.add_assoc]
      rfl
    have hsent := reaches_send ih third short hroom trivial
    have hdone := reaches_deliver hsent (o := ⟨l.manifest.sent + UInt64.ofNat n + 1, third, short⟩)
      (by simp only [UpTo.push_val, hout]; rfl) third_ne trivial
    simp only [hsum] at hdone
    rw [← hout] at hdone
    exact hdone

/-- A component that gives all numbers there are begins again at 0: two messages it saved have the
number 1. -/
theorem numbers_run_out : letI := Dag.lengthDigest
    ∃ s : System, Reaches pair Anyhow s ∧ Distinct s.world.blocks ∧ ¬ExactlyOnce pair s false := by
  let := Dag.lengthDigest
  have hfresh : Reaches pair Anyhow (System.init.run false ⟨.new short 1 1 default, 0, [], none⟩) :=
    Relation.ReflTransGen.refl.tail
      ⟨false, .restore, .restoreFresh System.init short 1 1 0 default System.init.world rfl, trivial⟩
  have hsent := reaches_send hfresh third short (by decide) trivial
  obtain ⟨w, hw, hsaved⟩ := reaches_save hsent ⟨rfl, rfl⟩ (by decide) trivial
  have hall := reaches_sent (reaches_deliver hsaved rfl third_ne trivial) rfl (2 ^ 64 - 1)
  have hagain := reaches_send hall third long (by decide) trivial
  have hwas : (w.names (pair.names false).manifest).1 = 1 ∧
      (w.names (pair.names false).state).1 = 1 := by
    rw [hw.names]
    decide
  obtain ⟨w', hw', hend⟩ := reaches_save hagain hwas (by decide) trivial
  refine ⟨_, hend, ?_, ?_⟩
  · change Distinct w'.blocks
    rw [hw'.blocks]
    change Distinct (w.blocks ++ _)
    rw [hw.blocks]
    exact distinct_of_forall (by decide)
  · intro honce
    have hfirst : Message.mk 1 third short = ⟨1, third, long⟩ := by
      refine honce.unique _ _ ?_ ?_ rfl
      · exact ⟨_, mem_cons_of_mem _ mem_cons_self, mem_singleton_self _⟩
      · exact ⟨_, mem_cons_self, mem_singleton_self _⟩
    revert hfirst
    decide

end Overrun

section Exchange

def owing [Sha256] : Manifest :=
  { Manifest.new short 1 1 (Cid.of .raw []) with
    epoch := 1
    sent := 1
    outbox := ⟨[⟨1, ⟨[0x62], by decide⟩, short⟩], by decide⟩ }

theorem owing_wellFormed [Sha256] : owing.WellFormed := by
  refine ⟨?_, ?_⟩
  · intro pre c post h
    exact absurd h.symm (by simp [owing, Manifest.new, UpTo.empty])
  · intro pre o post h
    rcases pre with _ | ⟨p, pre⟩
    · obtain ⟨rfl, _⟩ := List.cons.inj h
      exact ⟨by decide, UInt64.le_refl _, nofun⟩
    · exact absurd (List.cons.inj h).2.symm (by simp)

/-- A message from `a` to `b`: `a` saves it, `b` reads it there, applies it and saves. -/
theorem message_applied_once_in_a_run : letI := Dag.lengthDigest
    ∃ s : System, Reaches pair Numbers s ∧ Distinct s.world.blocks ∧
      (s.parties true).savedLog = owing.outbox.val ∧ ExactlyOnce pair s false := by
  let := Dag.lengthDigest
  let s₀ : System := { System.init with world := { System.init.world with blocks := [[]] } }
  have hput : Reaches pair Numbers s₀ :=
    Relation.ReflTransGen.refl.tail ⟨false, .put, .put System.init [], nofun⟩
  have hfresh : Reaches pair Numbers (s₀.run false ⟨.new short 1 1 (Cid.of .raw []), 0, [], none⟩) :=
    hput.tail ⟨false, .restore, .restoreFresh s₀ short 1 1 0 _ s₀.world rfl, nofun⟩
  have hsent := reaches_send hfresh ⟨[0x62], by decide⟩ short (by decide) (by
    intro _ l hl
    cases hl
    decide)
  obtain ⟨w, hw, hsaved⟩ := reaches_save hsent ⟨rfl, rfl⟩ (by decide) nofun
  have hblocks : w.blocks = [[], owing.encode] := hw.blocks
  have hnone : w.names (pair.names true).manifest = (0, none) ∧
      w.names (pair.names true).state = (0, none) := by
    rw [hw.names]
    exact ⟨rfl, rfl⟩
  have hnone' : (w.names (pair.names true).manifest).1 = 0 ∧
      (w.names (pair.names true).state).1 = 0 := by
    rw [hnone.1, hnone.2]
    exact ⟨rfl, rfl⟩
  -- `b` starts, and reads what `a` owes
  have hother := hsaved.tail ⟨true, .restore, .restoreFresh _ short 1 1 0 (Cid.of .raw []) w
    (restore_fresh_run hnone.1 hnone.2), nofun⟩
  have hread : (read (pair.names !true) owing.contract.bytes 1 1 0).run w =
      .ok (some (owing, [])) w := by
    have hrestore : (restore (pair.names !true) owing.contract.bytes 1 1).run w =
        .ok (.found owing) w := by
      have hroot : w.names (pair.names !true).manifest = (1, some (Cid.of .raw owing.encode)) := by
        rw [hw.names]
        rfl
      refine restore_found_run hroot ?_ ?_ owing_wellFormed
      · rw [hw.names]
        rfl
      · refine get_run ?_ (by decide)
        rw [hblocks]
        decide
    rw [read, bind_ok hrestore]
    have hstate : (Store.get owing.state 0).run w = .ok [] w := by
      refine get_run ?_ (Nat.le_refl 0)
      rw [hblocks]
      decide
    rw [bind_ok hstate]
    rfl
  have hview := hother.tail ⟨true, .read, .read _ _ (System.run_live _ _ _) _ 1 1 0 owing [] w hread, nofun⟩
  have hreceived := hview.tail ⟨true, .receive, .receive _ _ (System.run_live _ _ _) owing rfl
    (fun _ _ => .ok 0) _ _ rfl, nofun⟩
  -- `b` saves with the message applied
  obtain ⟨w', hw', hend⟩ := reaches_save hreceived hnone' (by decide) nofun
  have hdist : Distinct w'.blocks := by
    rw [hw'.blocks]
    change Distinct (w.blocks ++ _)
    rw [hblocks]
    exact distinct_of_forall (by decide +kernel)
  refine ⟨_, hend, hdist, ?_, messages_applied_once pair _ hend hdist false⟩
  rfl

end Exchange

end MindCore.Checkpoint
