import MindCore.Libmind.CheckpointFence

/-!
# The effects of a timeline

The effects begun since the component's first checkpoint, along the checkpoints an instance goes
back to. While a full table always keeps the effect with the highest id, no id is given twice, and
an id settles the effect it was given for.
-/

namespace MindCore.Checkpoint

open List

def Effect.face (e : Effect) : UInt64 × Label × Key := (e.id, e.what, e.key)

namespace Manifest

theorem topId_congr {effects effects' : List Effect}
    (h : effects'.map Effect.face = effects.map Effect.face) : topId effects' = topId effects := by
  induction effects generalizing effects' with
  | nil =>
    obtain rfl := map_eq_nil_iff.mp h
    rfl
  | cons e es ih =>
    obtain ⟨e', es', rfl, he, hes⟩ := map_eq_cons_iff.mp h
    have hid : e'.id = e.id := (Prod.mk.inj he).1
    rw [topId, topId, ih hes, hid]

structure Tracks (m : Manifest) (begun : List Effect) : Prop where
  unique : (begun.map Effect.id).Nodup
  top : ∀ b ∈ begun, b.id ≤ topId m.effects.val
  tabled : (m.effects.val.map Effect.id).Nodup
  kept : ∀ e ∈ m.effects.val, ∃ b ∈ begun, b.face = e.face

variable {m m' : Manifest} {begun : List Effect}

theorem Tracks.congr (h : m.Tracks begun)
    (heq : m'.effects.val.map Effect.face = m.effects.val.map Effect.face) : m'.Tracks begun := by
  refine ⟨h.unique, ?_, ?_, ?_⟩
  · intro b hb
    rw [topId_congr heq]
    exact h.top b hb
  · have hids : ∀ l : List Effect, l.map Effect.id = (l.map Effect.face).map Prod.fst := fun l => by
      rw [map_map]
      rfl
    rw [hids, heq, ← hids]
    exact h.tabled
  · intro e he
    have hmem : e.face ∈ m.effects.val.map Effect.face := heq ▸ mem_map_of_mem he
    obtain ⟨d, hd, hface⟩ := mem_map.mp hmem
    obtain ⟨b, hb, hbd⟩ := h.kept d hd
    exact ⟨b, hb, hbd.trans hface⟩

theorem tracks_new (contract : Label) (version schema : UInt16) (state : Cid) :
    (Manifest.new contract version schema state).Tracks [] :=
  ⟨nodup_nil, nofun, nodup_nil, nofun⟩

theorem tracks_own (h : (m.effects.val.map Effect.id).Nodup) : m.Tracks m.effects.val :=
  ⟨h, fun _ hb => le_topId hb, h, fun e he => ⟨e, he, rfl⟩⟩

theorem settle_faces (m : Manifest) (id : UInt64) (outcome : Outcome) :
    (m.settle id outcome).2.effects.val.map Effect.face = m.effects.val.map Effect.face := by
  rcases hs : m.settle id outcome with ⟨found, m'⟩
  cases found with
  | false => rw [settle_false hs]
  | true =>
    obtain ⟨k, e, hk, _, heq⟩ := settle_ok hs
    rw [heq, map_set]
    obtain ⟨hlt, hget⟩ := List.getElem?_eq_some_iff.mp hk
    refine ext_getElem? fun j => ?_
    rw [getElem?_set]
    split
    · rename_i hjk
      subst hjk
      rw [getElem?_map, hk]
      simp [hlt, Effect.face]
    · rfl

theorem Tracks.begin (h : m.Tracks begun) (hs : m.Spare) {what : Label} {key : Key} {id : UInt64}
    (hb : m.beginKeyed what.bytes key = .ok (id, m')) :
    m'.Tracks (⟨id, what, .pending, key⟩ :: begun) := by
  obtain ⟨kept, label, hlabel, hkept, hid, heff⟩ := (beginKeyed_ok hb).begun
  rw [what.new_bytes] at hlabel
  obtain rfl := Option.some.inj hlabel
  have htop := hs.topId_eq hkept
  have hsub := roomFor_sublist hkept
  have hnext : id.toNat = (topId m.effects.val).toNat + 1 := by
    rw [hid, htop, UInt64.toNat_add]
    exact Nat.mod_eq_of_lt hs.above
  have habove : ∀ d : UInt64, d ≤ topId m.effects.val → d < id := by
    intro d hd
    rw [UInt64.lt_iff_toNat_lt, hnext]
    exact Nat.lt_succ_of_le (UInt64.le_iff_toNat_le.mp hd)
  have hin : id ≤ topId m'.effects.val := by
    rw [heff]
    exact le_topId (e := ⟨id, what, .pending, key⟩) (mem_append_right _ mem_cons_self)
  refine ⟨nodup_cons.mpr ⟨?_, h.unique⟩, ?_, ?_, ?_⟩
  · intro hmem
    obtain ⟨b, hb', hbid⟩ := mem_map.mp hmem
    have hlt := habove b.id (h.top b hb')
    rw [hbid] at hlt
    exact absurd hlt (UInt64.lt_irrefl _)
  · intro b hb'
    rcases mem_cons.mp hb' with rfl | hb'
    · exact hin
    · exact UInt64.le_trans (UInt64.le_of_lt (habove b.id (h.top b hb'))) hin
  · rw [heff, map_append]
    refine nodup_append.mpr ⟨h.tabled.sublist (hsub.map _), nodup_singleton _, ?_⟩
    intro a ha b hb' heq
    obtain ⟨e, he, rfl⟩ := mem_map.mp ha
    rw [map_singleton, mem_singleton] at hb'
    have hlt := habove e.id (le_topId (hsub.subset he))
    rw [heq, hb'] at hlt
    exact absurd hlt (UInt64.lt_irrefl _)
  · intro e he
    rw [heff] at he
    rcases mem_append.mp he with he | he
    · obtain ⟨b, hb', hface⟩ := h.kept e (hsub.subset he)
      exact ⟨b, mem_cons_of_mem _ hb', hface⟩
    · rw [mem_singleton.mp he]
      exact ⟨_, mem_cons_self, rfl⟩

end Manifest

theorem reconciled_faces {g : Registry} {es es' : List Effect}
    (h : List.Forall₂ (Reconciled g) es es') : es'.map Effect.face = es.map Effect.face := by
  induction h with
  | nil => rfl
  | cons he _ ih =>
    rw [map_cons, map_cons, ih]
    cases he <;> rfl

namespace Fleet

variable {ι : Type}

/-- The steps that change the effects by beginning, settling and reconciling only. -/
def Proper (_ : ι) (a : Act) (_ : Fleet ι) : Prop := a ≠ .rewrite

def Numbered (i : ι) (a : Act) (s : Fleet ι) : Prop :=
  a ≠ .rewrite ∧ (a = .begin → ∀ l ∈ s.live i, l.manifest.Spare)

structure ToldApart (s : Fleet ι) : Prop where
  /-- No id is given twice. -/
  unique : ∀ i, ∀ l ∈ s.live i, (l.begun.map Effect.id).Nodup
  /-- An id settles the effect it was given for. -/
  settles : ∀ i, ∀ l ∈ s.live i, ∀ id outcome m, l.manifest.settle id outcome = (true, m) →
    ∃ k e, l.manifest.effects.val[k]? = some e ∧ e.id = id ∧ (∃ b ∈ l.begun, b.face = e.face) ∧
      m.effects.val = l.manifest.effects.val.set k { e with outcome := outcome }
  /-- Reconciling settles a publication as the target has it. -/
  reconciles : ∀ i, ∀ l ∈ s.live i, ∀ turns m seen settled (t : Scripted),
    (reconcile l.manifest).run ⟨s.target, turns⟩ = .ok (m, seen, settled) t →
    List.Forall₂ (Reconciled t.registry) l.manifest.effects.val m.effects.val
  /-- No publication lands twice. -/
  once : (s.target.landed.map fun l => (l.1, l.2.1)).Nodup

section Runs
variable [DecidableEq ι]

/-- Each table and the one of the last checkpoint go with the effects begun up to them. -/
structure Timeline (h : Home) (s : Fleet ι) : Prop where
  live : ∀ i, ∀ l ∈ s.live i, l.manifest.Tracks l.begun
  last : ∀ m begun, last h s.events = .checkpoint m begun → m.Tracks begun
  once : s.target.Once

variable {h : Home} {s s' : Fleet ι} {i : ι} {g : Registry} {w : World} {from_ : UInt64} {l : Instance}

theorem Timeline.of_live (ht : Timeline h s) {l' : Option Instance}
    (hg : g.Once) (hl : ∀ l ∈ l', l.manifest.Tracks l.begun) :
    Timeline h { s.set i l' with world := w, target := g } :=
  ⟨live_set ht.live hl, ht.last, hg⟩

theorem Timeline.of_faces (ht : Timeline h s) (hl : s.live i = some l) {m : Manifest} {asked : Option Release}
    (heq : m.effects.val.map Effect.face = l.manifest.effects.val.map Effect.face)
    (hg : g.Once) :
    Timeline h { s.set i (some ⟨m, from_, l.begun, asked⟩) with world := w, target := g } := by
  refine ht.of_live hg ?_
  rintro k ⟨⟩
  exact (ht.live i l hl).congr heq

theorem Timeline.of_saved (ht : Timeline h s) (hl : s.live i = some l) : Timeline h { s.set i (some { l with
        manifest := l.manifest.stamped l.from_, from_ := from_ }) with
      world := w, events := .saved i (l.manifest.stamped l.from_) l.begun :: s.events } := by
  have htracks : (l.manifest.stamped l.from_).Tracks l.begun := (ht.live i l hl).congr rfl
  refine ⟨live_set ht.live ?_, ?_, ht.once⟩
  · rintro k ⟨⟩
    exact htracks
  · rintro m begun ⟨⟩
    exact htracks

variable [Sha256]

theorem step_timeline {a : Act} (hi : Inv h s) (hd : Distinct s.world.blocks) (ht : Timeline h s)
    (hok : Numbered i a s) (hs : Step h i a s s') : Timeline h s' := by
  cases hs with
  | restoreFound _ contract version schema m world hr =>
    obtain ⟨rfl, hf⟩ := restore_ok hr
    obtain ⟨_, ⟨m₀, begun, hlast, heq⟩, _⟩ := hi.shows.gives hd hf
    refine ⟨live_set ht.live ?_, ht.last, ht.once⟩
    rintro k ⟨⟩
    rw [begunBefore, hlast]
    have heff : m.effects = m₀.effects := by rw [heq]
    exact (ht.last m₀ begun hlast).congr (by rw [heff])
  | restoreFresh _ contract version schema epoch state world hr =>
    refine ⟨live_set ht.live ?_, ht.last, ht.once⟩
    rintro k ⟨⟩
    exact Manifest.tracks_new contract version schema state
  | crash _ => exact ht.of_live ht.once nofun
  | begin _ l hl what key id m hr =>
    refine ht.of_live ht.once ?_
    rintro k ⟨⟩
    exact (ht.live i l hl).begin (hok.2 rfl l hl) hr
  | settle _ l hl id outcome =>
    exact ht.of_faces hl (l.manifest.settle_faces id outcome) ht.once
  | reconcile _ l hl turns m seen settled t hr =>
    have hafter := (reconcile_after l.manifest).ok hr
    exact ht.of_faces hl (reconciled_faces (reconcile_ok hr)) (hafter.once ht.once)
  | work _ l hl m he => exact ht.of_faces hl (by rw [he]) ht.once
  | rewrite _ l hl m => exact absurd rfl hok.1
  | save _ l hl version world hr => exact ht.of_saved hl
  | saveLost _ l hl version world hr => exact ht.of_saved hl
  | saveFails _ l hl e world hr =>
    exact ht.of_faces (m := l.manifest.stamped l.from_) hl rfl ht.once
  | askRelease _ l hl r world hr => exact ht.of_faces hl rfl ht.once
  | commitRelease _ l hl r ha version world hr =>
    refine ⟨live_set ht.live ?_, nofun, ht.once⟩
    rintro k ⟨⟩
    exact ht.live i l hl
  | releaseFails _ l hl r ha e world hr => exact ht.of_faces hl rfl ht.once
  | put _ data => exact ⟨ht.live, ht.last, ht.once⟩
  | write _ ws => exact ⟨ht.live, ht.last, ht.once.writes ws⟩

omit [DecidableEq ι] in
theorem init_timeline (hn : ∀ m ∈ h.imported, (m.effects.val.map Effect.id).Nodup) :
    Timeline h (init h : Fleet ι) := by
  refine ⟨nofun, ?_, ⟨nofun, nodup_nil⟩⟩
  intro m begun hlast
  change first h = _ at hlast
  rw [first] at hlast
  split at hlast
  · cases hlast
  · rename_i m' him
    cases hlast
    exact Manifest.tracks_own (hn m him)

theorem reaches_timeline (hn : ∀ m ∈ h.imported, (m.effects.val.map Effect.id).Nodup)
    (hr : Reaches h Numbered s) (hd : Distinct s.world.blocks) : Timeline h s := by
  induction hr with
  | refl => exact init_timeline hn
  | tail hr hstep ih =>
    obtain ⟨i, a, hs, hok⟩ := hstep
    have hd' := hd.mono (step_blocks hs)
    exact step_timeline (reaches_inv hr hd') hd' (ih hd') hok hs

/-- In every run in which each effect begun has something to spare. -/
theorem effects_told_apart (h : Home) (s : Fleet ι)
    (hn : ∀ m ∈ h.imported, (m.effects.val.map Effect.id).Nodup) (hr : Reaches h Numbered s)
    (hd : Distinct s.world.blocks) : ToldApart s := by
  have ht := reaches_timeline hn hr hd
  refine ⟨fun i l hl => (ht.live i l hl).unique, ?_, ?_, ht.once.once⟩
  · intro i l hl id outcome m hs
    obtain ⟨k, e, hk, hid, heq⟩ := Manifest.settle_ok hs
    exact ⟨k, e, hk, hid, (ht.live i l hl).kept e (mem_of_getElem? hk), heq⟩
  · intro i l hl turns m seen settled t hrec
    exact reconcile_ok hrec

end Runs

section Reused

inductive Command where
  | begin (what : Label)
  | settle (id : UInt64) (outcome : Outcome)

def obey : List Command → Instance → Option Instance
  | [], l => some l
  | .begin what :: cs, l =>
    match l.manifest.begin what.bytes with
    | .ok (id, m) => obey cs { l with manifest := m, begun := ⟨id, what, .pending, .none⟩ :: l.begun }
    | .error _ => none
  | .settle id outcome :: cs, l => obey cs { l with manifest := (l.manifest.settle id outcome).2 }

theorem set_set [DecidableEq ι] (s : Fleet ι) (i : ι) (l l' : Option Instance) :
    (s.set i l).set i l' = s.set i l' := by
  simp only [set, Fleet.mk.injEq, true_and, and_true]
  funext j
  split <;> rfl

theorem set_same [DecidableEq ι] (s : Fleet ι) (i : ι) (l : Option Instance) :
    (s.set i l).live i = l := if_pos rfl

theorem reaches_obey [Sha256] [DecidableEq ι] {h : Home} {s : Fleet ι} {i : ι} {cs : List Command}
    {l l' : Instance} (hr : Reaches h Proper (s.set i (some l))) (ho : obey cs l = some l') :
    Reaches h Proper (s.set i (some l')) := by
  induction cs generalizing l with
  | nil =>
    cases ho
    exact hr
  | cons c cs ih =>
    cases c with
    | begin what =>
      rw [obey] at ho
      split at ho
      · rename_i id m hb
        have hstep := hr.tail ⟨i, .begin, .begin _ l (set_same s i _) what .none id m hb, nofun⟩
        rw [set_set] at hstep
        exact ih hstep ho
      · cases ho
    | settle id outcome =>
      have hstep := hr.tail ⟨i, .settle, .settle _ l (set_same s i _) id outcome, nofun⟩
      rw [set_set] at hstep
      exact ih hstep ho

/-- Sixteen effects begun, of which the last is done: it is let go of, and its id is given again. -/
def overfull : List Command := List.replicate effectsMax (.begin short) ++ [.settle 16 .done, .begin long]

theorem id_given_again : letI := Dag.lengthDigest
    ∃ s : Fleet Bool, Reaches lone Proper s ∧ Distinct s.world.blocks ∧ ¬ToldApart s := by
  let := Dag.lengthDigest
  let s₀ : Fleet Bool := { init lone with events := [.restored false 0] }
  have hfresh : Reaches lone Proper
      (s₀.set false (some ⟨.new short 1 1 default, 0, [], none⟩)) := Relation.ReflTransGen.refl.tail
    ⟨false, .restore, .restoreFresh (init lone) short 1 1 0 default _ rfl, nofun⟩
  obtain ⟨l, hl, hids⟩ : ∃ l, obey overfull ⟨.new short 1 1 default, 0, [], none⟩ = some l ∧
      ¬(l.begun.map Effect.id).Nodup := by
    refine ⟨_, rfl, ?_⟩
    decide
  refine ⟨_, reaches_obey hfresh hl, distinct_of_forall nofun, ?_⟩
  intro ht
  exact hids (ht.unique false l (set_same s₀ false _))

/-- Two effects, of which the first is done. -/
theorem effects_told_apart_in_a_run : letI := Dag.lengthDigest
    ∃ s : Fleet Bool, Reaches lone Numbered s ∧ Distinct s.world.blocks ∧
      (∃ l ∈ s.live false, l.begun.map Effect.id = [2, 1]) ∧ ToldApart s := by
  let := Dag.lengthDigest
  have hfresh : Reaches lone Numbered _ := Relation.ReflTransGen.refl.tail
    ⟨false, .restore, .restoreFresh (init lone) short 1 1 0 default _ rfl, nofun, nofun⟩
  have hspare : ∀ (m : Manifest), (Manifest.topId m.effects.val).toNat + 1 < 2 ^ 64 →
      m.effects.val.length ≠ effectsMax → m.Spare :=
    fun _ habove hlen => ⟨habove, fun hfull => absurd hfull hlen⟩
  have hone := hfresh.tail ⟨false, .begin, .begin _ _ rfl short .none 1 _ rfl, nofun, by
    rintro _ l ⟨⟩
    exact hspare _ (by decide) (by decide)⟩
  have htwo := hone.tail ⟨false, .begin, .begin _ _ rfl long .none 2 _ rfl, nofun, by
    rintro _ l ⟨⟩
    exact hspare _ (by decide) (by decide)⟩
  have hend := htwo.tail ⟨false, .settle, .settle _ _ rfl 1 .done, nofun, nofun⟩
  have hdist : Distinct [] := distinct_of_forall nofun
  exact ⟨_, hend, hdist, ⟨_, rfl, rfl⟩, effects_told_apart lone _ nofun hend hdist⟩

end Reused

end Fleet

end MindCore.Checkpoint
