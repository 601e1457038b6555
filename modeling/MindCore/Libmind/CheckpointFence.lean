import MindCore.Libmind.CheckpointReconcile
import MindCore.Libmind.CheckpointRuns

/-!
# Instances of one component

Any number of instances of a component restore, save and release its checkpoint, each from the
epoch it last restored or saved. A compare-and-swap of both names lets a save land only on the
checkpoint its instance knows, so the saves form one chain; a release ends it.
-/

namespace MindCore.Checkpoint

open List Proc

section Released
variable {S : Type} [Store S]

/-- The first half of `release`: the record of the checkpoint both names hold at `from_`. -/
def askRelease (names : Names) (from_ : UInt64) : Proc Error S Release := do
  let ((mv, manifest), (sv, state)) ← Store.snapshot (names.manifest, names.state)
  ensure (mv = from_ ∧ sv = from_) .fenced
  match manifest, state with
  | some manifest, some state => do
    -- both names at one block: a release already, never a checkpoint
    ensure (manifest ≠ state) (.released from_)
    return ⟨from_, manifest, state⟩
  | _, _ => throw .invalid

/-- The second half of `release`: both names to the record, by one commit. -/
def commitRelease (names : Names) (r : Release) : Proc Error S UInt64 := do
  let root ← Store.put r.encode
  Store.commit (names.manifest, names.state) r.epoch (root, root)

/-- `released`: the release of a component moved out of this store. -/
def Names.released (names : Names) : Proc Error S Release := do
  let ((mv, manifest), (sv, state)) ← Store.snapshot (names.manifest, names.state)
  match manifest, state with
  | some manifest, some state => do
    ensure (mv = sv ∧ manifest = state) .inconsistent
    let bytes ← Store.get manifest max
    Proc.ofExcept (Release.decode bytes)
  | _, _ => throw .inconsistent

end Released

theorem Release.decode_encode (r : Release) : Release.decode r.encode = .ok r := by
  have henc : r.encode = MindCore.Checkpoint.released ++ (u16 releaseFormat ++ (u64 r.epoch ++
      (r.manifest.toBytes ++ (r.state.toBytes ++ [])))) := by
    simp [Release.encode]
  rw [henc]
  refine readAll_of_reads (c := True) ?_ trivial
  refine .next (In.take_reads rfl) (.passed rfl ?_)
  refine .next (In.u16_reads releaseFormat) (.passed rfl ?_)
  refine .next (In.u64_reads r.epoch) ?_
  refine .next (In.cid_reads r.manifest) ?_
  refine .next (In.cid_reads r.state) ?_
  exact .pure r

theorem Release.not_manifest (r : Release) (m : Manifest) : Manifest.decode r.encode ≠ .ok m := by
  intro h
  have hrun := readAll_ok h
  exact nomatch hrun

theorem Release.length_encode (r : Release) : r.encode.length ≤ max := by
  simp only [Release.encode, length_append, Cid.length_toBytes, u16, u64, Bytes.length_le]
  decide

theorem stamped_epoch {m : Manifest} {from_ : UInt64} (hlt : from_.toNat + 1 < 2 ^ 64) :
    (m.stamped from_).epoch.toNat = from_.toNat + 1 := by
  change (from_ + 1).toNat = _
  exact Nat.mod_eq_of_lt hlt

/-- What a component's names may hold: nothing yet, a checkpoint with the effects begun up to it,
or a release. -/
inductive Kept where
  | nothing
  | checkpoint (m : Manifest) (begun : List Effect)
  | release (r : Release)

def Kept.block : Kept → Option Bytes
  | .nothing => none
  | .checkpoint m _ => some m.encode
  | .release r => some r.encode

def Kept.released : Kept → Bool
  | .release _ => true
  | _ => false

theorem Kept.not_released {k : Kept} (h : k = .nothing ∨ ∃ m begun, k = .checkpoint m begun) :
    k.released = false := by
  rcases h with rfl | ⟨m, begun, rfl⟩ <;> rfl

/-- A running instance: its manifest, the epoch it restored or last saved, the effects it and
those before it began, and the release it is about to commit. -/
structure Instance where
  manifest : Manifest
  from_ : UInt64
  begun : List Effect
  asked : Option Release

inductive Event (ι : Type) where
  | restored (i : ι) (epoch : UInt64)
  | saved (i : ι) (m : Manifest) (begun : List Effect)
  | released (i : ι) (r : Release)

/-- A component whose names hold nothing, or a checkpoint moved in from another store. -/
structure Home where
  component : Bytes
  names : Names
  named : Names.of component = some names
  imported : Option Manifest

theorem Home.own (h : Home) : h.names.manifest ≠ h.names.state := by
  obtain ⟨hn, hb⟩ := names_of h.named
  rw [hn]
  simp only [append_assoc, ne_eq, append_cancel_left_eq]
  exact name_ne_leaf hb

/-- The instances of a component, the store and the target they share, and what they did, the
newest first. -/
structure Fleet (ι : Type) where
  world : World
  target : Registry
  live : ι → Option Instance
  events : List (Event ι)

namespace Fleet

variable {ι : Type} {epoch : UInt64}

section Told

def first (h : Home) : Kept :=
  match h.imported with
  | none => .nothing
  | some m => .checkpoint m m.effects.val

def last (h : Home) : List (Event ι) → Kept
  | [] => first h
  | .restored _ _ :: es => last h es
  | .saved _ m begun :: _ => .checkpoint m begun
  | .released _ r :: _ => .release r

def version (h : Home) : List (Event ι) → Nat
  | [] => if h.imported.isSome then 1 else 0
  | .restored _ _ :: es => version h es
  | .saved _ _ _ :: es => version h es + 1
  | .released _ _ :: es => version h es + 1

def Knows (es : List (Event ι)) (i : ι) (epoch : UInt64) : Prop :=
  .restored i epoch ∈ es ∨ ∃ m begun, .saved i m begun ∈ es ∧ m.epoch = epoch

variable {es : List (Event ι)}

theorem Knows.cons {i : ι} (h : Knows es i epoch) (e : Event ι) : Knows (e :: es) i epoch := by
  rcases h with h | ⟨m, begun, h, he⟩
  · exact .inl (mem_cons_of_mem e h)
  · exact .inr ⟨m, begun, mem_cons_of_mem e h, he⟩

/-- What an instance may know: an epoch up to the version of the names, and never the one of a
release. -/
def Past (h : Home) (es : List (Event ι)) (epoch : UInt64) : Prop :=
  epoch.toNat ≤ version h es ∧ ((last h es).released → epoch.toNat < version h es)

theorem Past.landed {h : Home} {e : Event ι} (hp : Past h es epoch)
    (hv : version h (e :: es) = version h es + 1) : Past h (e :: es) epoch := by
  have := hp.1
  exact ⟨by omega, fun _ => by omega⟩

end Told

def set [DecidableEq ι] (s : Fleet ι) (i : ι) (l : Option Instance) : Fleet ι :=
  { s with live := fun j => if j = i then l else s.live j }

theorem set_live [DecidableEq ι] (s : Fleet ι) (i j : ι) (l : Option Instance) :
    (s.set i l).live j = if j = i then l else s.live j := rfl

theorem live_set [DecidableEq ι] {s : Fleet ι} {i : ι} {P : ι → Instance → Prop} {l' : Option Instance}
    (hold : ∀ j, ∀ l ∈ s.live j, P j l) (hnew : ∀ l ∈ l', P i l) :
    ∀ j, ∀ l ∈ (s.set i l').live j, P j l := by
  intro j l hl
  rw [set_live] at hl
  split at hl
  · rename_i heq
    exact heq ▸ hnew l hl
  · exact hold j l hl

inductive Act where
  | restore
  | crash
  | begin
  | settle
  | reconcile
  | work
  | rewrite
  | save
  | release
  | others
deriving DecidableEq

section System
variable [Sha256]

def roots : Kept → Option Cid × Option Cid
  | .nothing => (none, none)
  | .checkpoint m _ => (some (Cid.of .raw m.encode), some m.state)
  | .release r => (some (Cid.of .raw r.encode), some (Cid.of .raw r.encode))

def begunBefore (h : Home) (es : List (Event ι)) : List Effect :=
  match last h es with
  | .checkpoint _ begun => begun
  | _ => []

section Steps
variable [DecidableEq ι]

/-- A step of instance `i`. It is restored or stops; it begins, settles or reconciles effects, or
works on the rest of its manifest, or puts any manifest in place of its own; it saves, and the
answer comes, is lost or is an error; it asks for a release and commits it, and others may act in
between. Any block may be stored beside, and others write to the target. -/
inductive Step (h : Home) (i : ι) : Act → Fleet ι → Fleet ι → Prop where
  | restoreFound (s : Fleet ι) (contract : Bytes) (version schema : UInt16) (m : Manifest)
    (world : World)
    (hr : (restore h.names contract version schema).run s.world = .ok (.found m) world) :
    Step h i .restore s { s.set i (some ⟨m, m.epoch, begunBefore h s.events, none⟩) with
      world := world, events := .restored i m.epoch :: s.events }
  | restoreFresh (s : Fleet ι) (contract : Label) (version schema : UInt16) (epoch : UInt64)
    (state : Cid) (world : World)
    (hr : (restore h.names contract.bytes version schema).run s.world = .ok (.fresh epoch) world) :
    Step h i .restore s { s.set i (some ⟨.new contract version schema state, epoch, [], none⟩) with
      world := world, events := .restored i epoch :: s.events }
  | crash (s : Fleet ι) : Step h i .crash s (s.set i none)
  | begin (s : Fleet ι) (l : Instance) (hl : s.live i = some l) (what : Label) (key : Key)
    (id : UInt64) (m : Manifest) (hr : l.manifest.beginKeyed what.bytes key = .ok (id, m)) :
    Step h i .begin s (s.set i (some { l with
      manifest := m, begun := ⟨id, what, .pending, key⟩ :: l.begun }))
  | settle (s : Fleet ι) (l : Instance) (hl : s.live i = some l) (id : UInt64)
    (outcome : Outcome) : Step h i .settle s
      (s.set i (some { l with manifest := (l.manifest.settle id outcome).2 }))
  | reconcile (s : Fleet ι) (l : Instance) (hl : s.live i = some l) (turns : List Turn)
    (m : Manifest) (seen : List (Effect × Except Error Told)) (settled : Nat) (t : Scripted)
    (hr : (reconcile l.manifest).run ⟨s.target, turns⟩ = .ok (m, seen, settled) t) :
    Step h i .reconcile s { s.set i (some { l with manifest := m }) with target := t.registry }
  | work (s : Fleet ι) (l : Instance) (hl : s.live i = some l) (m : Manifest)
    (he : m.effects = l.manifest.effects) :
    Step h i .work s (s.set i (some { l with manifest := m }))
  | rewrite (s : Fleet ι) (l : Instance) (hl : s.live i = some l) (m : Manifest) :
    Step h i .rewrite s (s.set i (some { l with manifest := m }))
  | save (s : Fleet ι) (l : Instance) (hl : s.live i = some l) (version : UInt64) (world : World)
    (hr : (save h.names l.manifest l.from_).run s.world = .ok version world) :
    Step h i .save s { s.set i (some { l with
        manifest := l.manifest.stamped l.from_, from_ := version }) with
      world := world, events := .saved i (l.manifest.stamped l.from_) l.begun :: s.events }
  | saveLost (s : Fleet ι) (l : Instance) (hl : s.live i = some l) (version : UInt64) (world : World)
    (hr : (save h.names l.manifest l.from_).run s.world = .ok version world) :
    Step h i .save s { s.set i (some { l with manifest := l.manifest.stamped l.from_ }) with
      world := world, events := .saved i (l.manifest.stamped l.from_) l.begun :: s.events }
  | saveFails (s : Fleet ι) (l : Instance) (hl : s.live i = some l) (e : Error) (world : World)
    (hr : (save h.names l.manifest l.from_).run s.world = .error e world) :
    Step h i .save s { s.set i (some { l with manifest := l.manifest.stamped l.from_ }) with
      world := world }
  | askRelease (s : Fleet ι) (l : Instance) (hl : s.live i = some l) (r : Release) (world : World)
    (hr : (askRelease h.names l.from_).run s.world = .ok r world) :
    Step h i .release s { s.set i (some { l with asked := some r }) with world := world }
  | commitRelease (s : Fleet ι) (l : Instance) (hl : s.live i = some l) (r : Release)
    (ha : l.asked = some r) (version : UInt64) (world : World)
    (hr : (commitRelease h.names r).run s.world = .ok version world) :
    Step h i .release s { s.set i (some { l with asked := none }) with
      world := world, events := .released i r :: s.events }
  | releaseFails (s : Fleet ι) (l : Instance) (hl : s.live i = some l) (r : Release)
    (ha : l.asked = some r) (e : Error) (world : World)
    (hr : (commitRelease h.names r).run s.world = .error e world) :
    Step h i .release s { s.set i (some { l with asked := none }) with world := world }
  | put (s : Fleet ι) (data : Bytes) :
    Step h i .others s { s with world := { s.world with blocks := s.world.blocks ++ [data] } }
  | write (s : Fleet ι) (ws : List (Bytes × Option Cid)) :
    Step h i .others s { s with target := s.target.writes ws }

/-- The store before any instance ran, with the checkpoint moved in if there is one. -/
def origin (h : Home) : World where
  blocks := (first h).block.toList
  names n :=
    if n = h.names.manifest then (if h.imported.isSome then 1 else 0, (roots (first h)).1)
    else if n = h.names.state then (if h.imported.isSome then 1 else 0, (roots (first h)).2)
    else (0, none)

def init (h : Home) : Fleet ι := ⟨origin h, ⟨fun _ => ⟨[], by decide⟩, []⟩, fun _ => none, []⟩

/-- The states of runs whose every step is one `ok` holds for in the state before it. -/
def Reaches (h : Home) (ok : ι → Act → Fleet ι → Prop) (s : Fleet ι) : Prop :=
  Relation.ReflTransGen (fun s s' => ∃ i a, Step h i a s s' ∧ ok i a s) (init h) s

def Anyhow (_ : ι) (_ : Act) (_ : Fleet ι) : Prop := True

end Steps

structure Shows (h : Home) (w : World) (es : List (Event ι)) : Prop where
  small : version h es < 2 ^ 64
  manifest : w.names h.names.manifest = (UInt64.ofNat (version h es), (roots (last h es)).1)
  state : w.names h.names.state = (UInt64.ofNat (version h es), (roots (last h es)).2)
  block : ∀ b ∈ (last h es).block, b ∈ w.blocks

/-- A release asked for names the checkpoint it would follow. -/
def Follows (h : Home) (es : List (Event ι)) (r : Release) : Prop :=
  r.epoch.toNat ≤ version h es ∧ (r.epoch.toNat = version h es → ∃ m begun,
    last h es = .checkpoint m begun ∧ r.manifest = Cid.of .raw m.encode ∧ r.state = m.state)

structure Chain (h : Home) (es : List (Event ι)) : Prop where
  /-- A save is one version past the checkpoint just before it, which its instance restored or
  saved, and no release is before it. -/
  saved : ∀ i m begun before, .saved i m begun :: before <:+ es →
    m.epoch.toNat = version h before + 1 ∧
    (∃ epoch, epoch.toNat = version h before ∧ Knows before i epoch) ∧
    (last h before).released = false
  /-- A release names the checkpoint just before it. -/
  released : ∀ i r before, .released i r :: before <:+ es →
    r.epoch.toNat = version h before ∧ ∃ m begun, last h before = .checkpoint m begun ∧
      r.manifest = Cid.of .raw m.encode ∧ r.state = m.state

structure Inv (h : Home) (s : Fleet ι) : Prop where
  shows : Shows h s.world s.events
  known : ∀ i epoch, Knows s.events i epoch → Past h s.events epoch
  live : ∀ i, ∀ l ∈ s.live i, Knows s.events i l.from_ ∧ ∀ r ∈ l.asked, Follows h s.events r
  chain : Chain h s.events

variable {expected from_ v : UInt64} {m : Manifest}

section Requests
variable {h : Home} {w w' : World}

theorem askRelease_ok {names : MindCore.Checkpoint.Names} {r : Release}
    (hr : (askRelease names from_).run w = .ok r w') : w' = w ∧ r.epoch = from_ ∧
      w.names names.manifest = (from_, some r.manifest) ∧ w.names names.state = (from_, some r.state) ∧
      r.manifest ≠ r.state := by
  rw [askRelease, bind_ok (snapshot_run _ w)] at hr
  rcases hm : w.names names.manifest with ⟨mv, manifest⟩
  rcases hs : w.names names.state with ⟨sv, state⟩
  simp only [hm, hs] at hr
  obtain ⟨⟨rfl, rfl⟩, h₁⟩ := ensure_bind_ok.mp hr
  rcases manifest with _ | manifest <;> rcases state with _ | state
  · cases h₁
  · cases h₁
  · cases h₁
  · obtain ⟨hne, h₂⟩ := ensure_bind_ok.mp h₁
    obtain ⟨rfl, rfl⟩ := pure_ok.mp h₂
    exact ⟨rfl, rfl, rfl, rfl, hne⟩

end Requests

section Events
variable {h : Home} {es : List (Event ι)} {w : World} {e : Event ι} {r : Release} {i : ι} {w' : World}

theorem Shows.mono (hs : Shows h w es) (hn : w'.names = w.names)
    (hb : w.blocks ⊆ w'.blocks) : Shows h w' es :=
  ⟨hs.small, hn ▸ hs.manifest, hn ▸ hs.state, fun b hb' => hb (hs.block b hb')⟩

theorem Shows.restored (hs : Shows h w es) (i : ι) (epoch : UInt64) : Shows h w (.restored i epoch :: es) :=
  ⟨hs.small, hs.manifest, hs.state, hs.block⟩

theorem Shows.version_eq (hs : Shows h w es) : (w.names h.names.manifest).1.toNat = version h es := by
  rw [hs.manifest, UInt64.toNat_ofNat']
  exact Nat.mod_eq_of_lt hs.small

theorem Chain.restored (hc : Chain h es) (i : ι) (epoch : UInt64) : Chain h (.restored i epoch :: es) := by
  refine ⟨?_, ?_⟩
  · intro j m begun before hsuf
    rcases suffix_cons_iff.mp hsuf with heq | hsuf
    · cases heq
    · exact hc.saved j m begun before hsuf
  · intro j r before hsuf
    rcases suffix_cons_iff.mp hsuf with heq | hsuf
    · cases heq
    · exact hc.released j r before hsuf

theorem Shows.landed (hs : Shows h w es)
    (cids : Cid × Cid) {blocks : List Bytes} (hat : (w.names h.names.manifest).1 = expected)
    (hlt : expected.toNat + 1 < 2 ^ 64) (hv : version h (e :: es) = version h es + 1)
    (hroots : roots (last h (e :: es)) = (some cids.1, some cids.2))
    (hblock : ∀ b ∈ (last h (e :: es)).block, b ∈ blocks) :
    Shows h ⟨blocks, fun n =>
      if n = h.names.manifest then (expected + 1, some cids.1)
      else if n = h.names.state then (expected + 1, some cids.2) else w.names n⟩ (e :: es) := by
  have hexp : expected.toNat = version h es := by rw [← hat, hs.version_eq]
  have hnext : UInt64.ofNat (version h (e :: es)) = expected + 1 := by
    rw [hv, ← hexp, UInt64.ofNat_add, UInt64.ofNat_toNat]
    rfl
  refine ⟨?_, ?_, ?_, hblock⟩
  · rw [hv, ← hexp]
    exact hlt
  · rw [hnext, hroots]
    exact if_pos rfl
  · rw [hnext, hroots]
    change (if h.names.state = h.names.manifest then _ else _) = _
    rw [if_neg h.own.symm, if_pos rfl]

theorem Follows.landed (hf : Follows h es r)
    (hv : version h (e :: es) = version h es + 1) : Follows h (e :: es) r := by
  have := hf.1
  exact ⟨by omega, fun heq => by omega⟩

theorem Chain.saved_cons (hc : Chain h es) {begun : List Effect} (hm : m.epoch.toNat = version h es + 1)
    (he : epoch.toNat = version h es) (hk : Knows es i epoch)
    (hnot : (last h es).released = false) : Chain h (.saved i m begun :: es) := by
  refine ⟨?_, ?_⟩
  · intro j m' begun' before hsuf
    rcases suffix_cons_iff.mp hsuf with heq | hsuf
    · cases heq
      exact ⟨hm, ⟨epoch, he, hk⟩, hnot⟩
    · exact hc.saved j m' begun' before hsuf
  · intro j r before hsuf
    rcases suffix_cons_iff.mp hsuf with heq | hsuf
    · cases heq
    · exact hc.released j r before hsuf

theorem Chain.released_cons (hc : Chain h es)
    (hr : r.epoch.toNat = version h es) (hf : Follows h es r) : Chain h (.released i r :: es) := by
  refine ⟨?_, ?_⟩
  · intro j m begun before hsuf
    rcases suffix_cons_iff.mp hsuf with heq | hsuf
    · cases heq
    · exact hc.saved j m begun before hsuf
  · intro j r' before hsuf
    rcases suffix_cons_iff.mp hsuf with heq | hsuf
    · cases heq
      exact ⟨hr, hf.2 hr⟩
    · exact hc.released j r' before hsuf

theorem Inv.current {s : Fleet ι} (hi : Inv h s) {l : Instance} (hlive : s.live i = some l)
    (hat : (s.world.names h.names.manifest).1 = l.from_) :
    l.from_.toNat = version h s.events ∧ (last h s.events).released = false := by
  have hv : l.from_.toNat = version h s.events := by rw [← hat, hi.shows.version_eq]
  have hpast := hi.known i l.from_ (hi.live i l hlive).1
  refine ⟨hv, Bool.eq_false_iff.mpr fun hrel => ?_⟩
  have := hpast.2 hrel
  omega

theorem Shows.block_eq (hs : Shows h w es) (hd : Distinct w.blocks)
    {root : Cid} {data : Bytes} (hn : w.names h.names.manifest = (v, some root))
    (hdata : data ∈ w.blocks) (hm : root.Matches data) : (last h es).block = some data := by
  have hroot : (roots (last h es)).1 = some root := (Prod.mk.inj (hs.manifest.symm.trans hn)).2
  have hblock := hs.block
  cases hk : last h es with
  | nothing =>
    rw [hk] at hroot
    cases hroot
  | checkpoint | release =>
    rw [hk] at hroot hblock
    cases hroot
    exact congrArg some (hd (hblock _ rfl) hdata hm.symm)

/-- What a restore finds is the checkpoint last put under the names. -/
structure Gives (h : Home) (w : World) (es : List (Event ι)) (m : Manifest) : Prop where
  version : m.epoch.toNat = Fleet.version h es
  saved : ∃ m₀ begun, last h es = .checkpoint m₀ begun ∧ m = { m₀ with epoch := m.epoch }
  state : w.names h.names.state = (m.epoch, some m.state)

theorem Shows.gives (hs : Shows h w es) (hd : Distinct w.blocks)
    (hf : Found h.names w m) : Gives h w es m := by
  obtain ⟨root, state, data, m₀, hm, hst, hdata, hmatch, hdec, heq⟩ := hf
  have hblock := hs.block_eq hd hm hdata hmatch
  have hstate := hs.state
  have hver : m.epoch.toNat = version h es := by rw [← hs.version_eq, hm]
  cases hk : last h es with
  | nothing =>
    rw [hk] at hblock
    cases hblock
  | checkpoint m₁ begun =>
    rw [hk] at hblock hstate
    cases hblock
    have hm₀ := Manifest.eq_of_decode_encode hdec
    subst hm₀
    refine ⟨hver, ⟨m₀, begun, hk, heq⟩, ?_⟩
    have hsome : some state = some m₀.state := (Prod.mk.inj (hst.symm.trans hstate)).2
    rw [hst, hsome, heq]
  | release r =>
    rw [hk] at hblock
    cases hblock
    exact absurd hdec (r.not_manifest m₀)

theorem Shows.fresh (hs : Shows h w es) (hn : w.names h.names.manifest = (epoch, none)) :
    epoch.toNat = version h es ∧ last h es = .nothing := by
  have hroot := (Prod.mk.inj (hs.manifest.symm.trans hn)).2
  refine ⟨by rw [← hs.version_eq, hn], ?_⟩
  cases hk : last h es with
  | nothing => rfl
  | checkpoint | release =>
    rw [hk] at hroot
    cases hroot

theorem Shows.follows (hs : Shows h w es)
    (hr : (askRelease h.names from_).run w = .ok r w') : w' = w ∧ Follows h es r := by
  obtain ⟨hw, hepoch, hm, hst, hne⟩ := askRelease_ok hr
  have hver : r.epoch.toNat = version h es := by rw [← hs.version_eq, hm, hepoch]
  have hroot := (Prod.mk.inj (hs.manifest.symm.trans hm)).2
  have hroot' := (Prod.mk.inj (hs.state.symm.trans hst)).2
  refine ⟨hw, Nat.le_of_eq hver, fun _ => ?_⟩
  cases hk : last h es with
  | nothing =>
    rw [hk] at hroot
    cases hroot
  | checkpoint m begun =>
    rw [hk] at hroot hroot'
    exact ⟨m, begun, rfl, (Option.some.inj hroot).symm, (Option.some.inj hroot').symm⟩
  | release r' =>
    rw [hk] at hroot hroot'
    exact absurd ((Option.some.inj hroot).symm.trans (Option.some.inj hroot')) hne

theorem Chain.tail (hc : Chain h (e :: es)) : Chain h es :=
  ⟨fun i m begun before hs => hc.saved i m begun before (hs.trans (suffix_cons e es)),
    fun i r before hs => hc.released i r before (hs.trans (suffix_cons e es))⟩

theorem Chain.last_eq (hc : Chain h es) (hr : .released i r ∈ es) : last h es = .release r := by
  induction es with
  | nil => exact absurd hr not_mem_nil
  | cons e es ih =>
    rcases mem_cons.mp hr with rfl | hr
    · rfl
    · have hlast := ih hc.tail hr
      cases e with
      | restored j epoch => exact hlast
      | saved j m begun =>
        have hnot := (hc.saved j m begun es (suffix_refl _)).2.2
        rw [hlast] at hnot
        cases hnot
      | released j r' =>
        obtain ⟨_, m, begun, hcp, _⟩ := hc.released j r' es (suffix_refl _)
        rw [hlast] at hcp
        cases hcp

theorem init_inv (h : Home) : Inv h (init h : Fleet ι) := by
  have hv : version h (init h : Fleet ι).events = if h.imported.isSome then 1 else 0 := rfl
  refine ⟨⟨?_, ?_, ?_, ?_⟩, ?_, nofun, ⟨?_, ?_⟩⟩
  · rw [hv]
    split <;> decide
  · change (if h.names.manifest = h.names.manifest then _ else _) = _
    rw [if_pos rfl, hv]
    split <;> rfl
  · change (if h.names.state = h.names.manifest then _ else _) = _
    rw [if_neg h.own.symm, if_pos rfl, hv]
    split <;> rfl
  · intro b hb
    exact Option.mem_toList.mpr hb
  · rintro i epoch (hmem | ⟨_, _, hmem, _⟩)
    · exact absurd hmem not_mem_nil
    · exact absurd hmem not_mem_nil
  · intro i m begun before hs
    cases suffix_nil.mp hs
  · intro i r before hs
    cases suffix_nil.mp hs

end Events

section Invariant
variable [DecidableEq ι] {h : Home} {s s' : Fleet ι} {i : ι} {w : World} {l l' : Instance}

variable {g : Registry} {a : Act}

section
variable (hi : Inv h s)
include hi

theorem Inv.of_live {l' : Option Instance} (hn : w.names = s.world.names) (hb : s.world.blocks ⊆ w.blocks)
    (hl : ∀ l ∈ l', Knows s.events i l.from_ ∧ ∀ r ∈ l.asked, Follows h s.events r) :
    Inv h { s.set i l' with world := w, target := g } :=
  ⟨hi.shows.mono hn hb, hi.known, live_set hi.live hl, hi.chain⟩

theorem Inv.of_change
    (hlive : s.live i = some l) (hn : w.names = s.world.names) (hb : s.world.blocks ⊆ w.blocks)
    (hfrom : l'.from_ = l.from_) (hasked : ∀ r ∈ l'.asked, r ∈ l.asked) :
    Inv h { s.set i (some l') with world := w, target := g } := by
  refine hi.of_live hn hb ?_
  intro k hk
  cases hk
  have hold := hi.live i l hlive
  exact ⟨hfrom ▸ hold.1, fun r hr => hold.2 r (hasked r hr)⟩

theorem Inv.of_restore (hv : l.from_.toNat = version h s.events)
    (hnot : (last h s.events).released = false) (ha : l.asked = none) :
    Inv h { s.set i (some l) with events := .restored i l.from_ :: s.events } := by
  have hlive : ∀ j, ∀ k ∈ s.live j, Knows (.restored i l.from_ :: s.events) j k.from_ ∧
      ∀ r ∈ k.asked, Follows h s.events r := fun j k hk =>
    ⟨(hi.live j k hk).1.cons _, (hi.live j k hk).2⟩
  refine ⟨hi.shows.restored i _, ?_, live_set hlive ?_, hi.chain.restored i _⟩
  · rintro j epoch (hmem | ⟨m, begun, hmem, he⟩)
    · rcases mem_cons.mp hmem with heq | hmem
      · cases heq
        refine ⟨Nat.le_of_eq hv, ?_⟩
        intro hrel
        change (last h s.events).released = true at hrel
        rw [hnot] at hrel
        cases hrel
      · exact hi.known j epoch (.inl hmem)
    · rcases mem_cons.mp hmem with heq | hmem
      · cases heq
      · exact hi.known j epoch (.inr ⟨m, begun, hmem, he⟩)
  · intro k hk
    cases hk
    refine ⟨.inl mem_cons_self, ?_⟩
    intro r hr
    rw [ha] at hr
    cases hr

theorem Inv.of_landed {e : Event ι}
    (hlive : s.live i = some l) (hv : version h (e :: s.events) = version h s.events + 1)
    (hshows : Shows h w (e :: s.events)) (hchain : Chain h (e :: s.events))
    (hknown : ∀ j epoch, Knows (e :: s.events) j epoch → Knows s.events j epoch ∨
      epoch.toNat = version h s.events + 1 ∧ (last h (e :: s.events)).released = false)
    (hfrom : Knows (e :: s.events) i l'.from_) (hasked : ∀ r ∈ l'.asked, r ∈ l.asked) :
    Inv h { s.set i (some l') with world := w, events := e :: s.events } := by
  have hold : ∀ j, ∀ k ∈ s.live j, Knows (e :: s.events) j k.from_ ∧
      ∀ r ∈ k.asked, Follows h (e :: s.events) r := fun j k hk =>
    ⟨(hi.live j k hk).1.cons e, fun r hr => ((hi.live j k hk).2 r hr).landed hv⟩
  refine ⟨hshows, ?_, live_set hold ?_, hchain⟩
  · intro j epoch hk
    rcases hknown j epoch hk with hk | ⟨heq, hnot⟩
    · exact (hi.known j epoch hk).landed hv
    · refine ⟨by rw [hv, heq], fun hrel => ?_⟩
      rw [hnot] at hrel
      cases hrel
  · intro k hk
    cases hk
    exact ⟨hfrom, fun r hr => (hold i l hlive).2 r (hasked r hr)⟩

theorem saved_inv (hlive : s.live i = some l) (hr : (save h.names l.manifest l.from_).run s.world = .ok v w)
    (hfrom : l'.from_ = v ∨ l'.from_ = l.from_) (hasked : l'.asked = l.asked) :
    Inv h { s.set i (some l') with
      world := w, events := .saved i (l.manifest.stamped l.from_) l.begun :: s.events } := by
  have hl := save_ok hr
  obtain ⟨hv, hnot⟩ := hi.current hlive hl.was.1
  have hw : w = ⟨w.blocks, w.names⟩ := rfl
  have hepoch : (l.manifest.stamped l.from_).epoch.toNat = version h s.events + 1 := by
    rw [stamped_epoch hl.next, hv]
  have hshows : Shows h w (.saved i (l.manifest.stamped l.from_) l.begun :: s.events) := by
    rw [hw, hl.names]
    refine hi.shows.landed (_, _) hl.was.1 hl.next rfl rfl ?_
    rintro b ⟨⟩
    rw [hl.blocks]
    exact mem_append_right _ mem_cons_self
  have hknows := (hi.live i l hlive).1
  refine hi.of_landed hlive rfl hshows (hi.chain.saved_cons hepoch hv hknows hnot) ?_ ?_ ?_
  · rintro j epoch (hmem | ⟨m, begun, hmem, he⟩)
    · rcases mem_cons.mp hmem with heq | hmem
      · cases heq
      · exact .inl (.inl hmem)
    · rcases mem_cons.mp hmem with heq | hmem
      · cases heq
        exact .inr ⟨he ▸ hepoch, rfl⟩
      · exact .inl (.inr ⟨m, begun, hmem, he⟩)
  · rcases hfrom with heq | heq
    · rw [heq, hl.version]
      exact .inr ⟨_, _, mem_cons_self, rfl⟩
    · rw [heq]
      exact hknows.cons _
  · rw [hasked]
    exact fun _ hr' => hr'

theorem released_inv {r : Release} (hlive : s.live i = some l) (ha : l.asked = some r)
    (hr : (commitRelease h.names r).run s.world = .ok v w) :
    Inv h { s.set i (some { l with asked := none }) with
      world := w, events := .released i r :: s.events } := by
  obtain ⟨hwas, _, hlt, rfl⟩ := commit_ok hr
  have hf := (hi.live i l hlive).2 r ha
  have hepoch : r.epoch.toNat = version h s.events := by
    rw [← hi.shows.version_eq]
    exact congrArg UInt64.toNat hwas.1.symm
  refine hi.of_landed hlive rfl ?_ (hi.chain.released_cons hepoch hf) ?_ ((hi.live i l hlive).1.cons _) ?_
  · refine hi.shows.landed (_, _) hwas.1 hlt rfl rfl ?_
    rintro b ⟨⟩
    exact mem_append_right _ mem_cons_self
  · rintro j epoch (hmem | ⟨m, begun, hmem, he⟩)
    · rcases mem_cons.mp hmem with heq | hmem
      · cases heq
      · exact .inl (.inl hmem)
    · rcases mem_cons.mp hmem with heq | hmem
      · cases heq
      · exact .inl (.inr ⟨m, begun, hmem, he⟩)
  · nofun

theorem step_inv (hd : Distinct s.world.blocks) (hs : Step h i a s s') : Inv h s' := by
  cases hs with
  | restoreFound _ contract version schema m world hr =>
    obtain ⟨rfl, hf⟩ := restore_ok hr
    obtain ⟨hv, ⟨m₀, begun, hlast, _⟩, _⟩ := hi.shows.gives hd hf
    exact hi.of_restore hv (Kept.not_released (.inr ⟨m₀, begun, hlast⟩)) rfl
  | restoreFresh _ contract version schema epoch state world hr =>
    obtain ⟨rfl, hf⟩ := restore_ok hr
    obtain ⟨hv, hlast⟩ := hi.shows.fresh hf
    exact hi.of_restore hv (Kept.not_released (.inl hlast)) rfl
  | crash _ => exact hi.of_live rfl (List.Subset.refl _) nofun
  | begin _ l hl what key id m hr =>
    exact hi.of_change hl rfl (List.Subset.refl _) rfl fun _ h => h
  | settle _ l hl id outcome => exact hi.of_change hl rfl (List.Subset.refl _) rfl fun _ h => h
  | reconcile _ l hl turns m seen settled t hr =>
    exact hi.of_change hl rfl (List.Subset.refl _) rfl fun _ h => h
  | work _ l hl m he => exact hi.of_change hl rfl (List.Subset.refl _) rfl fun _ h => h
  | rewrite _ l hl m => exact hi.of_change hl rfl (List.Subset.refl _) rfl fun _ h => h
  | save _ l hl version world hr => exact saved_inv hi hl hr (.inl rfl) rfl
  | saveLost _ l hl version world hr => exact saved_inv hi hl hr (.inr rfl) rfl
  | saveFails _ l hl e world hr =>
    have hw := save_error hr
    subst hw
    exact hi.of_change hl rfl (subset_append_left _ _) rfl fun _ h => h
  | askRelease _ l hl r world hr =>
    obtain ⟨rfl, hf⟩ := hi.shows.follows hr
    refine hi.of_live rfl (List.Subset.refl _) ?_
    intro k hk
    cases hk
    refine ⟨(hi.live i l hl).1, ?_⟩
    rintro r' ⟨⟩
    exact hf
  | commitRelease _ l hl r ha version world hr => exact released_inv hi hl ha hr
  | releaseFails _ l hl r ha e world hr =>
    have hw := commit_error hr
    subst hw
    exact hi.of_change hl rfl (subset_append_left _ _) rfl nofun
  | put _ data => exact ⟨hi.shows.mono rfl (subset_append_left _ _), hi.known, hi.live, hi.chain⟩
  | write _ ws => exact ⟨hi.shows, hi.known, hi.live, hi.chain⟩

end

theorem step_blocks (hs : Step h i a s s') : s.world.blocks ⊆ s'.world.blocks := by
  cases hs with
  | restoreFound _ _ _ _ _ _ hr | restoreFresh _ _ _ _ _ _ _ hr =>
    obtain ⟨rfl, _⟩ := restore_ok hr
    exact List.Subset.refl _
  | crash | begin | settle | reconcile | work | rewrite => exact List.Subset.refl _
  | save _ _ _ _ world hr | saveLost _ _ _ _ world hr =>
    have hblocks : world.blocks = _ := (save_ok hr).blocks
    exact hblocks ▸ subset_append_left _ _
  | saveFails _ l hl e world hr =>
    have hw := save_error hr
    subst hw
    exact subset_append_left _ _
  | askRelease _ l hl r world hr =>
    obtain ⟨rfl, _⟩ := askRelease_ok hr
    exact List.Subset.refl _
  | commitRelease _ l hl r ha version world hr =>
    obtain ⟨_, _, _, rfl⟩ := commit_ok hr
    exact subset_append_left _ _
  | releaseFails _ l hl r ha e world hr =>
    have hw := commit_error hr
    subst hw
    exact subset_append_left _ _
  | put _ data => exact subset_append_left _ _
  | write _ ws => exact List.Subset.refl _

theorem reaches_inv {ok : ι → Act → Fleet ι → Prop} (hr : Reaches h ok s)
    (hd : Distinct s.world.blocks) : Inv h s := by
  induction hr with
  | refl => exact init_inv h
  | tail _ hstep ih =>
    obtain ⟨i, a, hs, _⟩ := hstep
    have hd' := hd.mono (step_blocks hs)
    exact step_inv (ih hd') hd' hs

end Invariant

structure Fenced (h : Home) (s : Fleet ι) : Prop where
  /-- The saves form one chain, each by an instance that restored or saved the one before it. -/
  chain : Chain h s.events
  /-- Every other save is refused. -/
  refused : ∀ i, ∀ l ∈ s.live i, ∀ m, l.from_.toNat ≠ version h s.events →
    ∃ w, (save h.names m l.from_).run s.world = .error .fenced w
  /-- A manifest and a state that are restored were saved together. -/
  together : ∀ contract v schema m w,
    (restore h.names contract v schema).run s.world = .ok (.found m) w → Gives h w s.events m
  /-- After a release nothing is restored and no save lands, and `released` gives the release. -/
  closed : ∀ i r, .released i r ∈ s.events →
    (∀ contract v schema found w, (restore h.names contract v schema).run s.world ≠ .ok found w) ∧
    (∀ j, ∀ l ∈ s.live j, ∀ m v w, (save h.names m l.from_).run s.world ≠ .ok v w) ∧
    ∃ w, (h.names.released).run s.world = .ok r w

section Closed
variable {h : Home} {s : Fleet ι} {w : World}

theorem save_refused (hne : (w.names h.names.manifest).1 ≠ from_) :
    ∃ w', (save h.names m from_).run w = .error .fenced w' := by
  change ∃ w', (ensure _ Error.fenced >>= fun _ => _ : Proc Error World UInt64).run
    { w with blocks := _ } = _
  rw [ensure_neg fun hand => hne hand.1]
  exact ⟨_, rfl⟩

theorem released_run {r : Release} (hd : Distinct w.blocks)
    (hm : w.names h.names.manifest = (v, some (Cid.of .raw r.encode)))
    (hs : w.names h.names.state = (v, some (Cid.of .raw r.encode))) (hb : r.encode ∈ w.blocks) :
    (h.names.released).run w = .ok r w := by
  have hget : (Store.get (Cid.of .raw r.encode) max).run w = .ok r.encode w := by
    refine get_run ?_ r.length_encode
    cases hf : w.blocks.find? fun b => (Cid.of .raw r.encode).Matches b with
    | none =>
      have := find?_eq_none.mp hf _ hb
      simp at this
    | some b =>
      have hmatch : (Cid.of .raw r.encode).Matches b := by simpa using find?_some hf
      exact congrArg some (hd (mem_of_find?_eq_some hf) hb hmatch)
  rw [Names.released, bind_ok (snapshot_run _ w)]
  simp only [hm, hs]
  rw [ensure_pos ⟨trivial, trivial⟩, pure_bind, bind_ok hget, Release.decode_encode]
  rfl

end Closed

/-- In every run of any number of instances, each of which saves from the epoch it restored or
last saved. -/
theorem saves_form_one_chain [DecidableEq ι] (h : Home) (s : Fleet ι) (hr : Reaches h Anyhow s)
    (hd : Distinct s.world.blocks) : Fenced h s := by
  have hi := reaches_inv hr hd
  refine ⟨hi.chain, ?_, ?_, ?_⟩
  · intro i l hl m hne
    refine save_refused fun heq => hne ?_
    rw [← heq, hi.shows.version_eq]
  · intro contract v schema m w hres
    obtain ⟨rfl, hf⟩ := restore_ok hres
    exact hi.shows.gives hd hf
  · intro i r hmem
    have hlast := hi.chain.last_eq hmem
    have hrel : (last h s.events).released = true := by rw [hlast]; rfl
    refine ⟨?_, ?_, ?_⟩
    · intro contract v schema found w hres
      obtain ⟨rfl, hf⟩ := restore_ok hres
      cases found with
      | fresh epoch =>
        have hnone := (hi.shows.fresh hf).2
        rw [hlast] at hnone
        cases hnone
      | found m =>
        obtain ⟨_, ⟨m₀, begun, hcp, _⟩, _⟩ := hi.shows.gives hd hf
        rw [hlast] at hcp
        cases hcp
    · intro j l hl m v w hsave
      have hcur := hi.current hl (save_ok hsave).was.1
      rw [hrel] at hcur
      cases hcur.2
    · have hm := hi.shows.manifest
      have hst := hi.shows.state
      have hb := hi.shows.block
      rw [hlast] at hm hst hb
      exact ⟨_, released_run hd hm hst (hb _ rfl)⟩

end System

section Lone

def lone : Home where
  component := [0x61]
  names := ⟨checkpointDir ++ [0x61], checkpointDir ++ [0x61] ++ stateLeaf⟩
  named := by decide
  imported := none

/-- An instance saves its first checkpoint and releases it; another one runs beside. -/
theorem chain_ends_with_a_release : letI := Dag.lengthDigest
    ∃ s : Fleet Bool, Reaches lone Anyhow s ∧ Distinct s.world.blocks ∧
      (∃ r, .released false r ∈ s.events) ∧ Fenced lone s := by
  let := Dag.lengthDigest
  let m := (Manifest.new short 1 1 default).stamped 0
  let r : Release := ⟨1, Cid.of .raw m.encode, default⟩
  have hother : Reaches lone Anyhow _ := Relation.ReflTransGen.refl.tail
    ⟨true, .restore, .restoreFresh (init lone) short 1 1 0 default _ rfl, trivial⟩
  have hfresh := hother.tail
    ⟨false, .restore, .restoreFresh _ short 1 1 0 default _ rfl, trivial⟩
  have hsaved := hfresh.tail ⟨false, .save, .save _ _ rfl 1 _ rfl, trivial⟩
  have hasked := hsaved.tail ⟨false, .release, .askRelease _ _ rfl r _ rfl, trivial⟩
  have hend := hasked.tail ⟨false, .release, .commitRelease _ _ rfl _ rfl 2 _ rfl, trivial⟩
  have hdist : Distinct [m.encode, r.encode] := distinct_of_forall (by decide)
  exact ⟨_, hend, hdist, ⟨_, mem_cons_self⟩, saves_form_one_chain lone _ hend hdist⟩

end Lone

end Fleet

end MindCore.Checkpoint
