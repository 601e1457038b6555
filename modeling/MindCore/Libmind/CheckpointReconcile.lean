import MindCore.Lib.Runs
import MindCore.Libmind.CheckpointEffects
import Mathlib.Data.List.Forall2

/-!
# A target that others write to

The target keeps every version a name had, in order. Between any two calls others may publish or
remove names, a version may be read or no longer kept, and a call may fail, a publication also
after it landed. What reconciling settles is then what the target's history says, and stays so,
since a history only grows.
-/

namespace MindCore.Checkpoint

open List Proc

/-- The versions a name had, the first first: a root, or that it was removed. Versions are `u64`. -/
abbrev History := {l : List (Option Cid) // l.length < 2 ^ 64}

namespace History

def version (h : History) : UInt64 := UInt64.ofNat h.val.length

def root (h : History) : Option Cid := (h.val.getLast?).join

def at_ (h : History) (version : UInt64) : Option (Option Cid) :=
  if version = 0 then none else h.val[version.toNat - 1]?

def add (h : History) (r : Option Cid) : History :=
  if hlt : h.val.length + 1 < 2 ^ 64 then ⟨h.val ++ [r], by simpa using hlt⟩ else h

theorem version_toNat (h : History) : h.version.toNat = h.val.length := by
  rw [version, UInt64.toNat_ofNat', Nat.mod_eq_of_lt h.2]

theorem add_grows (h : History) (r : Option Cid) : h.val <+: (h.add r).val := by
  rw [add]
  split
  · exact prefix_append _ _
  · exact prefix_refl _

variable {h : History} {v : UInt64}

theorem at_mono {h' : History} (hg : h.val <+: h'.val) {r : Option Cid}
    (hat : h.at_ v = some r) : h'.at_ v = some r := by
  obtain ⟨t, ht⟩ := hg
  rw [at_] at hat ⊢
  split at hat
  · exact nomatch hat
  · rename_i hne
    obtain ⟨hlt, _⟩ := List.getElem?_eq_some_iff.mp hat
    rw [if_neg hne, ← ht, getElem?_append_left hlt]
    exact hat

theorem at_version (hv : h.version = v) (hpos : 0 < v) : h.at_ v = some h.root := by
  have hlen : h.val.length = v.toNat := by rw [← hv, version_toNat]
  have hpos' : 0 < v.toNat := UInt64.lt_iff_toNat_lt.mp hpos
  have hne : v ≠ 0 := by
    rintro rfl
    exact absurd hpos' (by decide)
  rw [at_, if_neg hne, root, ← hlen, getLast?_eq_getElem?]
  have hlt : h.val.length - 1 < h.val.length := by omega
  rw [getElem?_eq_getElem hlt]
  rfl

end History

/-- The names of the target, and the publications that landed, the newest first. -/
structure Registry where
  names : Bytes → History
  landed : List (Bytes × UInt64 × Cid)

variable {g' : Registry} {r : Option (Option Cid)} {n : Nat}
    {seen : List (Effect × Except Error Told)}

namespace Registry

def write (g : Registry) (name : Bytes) (r : Option Cid) : Registry :=
  { g with names := fun n => if n = name then (g.names n).add r else g.names n }

def writes (g : Registry) (ws : List (Bytes × Option Cid)) : Registry :=
  ws.foldl (fun g w => g.write w.1 w.2) g

def Grows (g g' : Registry) : Prop := ∀ n, (g.names n).val <+: (g'.names n).val

theorem Grows.refl (g : Registry) : g.Grows g := fun _ => prefix_refl _

variable {g : Registry} {expected : UInt64} {name : Bytes}

theorem Grows.trans {g'' : Registry} (h : g.Grows g') (h' : g'.Grows g'') : g.Grows g'' :=
  fun n => (h n).trans (h' n)

theorem write_grows (g : Registry) (name : Bytes) (r : Option Cid) : g.Grows (g.write name r) := by
  intro n
  change _ <+: (if n = name then (g.names n).add r else g.names n).val
  split
  · exact (g.names n).add_grows r
  · exact prefix_refl _

theorem writes_grows (ws : List (Bytes × Option Cid)) (g : Registry) : g.Grows (g.writes ws) := by
  induction ws generalizing g with
  | nil => exact Grows.refl g
  | cons w ws ih => exact (g.write_grows w.1 w.2).trans (ih _)

theorem writes_landed (ws : List (Bytes × Option Cid)) (g : Registry) : (g.writes ws).landed = g.landed := by
  induction ws generalizing g with
  | nil => rfl
  | cons w ws ih => exact ih (g.write w.1 w.2)

def swap (g : Registry) (name : Bytes) (expected : UInt64) (root : Cid) : Registry :=
  { g.write name (some root) with landed := (name, expected, root) :: g.landed }

/-- What landed is where it landed, and no two publications landed from one version of a name. -/
structure Once (g : Registry) : Prop where
  there : ∀ l ∈ g.landed, l.2.1.toNat < (g.names l.1).val.length
  once : (g.landed.map fun l => (l.1, l.2.1)).Nodup

theorem Once.writes (h : g.Once) (ws : List (Bytes × Option Cid)) : (g.writes ws).Once := by
  refine ⟨?_, ?_⟩
  · intro l hl
    rw [writes_landed] at hl
    exact Nat.lt_of_lt_of_le (h.there l hl) (writes_grows ws g l.1).length_le
  · rw [writes_landed]
    exact h.once

variable {root : Cid}

theorem Once.swap (h : g.Once)
    (hat : (g.names name).version = expected) (hroom : expected.toNat + 1 < 2 ^ 64) :
    (g.swap name expected root).Once := by
  have hlen : (g.names name).val.length = expected.toNat := by rw [← hat, History.version_toNat]
  have hnew : ((g.names name).add (some root)).val.length = expected.toNat + 1 := by
    rw [History.add, dif_pos (by omega)]
    simp [hlen]
  refine ⟨?_, ?_⟩
  · intro l hl
    rcases mem_cons.mp hl with rfl | hl
    · change _ < (if name = name then (g.names name).add (some root) else g.names name).val.length
      rw [if_pos rfl, hnew]
      exact Nat.lt_succ_self _
    · exact Nat.lt_of_lt_of_le (h.there l hl) (g.write_grows name (some root) l.1).length_le
  · refine nodup_cons.mpr ⟨?_, h.once⟩
    intro hmem
    obtain ⟨l, hl, heq⟩ := mem_map.mp hmem
    obtain ⟨hn, hv⟩ := Prod.mk.inj heq
    have := h.there l hl
    rw [hn, hv, hlen] at this
    exact absurd this (Nat.lt_irrefl _)

theorem swap_at (hat : (g.names name).version = expected) (hroom : expected.toNat + 1 < 2 ^ 64) :
    ((g.swap name expected root).names name).at_ (expected + 1) = some (some root) := by
  have hlen : (g.names name).val.length = expected.toNat := by rw [← hat, History.version_toNat]
  have hnext : (expected + 1).toNat = expected.toNat + 1 := by
    exact Nat.mod_eq_of_lt hroom
  have hne : expected + 1 ≠ 0 := by
    intro h0
    rw [h0] at hnext
    exact absurd hnext (by simp)
  change (if name = name then (g.names name).add (some root) else g.names name).at_ _ = _
  rw [if_pos rfl, History.at_, if_neg hne, hnext, History.add, dif_pos (by omega)]
  simp [← hlen]

end Registry

/-- What happens at a call: what others wrote before it, whether it fails, a publication also
after it landed, and whether the version asked for is still kept. -/
structure Turn where
  before : List (Bytes × Option Cid)
  fails : Option Error
  late : Bool
  keeps : Bool

/-- The target and what happens at its next calls; after those nothing does. -/
structure Scripted where
  registry : Registry
  turns : List Turn

def Scripted.next : Proc Error Scripted Turn := do
  let t ← get
  let turn := t.turns.headD ⟨[], none, false, true⟩
  set (⟨t.registry.writes turn.before, t.turns.tail⟩ : Scripted)
  return turn

def Turn.fail (turn : Turn) : Proc Error Scripted PUnit :=
  match turn.fails with
  | some e => throw e
  | none => return ⟨⟩

def Turn.failEarly (turn : Turn) : Proc Error Scripted PUnit :=
  if turn.late then return ⟨⟩ else turn.fail

def Scripted.publishFrom (turn : Turn) (name : Bytes) (expected : UInt64) (root : Cid) :
    Proc Error Scripted (Option UInt64) := do
  let t ← get
  if (t.registry.names name).version = expected ∧ expected.toNat + 1 < 2 ^ 64 then do
    set { t with registry := t.registry.swap name expected root }
    turn.fail
    return some (expected + 1)
  else do
    turn.fail
    return none

instance : Target Scripted where
  head name := do
    let turn ← Scripted.next
    turn.fail
    let t ← get
    return ((t.registry.names name).version, (t.registry.names name).root)
  version name v := do
    let turn ← Scripted.next
    turn.fail
    let t ← get
    return if turn.keeps then (t.registry.names name).at_ v else none
  publish name expected root := do
    let turn ← Scripted.next
    turn.failEarly
    Scripted.publishFrom turn name expected root

namespace Scripted

structure After (t t' : Scripted) : Prop where
  grows : t.registry.Grows t'.registry
  once : t.registry.Once → t'.registry.Once

theorem After.refl (t : Scripted) : After t t := ⟨.refl _, id⟩

variable {t t' : Scripted} {expected v : UInt64} {name : Bytes}

theorem After.trans {t'' : Scripted} (h : After t t') (h' : After t' t'') : After t t'' :=
  ⟨h.grows.trans h'.grows, fun ho => h'.once (h.once ho)⟩

theorem next_after : Proc.Within After next := fun t =>
  ⟨t.registry.writes_grows _, fun h => h.writes _⟩

theorem fail_still (turn : Turn) : Proc.Still turn.fail := by
  intro t
  rw [Turn.fail]
  split <;> rfl

theorem fail_after (turn : Turn) : Proc.Within After turn.fail := .of_still After.refl (fail_still turn)

theorem pure_after {α : Type} (a : α) : Proc.Within After (pure a : Proc Error Scripted α) :=
  .of_still After.refl (.pure a)

theorem bind_after {α β : Type} {x : Proc Error Scripted α} {f : α → Proc Error Scripted β}
    (hx : Proc.Within After x) (hf : ∀ a, Proc.Within After (f a)) : Proc.Within After (x >>= f) :=
  .bind After.trans hx hf

theorem get_after : Proc.Within After (get : Proc Error Scripted Scripted) := .of_still After.refl .get

theorem head_after (name : Bytes) : Proc.Within After (Target.head name : Proc Error Scripted _) :=
  bind_after next_after fun turn =>
    bind_after (fail_after turn) fun _ => bind_after get_after fun _ => pure_after _

theorem version_after (name : Bytes) (v : UInt64) :
    Proc.Within After (Target.version name v : Proc Error Scripted _) :=
  bind_after next_after fun turn =>
    bind_after (fail_after turn) fun _ => bind_after get_after fun _ => pure_after _

theorem swap_after (h : (t.registry.names name).version = expected ∧ expected.toNat + 1 < 2 ^ 64) :
    After t { t with registry := t.registry.swap name expected root } :=
  ⟨t.registry.write_grows name (some root), fun ho => ho.swap h.1 h.2⟩

theorem publishFrom_after (turn : Turn) (name : Bytes) (expected : UInt64) (root : Cid) :
    Proc.Within After (publishFrom turn name expected root) := by
  intro t
  rw [publishFrom, get_bind]
  split
  · rename_i h
    exact (swap_after h).trans
      (bind_after (fail_after turn) (fun _ => pure_after _) _)
  · exact bind_after (fail_after turn) (fun _ => pure_after _) t

theorem publish_after (name : Bytes) (expected : UInt64) (root : Cid) :
    Proc.Within After (Target.publish name expected root : Proc Error Scripted _) := by
  refine bind_after next_after fun turn => ?_
  refine bind_after ?_ fun _ => publishFrom_after turn name expected root
  rw [Turn.failEarly]
  split
  · exact pure_after _
  · exact fail_after turn

theorem head_ok {r : UInt64 × Option Cid} (h : (Target.head name).run t = .ok r t') :
    r = ((t'.registry.names name).version, (t'.registry.names name).root) := by
  obtain ⟨turn, t₁, _, h₁⟩ := bind_eq_ok.mp h
  obtain ⟨_, t₂, hfail, h₂⟩ := bind_eq_ok.mp h₁
  obtain ⟨rfl, rfl⟩ := pure_ok.mp h₂
  rfl

theorem version_ok (h : (Target.version name v).run t = .ok r t') :
    r = none ∨ r = (t'.registry.names name).at_ v := by
  obtain ⟨turn, t₁, _, h₁⟩ := bind_eq_ok.mp h
  obtain ⟨_, t₂, hfail, h₂⟩ := bind_eq_ok.mp h₁
  obtain ⟨rfl, rfl⟩ := pure_ok.mp h₂
  split
  · exact .inr rfl
  · exact .inl rfl

theorem publish_ok (h : (Target.publish name expected root).run t = .ok (some v) t') :
    (t'.registry.names name).at_ (expected + 1) = some (some root) := by
  obtain ⟨turn, t₁, _, h₁⟩ := bind_eq_ok.mp h
  obtain ⟨_, t₂, _, h₂⟩ := bind_eq_ok.mp h₁
  rw [publishFrom, get_bind] at h₂
  split at h₂
  · rename_i hat
    rw [bind_ok (run_set _ t₂)] at h₂
    obtain ⟨_, t₃, hfail, h₃⟩ := bind_eq_ok.mp h₂
    have hsame := (fail_still turn).ok hfail
    obtain ⟨_, rfl⟩ := pure_ok.mp h₃
    rw [hsame]
    exact Registry.swap_at hat.1 hat.2
  · obtain ⟨_, t₃, _, h₃⟩ := bind_eq_ok.mp h₂
    obtain ⟨hv, _⟩ := pure_ok.mp h₃
    exact nomatch hv

end Scripted

/-- What an outcome says of a publication: the version after `from_` is its root, or is not. -/
def Outcome.Holds (p : Publication) (g : Registry) : Outcome → Prop
  | .done => (g.names p.name).at_ (p.from_ + 1) = some (some p.root)
  | .failed => ∃ r, (g.names p.name).at_ (p.from_ + 1) = some r ∧ r ≠ some p.root
  | .pending => True

variable {g : Registry}

theorem Outcome.Holds.mono {p : Publication} (hg : g.Grows g') {o : Outcome}
    (h : o.Holds p g) : o.Holds p g' := by
  cases o with
  | done => exact History.at_mono (hg p.name) h
  | failed =>
    obtain ⟨r, hr, hne⟩ := h
    exact ⟨r, History.at_mono (hg p.name) hr, hne⟩
  | pending => trivial

namespace Publication

open Scripted (After)

theorem toldBy_holds (p : Publication)
    (h : r = none ∨ r = (g.names p.name).at_ (p.from_ + 1)) : (p.toldBy r).outcome.Holds p g := by
  rcases r with _ | r
  · trivial
  · have hat : (g.names p.name).at_ (p.from_ + 1) = some r := by
      rcases h with h | h
      · exact nomatch h
      · exact h.symm
    rw [toldBy]
    split
    · rename_i heq
      rw [heq] at hat
      exact hat
    · rename_i hne
      exact ⟨r, hat, hne⟩

theorem tell_after (p : Publication) : Proc.Within After (p.tell : Proc Error Scripted Told) := by
  refine Scripted.bind_after (Scripted.head_after p.name) ?_
  rintro ⟨now, root⟩
  dsimp only
  split
  · exact Scripted.pure_after _
  split
  · exact Scripted.pure_after _
  split
  · exact Scripted.pure_after _
  · exact Scripted.bind_after (Scripted.version_after _ _) fun _ => Scripted.pure_after _

variable {t t' : Scripted} {told : Told}

section
variable (p : Publication)
include p

theorem tell_ok (h : p.tell.run t = .ok told t') : told.outcome.Holds p t'.registry := by
  obtain ⟨⟨now, root⟩, t₁, hhead, h₁⟩ := bind_eq_ok.mp h
  obtain ⟨hnow, hroot⟩ := Prod.mk.inj (Scripted.head_ok hhead)
  dsimp only at h₁
  split at h₁
  · obtain ⟨rfl, _⟩ := pure_ok.mp h₁
    trivial
  split at h₁
  · obtain ⟨rfl, _⟩ := pure_ok.mp h₁
    trivial
  rename_i hne hlt
  split at h₁
  · rename_i hnext
    obtain ⟨rfl, rfl⟩ := pure_ok.mp h₁
    refine p.toldBy_holds (.inr ?_)
    have hpos : 0 < p.from_ + 1 := by
      rw [← hnext]
      rcases UInt64.lt_or_eq_of_le (UInt64.not_lt.mp hlt) with hgt | heq
      · exact UInt64.lt_of_le_of_lt UInt64.zero_le hgt
      · exact absurd heq.symm hne
    rw [History.at_version (hnow.symm.trans hnext) hpos, hroot]
  · obtain ⟨r, t₂, hv, h₂⟩ := bind_eq_ok.mp h₁
    obtain ⟨rfl, rfl⟩ := pure_ok.mp h₂
    exact p.toldBy_holds (Scripted.version_ok hv)

theorem apply_after : Proc.Within After (p.apply : Proc Error Scripted Told) := by
  refine Scripted.bind_after (Scripted.publish_after _ _ _) ?_
  rintro (_ | v)
  · exact p.tell_after
  · exact Scripted.pure_after _

theorem apply_ok (h : p.apply.run t = .ok told t') : told.outcome.Holds p t'.registry := by
  obtain ⟨r, t₁, hpub, h₁⟩ := bind_eq_ok.mp h
  rcases r with _ | v
  · exact p.tell_ok h₁
  · obtain ⟨rfl, rfl⟩ := pure_ok.mp h₁
    exact Scripted.publish_ok hpub

theorem ask_after : Proc.Within After (p.ask : Proc Error Scripted Told) := by
  refine Scripted.bind_after p.tell_after fun told => ?_
  split
  · exact p.apply_after
  · exact Scripted.pure_after _

theorem ask_ok (h : p.ask.run t = .ok told t') : told.outcome.Holds p t'.registry := by
  obtain ⟨told₁, t₁, htell, h₁⟩ := bind_eq_ok.mp h
  split at h₁
  · exact p.apply_ok h₁
  · obtain ⟨rfl, rfl⟩ := pure_ok.mp h₁
    exact p.tell_ok htell

theorem asked_ok {told : Except Error Told}
    (h : p.ask.attempt.run t = .ok told t') : (settledBy told).Holds p t'.registry := by
  cases hr : (p.ask : Proc Error Scripted Told).run t with
  | ok a t₁ =>
    rw [attempt_ok hr] at h
    cases h
    exact p.ask_ok hr
  | error e t₁ =>
    rw [attempt_error hr] at h
    cases h
    trivial

end

end Publication

open Scripted (After)

/-- What reconciling may do to an effect: nothing, or to settle a pending publication as the
target's history has it. -/
inductive Reconciled (g : Registry) (e : Effect) : Effect → Prop where
  | kept : Reconciled g e e
  | settled (p : Publication) (o : Outcome) (hp : e.asks = some p) (hne : o ≠ .pending)
    (ho : o.Holds p g) : Reconciled g e { e with outcome := o }

theorem reconcileEach_after (es : List Effect) :
    Proc.Within After (reconcileEach es : Proc Error Scripted _) := by
  induction es with
  | nil => exact Scripted.pure_after _
  | cons e es ih =>
    rw [reconcileEach]
    cases e.asks with
    | none => exact Scripted.bind_after ih fun _ => Scripted.pure_after _
    | some p =>
      exact Scripted.bind_after p.ask_after.attempt fun _ =>
        Scripted.bind_after ih fun _ => Scripted.pure_after _

theorem reconcileEach_ok {es es' : List Effect}
    {t t' : Scripted} (h : (reconcileEach es).run t = .ok (es', seen, n) t') :
    List.Forall₂ (Reconciled t'.registry) es es' := by
  induction es generalizing es' seen n t with
  | nil =>
    obtain ⟨heq, _⟩ := pure_ok.mp h
    cases heq
    exact .nil
  | cons e es ih =>
    rw [reconcileEach] at h
    cases hp : e.asks with
    | none =>
      rw [hp] at h
      obtain ⟨⟨es₁, seen₁, n₁⟩, t₁, hrec, hpure⟩ := bind_eq_ok.mp h
      obtain ⟨heq, rfl⟩ := pure_ok.mp hpure
      cases heq
      exact .cons .kept (ih hrec)
    | some p =>
      rw [hp] at h
      obtain ⟨told, t₁, hask, h₁⟩ := bind_eq_ok.mp h
      obtain ⟨⟨es₁, seen₁, n₁⟩, t₂, hrec, hpure⟩ := bind_eq_ok.mp h₁
      obtain ⟨heq, rfl⟩ := pure_ok.mp hpure
      cases heq
      refine .cons ?_ (ih hrec)
      have hholds := (p.asked_ok hask).mono ((reconcileEach_after es).ok hrec).grows
      rw [Effect.settled]
      split
      · exact .kept
      · rename_i hne
        exact .settled p _ hp hne hholds

theorem reconcile_after (m : Manifest) : Proc.Within After (reconcile m : Proc Error Scripted _) :=
  Scripted.bind_after (reconcileEach_after m.effects.val) fun _ => Scripted.pure_after _

theorem reconcile_ok {m m' : Manifest} {t t' : Scripted} (h : (reconcile m).run t = .ok (m', seen, n) t') :
    List.Forall₂ (Reconciled t'.registry) m.effects.val m'.effects.val := by
  obtain ⟨⟨es, seen₁, n₁⟩, t₁, hrec, hpure⟩ := bind_eq_ok.mp h
  obtain ⟨heq, rfl⟩ := pure_ok.mp hpure
  cases heq
  have hall := reconcileEach_ok hrec
  have hlen : es.length ≤ effectsMax := hall.length_eq ▸ m.effects.2
  change List.Forall₂ _ _ (es.take effectsMax)
  rw [take_of_length_le hlen]
  exact hall

end MindCore.Checkpoint
