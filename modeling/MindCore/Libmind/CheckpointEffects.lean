import MindCore.Libmind.Checkpoint

/-!
# The effects of a component

A manifest keeps the external effects its component began and what became of each. An effect's id
is one past the highest in the table, and a full table lets go of the first effect that is not
pending. A publication is an effect its target can tell of: the target is asked, and a publication
that was not done is done now by its own compare-and-swap.
-/

namespace MindCore.Checkpoint

open List

namespace Manifest

def topId : List Effect → UInt64
  | [] => 0
  | e :: es => if e.id < topId es then topId es else e.id

def roomFor (effects : UpTo effectsMax Effect) : Except Error (UpTo effectsMax Effect) :=
  if effects.val.length = effectsMax then do
    let keep ← orError (effects.val.findIdx? fun e => e.outcome ≠ .pending) .invalid
    .ok (effects.erase keep)
  else .ok effects

/-- Records an effect about to begin, as pending, and returns its id, a `u64` that wraps. -/
def beginKeyed (m : Manifest) (what : Bytes) (key : Key) : Except Error (UInt64 × Manifest) := do
  let what ← orError (Label.new what) .invalid
  let effects ← roomFor m.effects
  let id := topId effects.val + 1
  if h : effects.val.length < effectsMax then
    .ok (id, { m with effects := effects.push ⟨id, what, .pending, key⟩ h })
  else .error .invalid

def begin (m : Manifest) (what : Bytes) : Except Error (UInt64 × Manifest) := m.beginKeyed what .none

def settle (m : Manifest) (id : UInt64) (outcome : Outcome) : Bool × Manifest :=
  match m.effects.val.findIdx? fun e => e.id = id with
  | some k =>
    match m.effects.val[k]? with
    | some e => (true, { m with effects := m.effects.set k { e with outcome := outcome } })
    | none => (false, m)
  | none => (false, m)

variable {effects : List Effect} {kept : UpTo effectsMax Effect} {id : UInt64} {m m' : Manifest}

theorem le_topId {e : Effect} (h : e ∈ effects) : e.id ≤ topId effects := by
  induction effects with
  | nil => exact absurd h not_mem_nil
  | cons d ds ih =>
    rw [topId]
    rcases mem_cons.mp h with rfl | h
    · split
      · exact UInt64.le_of_lt ‹_›
      · exact UInt64.le_refl _
    · split
      · exact ih h
      · exact UInt64.le_trans (ih h) (UInt64.not_lt.mp ‹_›)

theorem topId_mem (h : effects ≠ []) : ∃ e ∈ effects, e.id = topId effects := by
  induction effects with
  | nil => exact absurd rfl h
  | cons d ds ih =>
    rw [topId]
    split
    · rename_i hlt
      have hne : ds ≠ [] := by
        rintro rfl
        exact absurd hlt UInt64.not_lt_zero
      obtain ⟨e, he, heq⟩ := ih hne
      exact ⟨e, mem_cons_of_mem d he, heq⟩
    · exact ⟨d, mem_cons_self, rfl⟩

/-- What the next effect begun does not run out of: an id past the highest there is, and, when the
table is full, an effect with the highest id beside the one let go of. -/
structure Spare (m : Manifest) : Prop where
  above : (topId m.effects.val).toNat + 1 < 2 ^ 64
  stays : m.effects.val.length = effectsMax →
    ∀ k, m.effects.val.findIdx? (fun e => e.outcome ≠ .pending) = some k →
      ∃ e ∈ m.effects.val.eraseIdx k, e.id = topId m.effects.val

theorem orError_eq_ok {α : Type} {o : Option α} {e : Error} {a : α}
    (h : (orError o e : Except Error α) = .ok a) : o = some a := by
  cases o with
  | none => exact nomatch h
  | some b =>
    cases h
    rfl

theorem roomFor_ok {effects : UpTo effectsMax Effect} (h : roomFor effects = .ok kept) :
    kept = effects ∨ effects.val.length = effectsMax ∧
      ∃ k, effects.val.findIdx? (fun e => e.outcome ≠ .pending) = some k ∧ kept = effects.erase k := by
  rw [roomFor] at h
  split at h
  · rename_i hfull
    cases hk : effects.val.findIdx? fun e => e.outcome ≠ .pending with
    | none =>
      rw [hk] at h
      exact nomatch h
    | some k =>
      rw [hk] at h
      cases h
      exact .inr ⟨hfull, k, rfl, rfl⟩
  · cases h
    exact .inl rfl

/-- What an effect begun leaves: those kept of the table, and the new one after them. -/
structure Begun (m : Manifest) (what : Bytes) (key : Key) (id : UInt64) (m' : Manifest) : Prop where
  begun : ∃ (kept : UpTo effectsMax Effect) (label : Label), Label.new what = some label ∧
    roomFor m.effects = .ok kept ∧ id = topId kept.val + 1 ∧
    m'.effects.val = kept.val ++ [⟨id, label, .pending, key⟩]

theorem beginKeyed_ok {what : Bytes} {key : Key}
    (h : m.beginKeyed what key = .ok (id, m')) : m.Begun what key id m' := by
  obtain ⟨label, hlabel, h₁⟩ := ok_of_bind h
  obtain ⟨kept, hkept, h₂⟩ := ok_of_bind h₁
  split at h₂
  · cases h₂
    exact ⟨kept, label, orError_eq_ok hlabel, hkept, rfl, rfl⟩
  · exact nomatch h₂

theorem roomFor_sublist {effects : UpTo effectsMax Effect} (h : roomFor effects = .ok kept) :
    kept.val.Sublist effects.val := by
  obtain rfl | ⟨_, k, _, rfl⟩ := roomFor_ok h
  · exact List.Sublist.refl _
  · exact eraseIdx_sublist _ k

theorem topId_of_mem {kept : List Effect} (hsub : ∀ e ∈ kept, e ∈ effects)
    (h : ∃ e ∈ kept, e.id = topId effects) : topId kept = topId effects := by
  obtain ⟨e, he, heq⟩ := h
  have hne : kept ≠ [] := ne_nil_of_mem he
  obtain ⟨d, hd, hd'⟩ := topId_mem hne
  refine UInt64.le_antisymm ?_ ?_
  · rw [← hd']
    exact le_topId (hsub d hd)
  · rw [← heq]
    exact le_topId he

theorem Spare.topId_eq (h : m.Spare)
    (hk : roomFor m.effects = .ok kept) : topId kept.val = topId m.effects.val := by
  obtain rfl | ⟨hfull, k, hfind, rfl⟩ := roomFor_ok hk
  · rfl
  · exact topId_of_mem (fun _ he => mem_of_mem_eraseIdx he) (h.stays hfull k hfind)

theorem settle_ok {outcome : Outcome}
    (h : m.settle id outcome = (true, m')) : ∃ k e, m.effects.val[k]? = some e ∧ e.id = id ∧
      m'.effects.val = m.effects.val.set k { e with outcome := outcome } := by
  rw [settle] at h
  cases hk : m.effects.val.findIdx? fun e => e.id = id with
  | none =>
    rw [hk] at h
    cases h
  | some k =>
    obtain ⟨hlt, hid, _⟩ := findIdx?_eq_some_iff_getElem.mp hk
    rw [hk] at h
    dsimp only at h
    rw [getElem?_eq_getElem hlt] at h
    cases h
    exact ⟨k, _, getElem?_eq_getElem hlt, by simpa using hid, rfl⟩

theorem settle_false {outcome : Outcome} (h : m.settle id outcome = (false, m')) : m' = m := by
  rw [settle] at h
  split at h
  · split at h <;> cases h
    rfl
  · cases h
    rfl

end Manifest

/-- A publication's target: a name's current version, a version it keeps, and the
compare-and-swap. -/
class Target (T : Type) where
  head : Bytes → Proc Error T (UInt64 × Option Cid)
  version : Bytes → UInt64 → Proc Error T (Option (Option Cid))
  publish : Bytes → UInt64 → Cid → Proc Error T (Option UInt64)

inductive Told where
  | done
  | notDone
  | now
  | failed
  | unknown
deriving DecidableEq

def Told.outcome : Told → Outcome
  | .done => .done
  | .now => .done
  | .failed => .failed
  | .notDone => .pending
  | .unknown => .pending

section Reconcile
variable {T : Type} [Target T]

namespace Publication

def toldBy (p : Publication) : Option (Option Cid) → Told
  | some r => if r = some p.root then .done else .failed
  | none => .unknown

def tell (p : Publication) : Proc Error T Told := do
  let (now, root) ← Target.head p.name
  if now = p.from_ then return .notDone
  else if now < p.from_ then return .unknown
  else if now = p.from_ + 1 then return p.toldBy (some root)
  else do
    let at_ ← Target.version p.name (p.from_ + 1)
    return p.toldBy at_

/-- Done now by its compare-and-swap; refused, the target is asked again. -/
def apply (p : Publication) : Proc Error T Told := do
  match ← Target.publish p.name p.from_ p.root with
  | some _ => return .now
  | none => p.tell

def ask (p : Publication) : Proc Error T Told := do
  let told ← p.tell
  if told = .notDone then p.apply else return told

end Publication

/-- What an answer of the target settles: its error settles nothing. -/
def settledBy : Except Error Told → Outcome
  | .ok told => told.outcome
  | .error _ => .pending

def Effect.settled (e : Effect) (outcome : Outcome) : Effect :=
  if outcome = .pending then e else { e with outcome := outcome }

def Effect.asks (e : Effect) : Option Publication :=
  match e.outcome, e.key with
  | .pending, .publication p => some p
  | _, _ => none

/-- The loop of `reconcile`: the effects as it leaves them, each effect asked with its answer, and
how many it settled. -/
def reconcileEach : List Effect → Proc Error T (List Effect × List (Effect × Except Error Told) × Nat)
  | [] => return ([], [], 0)
  | e :: es =>
    match e.asks with
    | none => do
      let (es, seen, settled) ← reconcileEach es
      return (e :: es, seen, settled)
    | some p => do
      let told ← p.ask.attempt
      let outcome := settledBy told
      let (es, seen, settled) ← reconcileEach es
      return (e.settled outcome :: es, (e.settled outcome, told) :: seen,
        if outcome = .pending then settled else settled + 1)

def reconcile (m : Manifest) : Proc Error T (Manifest × List (Effect × Except Error Told) × Nat) := do
  let (effects, seen, settled) ← reconcileEach m.effects.val
  return ({ m with effects := .ofList _ effects }, seen, settled)

end Reconcile

end MindCore.Checkpoint
