import MindCore.Libmind.Costs

/-!
# A root authenticates what is read under it

The readers of objects, trees and journals over stores that answer as they like.
-/

namespace MindCore

open Dag (BlockSource)
open Proc

namespace Watched

variable {ι B ε : Type}

def weight (a b : ℤ) (s : Watched ι B) : ℤ := a * s.calls + b * s.seen.length

theorem asked_costs (a b : ℤ) (x : Proc ε B Bytes) : Costs (weight a b : Watched ι B → ℤ) a a (asked x) where
  value s data t h := by
    obtain ⟨c, rfl⟩ := asked_ok h
    simp only [weight]
    push_cast
    linarith
  error s e t h := by
    obtain ⟨c, rfl⟩ := asked_error h
    simp only [weight]
    push_cast
    linarith

theorem lift_costs {α : Type} (a b : ℤ) (x : Proc ε B α) :
    Costs (weight a b : Watched ι B → ℤ) 0 0 (lift x) where
  value s r t h := by
    obtain ⟨c, _, rfl⟩ := lift_ok h
    simp only [weight]
    linarith
  error s e t h := by
    obtain ⟨c, rfl⟩ := lift_error h
    simp only [weight]
    linarith

theorem heard_costs (a b : ℤ) (i : ι) (x : Proc ε B PUnit) : Costs (weight a b) b b (heard i x) where
  value s u t h := by
    obtain ⟨c, rfl⟩ := heard_ok h
    simp only [weight, List.length_append, List.length_singleton]
    push_cast
    linarith
  error s e t h := by
    obtain ⟨c, rfl⟩ := heard_error h
    simp only [weight, List.length_append, List.length_singleton]
    push_cast
    linarith

@[simp] theorem weight_new (a b : ℤ) (s : B) : weight a b (new s : Watched ι B) = 0 := by
  simp [weight, new]

end Watched

namespace Counted

variable {B α : Type}

def measure (Ψ : B → ℤ) (k : ℤ) (s : Counted B) : ℤ := Ψ s.blocks + k * s.left

theorem lift_costs {Ψ : B → ℤ} {c d : ℤ} (k : ℤ) {x : Proc Dag.Error B α} (h : Costs Ψ c d x) :
    Costs (measure Ψ k) c d (lift x) where
  value s a t hr := by
    obtain ⟨b, hb, rfl⟩ := lift_ok hr
    have := h.value hb
    simp only [measure]
    linarith
  error s e t hr := by
    obtain ⟨b, hb, rfl⟩ := lift_error hr
    have := h.error hb
    simp only [measure]
    linarith

theorem lift_left (x : Proc Dag.Error B α) : Costs (fun s : Counted B => (s.left : ℤ)) 0 0 (lift x) where
  value s a t hr := by
    obtain ⟨b, _, rfl⟩ := lift_ok hr
    simp
  error s e t hr := by
    obtain ⟨b, _, rfl⟩ := lift_error hr
    simp

theorem step_left :
    Costs (fun s : Counted B => (s.left : ℤ)) (-1) 0 (step : Proc Dag.Error (Counted B) PUnit) where
  value s a t hr := by
    obtain ⟨hpos, rfl⟩ := step_ok hr
    simp only
    omega
  error s e t hr := by
    rw [step_error hr]
    omega

theorem step_costs (Ψ : B → ℤ) (k : ℤ) :
    Costs (measure Ψ k) (-k) 0 (step : Proc Dag.Error (Counted B) PUnit) where
  value s a t hr := by
    obtain ⟨hpos, rfl⟩ := step_ok hr
    have hleft : ((s.left - 1 : Nat) : ℤ) = s.left - 1 := by omega
    simp only [measure, hleft]
    linarith
  error s e t hr := by
    rw [step_error hr]
    linarith

end Counted

namespace Dag

variable [Sha256] {σ : Type} [BlockSource σ] {Φ : σ → ℤ} {f : ℤ} {cid : Cid}

theorem fetch_costs (hg : Costs Φ f f (BlockSource.get cid chunk)) : Costs Φ f f (fetch cid) :=
  .bind hg fun _ _ => .bind (.ensure _ _ le_rfl (by linarith)) fun _ _ => .pure _ (by linarith)

end Dag

namespace Tree

open Dag (Error levels)

theorem stepped_costs {B : Type} {Ψ : B → ℤ} {w : ℤ} (k : ℤ) {visit : Cid → Proc Error B PUnit}
    (hv : ∀ cid, Costs Ψ w w (visit cid)) (hk : w ≤ k) (cid : Cid) :
    Costs (Counted.measure Ψ k) (w - k) 0 (stepped visit cid) := by
  refine .bind (Counted.step_costs Ψ k) fun _ _ => ?_
  exact (Counted.lift_costs k (hv cid)).mono (by linarith) (by linarith)

variable [Sha256] {B : Type} [BlockSource B]

theorem tour_costs {Ψ : B → ℤ} {f w k : ℤ} (hg : ∀ cid len, Costs Ψ f f (BlockSource.get cid len))
    (h0 : 0 ≤ f) {visit : Cid → Proc Error B PUnit} (hv : ∀ cid, Costs Ψ w w (visit cid))
    (hk : f + f ≤ k) (hw : f + w ≤ k) (whole : Bool) (root : Cid) :
    Costs (Counted.measure Ψ k) (f + f) (f + f + (levels * f + f)) (tour whole root visit) := by
  have hl : 0 ≤ (levels : ℤ) * f := by positivity
  have hf (cid : Cid) : Costs (Counted.measure Ψ k) f f (Dag.fetch cid) :=
    Dag.fetch_costs (Counted.lift_costs k (hg cid _))
  have hs := stepped_costs k hv (by linarith)
  refine .bind ((entries_costs hf h0 root).mono le_rfl (by linarith)) fun count _ => ?_
  cases count with
  | none =>
    have := file_costs hf h0 hs (by linarith) (by linarith) whole root
    exact this.mono (by linarith) (by linarith)
  | some count =>
    refine .bind ((hs root).mono le_rfl (by linarith)) fun _ _ => ?_
    refine .of_get fun s => ?_
    have down := tourFrom_costs hf h0 (Counted.step_costs Ψ k) (by linarith) hs
      (by linarith) (by linarith) whole (2 * s.left + 3) [(root, count, 0)] 0
    rw [List.length_singleton, Nat.cast_one, one_mul] at down
    exact down.mono (by linarith) (by linarith)

theorem Bounded.tour_checked (whole : Bool) (root : Cid) (visit : Cid → Proc Error B PUnit)
    (s : Counted B) : Checked s (Bounded.tour whole root visit) (Tree.tour whole root visit) := by
  refine .bind (Bounded.entries_checked root) fun count t _ => ?_
  cases count with
  | none => exact Bounded.file_checked whole _ root
  | some count =>
    refine .bind (.refl _) fun _ t' _ => .of_get ?_
    refine Bounded.tourFrom_checked (fun cid => ?_) (fun cid => ?_) whole _ _ _ ?_ ?_ ?_
    · exact Dag.fetch_costs (Counted.lift_left _)
    · refine .bind (Counted.step_left.mono le_rfl le_rfl) fun _ _ => ?_
      exact (Counted.lift_left _).mono (by decide) (by decide)
    · simp [depth]
    · simp
    · simp

end Tree

namespace Journal

namespace Bounded

variable [Sha256] {J : Type} [Store J]

def entry (cid : Cid) : Proc (Stop Error) J Entry := do
  let data ← mapError .fail (Store.get cid Dag.chunk)
  ensure (data.length ≤ Dag.chunk) .answer
  ensure (cid.Matches data) (.fail .corrupt)
  ensure (cid.codec = .dagCbor) (.fail .format)
  mapError .fail (Proc.ofExcept (schema data))

def downFrom (each : Entry → Cid → J → J) (most : Nat) :
    Nat → Checked → Cid → Option Time → Proc (Stop Refused) J Checked
  | 0, done, _, _ => do
    ensure (¬done.entries < most) .trap
    return done
  | left + 1, done, cid, after =>
    if done.entries < most then do
      ensure (done.entries ≤ done.version) .trap
      let at_ := done.version - done.entries
      let refused (error : Error) : Refused := ⟨error, done.version, at_, done.entries⟩
      let e ← mapError (Stop.map refused) (entry cid)
      ensure (e.seq = at_) (.fail (refused (.sequence e.seq)))
      ensure (∀ t ∈ after, ¬e.time.past t) (.fail (refused .time))
      modify (each e cid)
      let done : Checked := { done with entries := done.entries + 1, first := e.seq }
      match e.prev with
      | none => return done
      | some prev => downFrom each most left done prev (some e.time)
    else return done

def down (name : Bytes) (most : Nat) (each : Entry → Cid → J → J) : Proc (Stop Refused) J Checked := do
  let (version, root) ← mapError .fail
    (mapError (fun error => (⟨error, 0, 0, 0⟩ : Refused)) (Store.head name))
  match root with
  | none => throw (.fail ⟨if version = 0 then .notFound else .removed version, version, version, 0⟩)
  | some cid => downFrom each most most ⟨version, 0, (version + 1) % 2 ^ 64, version⟩ cid none

def checkEach (name : Bytes) (steps : Nat) (each : Entry → Cid → J → J) : Proc (Stop Refused) J Checked := do
  let done ← down name steps each
  ensure (done.first = 1) (.fail ⟨.tooLarge, done.version, (done.first + 2 ^ 64 - 1) % 2 ^ 64, done.entries⟩)
  return done

theorem entry_checked {s : J} (cid : Cid) : Proc.Checked s (entry cid) (Journal.entry cid) :=
  .request fun _ _ _ => .bind (.ensure _ _) fun _ _ _ => .bind (.ensure _ _) fun _ _ _ => .refl _

end Bounded

section Checks
variable [Sha256] {J : Type} [Store J]

theorem entry_prev {s t : J} {e : Entry}
    (h : (entry cid).run s = .ok e t) : 1 ≤ e.seq ∧ (e.prev.isSome ↔ 1 < e.seq) := by
  obtain ⟨data, _, _, _, hd⟩ := entry_ok h
  have hv := (decode_sound hd).2.1
  simp only [Entry.valid, Bool.and_eq_true, decide_eq_true_eq, beq_iff_eq] at hv
  refine ⟨hv.1.1.1, ?_⟩
  rw [hv.1.1.2, decide_eq_true_eq]

theorem Bounded.downFrom_checked (each : Entry → Cid → J → J) {most left : Nat} {done : Checked} {after : Option Time} {s : J} (hmost : most = done.entries + left)
    (hat : done.entries = 0 ∨ done.entries < done.version) :
    Proc.Checked s (Bounded.downFrom each most left done cid after)
      (Journal.downFrom each left done cid after) := by
  induction left generalizing s done cid after with
  | zero => exact .bound (by omega) (.pure _)
  | succ left ih =>
    unfold Bounded.downFrom
    rw [if_pos (by omega)]
    refine .bound (by omega) (.bind (.mapError _ (Bounded.entry_checked cid)) fun e s₁ h₁ => ?_)
    obtain ⟨hpos, hprev⟩ := entry_prev (mapError_ok h₁)
    refine .bind (.ensure _ _) fun _ s₂ h₂ => .bind (.ensure _ _) fun _ s₃ h₃ => ?_
    have hseq := (ensure_run_ok h₂).1
    refine .bind (.inr rfl) fun _ s₄ h₄ => ?_
    cases hp : e.prev with
    | none => exact .pure _
    | some prev =>
      have hlt := hprev.mp (by rw [hp]; rfl)
      refine ih ?_ (.inr ?_)
      · simp only
        omega
      · simp only
        omega

theorem Bounded.checkEach_checked (name : Bytes) (steps : Nat) (each : Entry → Cid → J → J) (s : J) :
    Proc.Checked s (Bounded.checkEach name steps each) (Journal.checkEach name steps each) := by
  refine .bind (.bind (.refl _) fun head t _ => ?_) fun _ _ _ => .bind (.ensure _ _) fun _ _ _ =>
    .pure _
  rcases head with ⟨version, _ | cid⟩
  · exact .throw _
  · exact Bounded.downFrom_checked each (Nat.zero_add _).symm (.inl rfl)

theorem entry_costs {Φ : J → ℤ} {f : ℤ}
    (hg : Costs Φ f f (Store.get cid Dag.chunk)) : Costs Φ f f (entry cid) :=
  .bind hg fun _ _ => .bind (.ensure _ _ le_rfl (by linarith)) fun _ _ =>
    .bind (.ensure _ _ le_rfl (by linarith)) fun _ _ => .ofExcept _ (by linarith) (by linarith)

omit [Sha256] [Store J] in
theorem hear_costs (a b : ℤ) (each : Entry → Cid → J → J) (e : Entry) (cid : Cid) :
    Costs (Watched.weight a b) b b (modify (hear each e cid) : Proc Refused _ PUnit) where
  value s u t h := by
    cases h
    simp only [Watched.weight, hear, Watched.noted, List.length_append, List.length_singleton]
    push_cast
    linarith
  error s e t h := nomatch h

theorem downFrom_costs (a b : ℤ) (ha : 0 ≤ a) (hb : 0 ≤ b)
    (each : Entry → Cid → J → J) (left : Nat) (done : Checked) (cid : Cid) (after : Option Time) :
    Costs (Watched.weight a b) (left * (a + b)) (left * (a + b))
      (downFrom (hear each) left done cid after) := by
  induction left generalizing done cid after with
  | zero => exact .pure _ (by simp)
  | succ left ih =>
    have hl : 0 ≤ (left : ℤ) * (a + b) := by positivity
    have hs : ((left + 1 : Nat) : ℤ) * (a + b) = left * (a + b) + (a + b) := by
      push_cast
      ring
    have one : Costs (Watched.weight a b) a a (entry cid : Proc Error (Watched (Entry × Cid) J) _) :=
      entry_costs (Watched.asked_costs a b _)
    refine .bind ((one.mapError _).mono le_rfl (by linarith)) fun e _ => ?_
    refine .bind (.ensure _ _ le_rfl (by linarith)) fun _ _ => ?_
    refine .bind (.ensure _ _ le_rfl (by linarith)) fun _ _ => ?_
    refine .bind ((hear_costs a b each e cid).mono le_rfl (by linarith)) fun _ _ => ?_
    cases e.prev with
    | none => exact .pure _ (by linarith)
    | some prev => exact (ih _ _ _).mono (by linarith) (by linarith)

end Checks

end Journal

section Main
variable [Sha256]

/-- Two runs of a reader, one over each store, that both end well end with one result and gave
the reader the same, if no two of the blocks they met have one digest. -/
def SameOver {ι B₁ B₂ ε α : Type} (x₁ : Proc ε (Watched ι B₁) α) (x₂ : Proc ε (Watched ι B₂) α)
    (b₁ : B₁) (b₂ : B₂) : Prop :=
  ∀ ⦃a₁ a₂ t₁ t₂⦄, x₁.run (.new b₁) = .ok a₁ t₁ → x₂.run (.new b₂) = .ok a₂ t₂ →
    Set.InjOn Sha256.digest {block | block ∈ t₁.met ∨ block ∈ t₂.met} →
    a₁ = a₂ ∧ t₁.seen = t₂.seen

def callsOf {ι B ε α : Type} (x : Proc ε (Watched ι B) α) (b : B) : Nat := (x.run (.new b)).state.calls

def seenOf {ι B ε α : Type} (x : Proc ε (Watched ι B) α) (b : B) : List ι := (x.run (.new b)).state.seen

variable {B₁ B₂ J₁ J₂ : Type} [BlockSource B₁] [BlockSource B₂] [Journal.Store J₁]
  [Journal.Store J₂]

/-- What is read under one root over two block stores, and of one name over two journals' stores
that answer with one head. -/
structure ReadAlike (b₁ : B₁) (b₂ : B₂) (j₁ : J₁) (j₂ : J₂) : Prop where
  size (root : Cid) : SameOver (Dag.size root : Proc _ (Watched Unit B₁) _) (Dag.size root) b₁ b₂
  readAt (root : Cid) (offset len : Nat) :
    SameOver (Dag.readAt root offset len : Proc _ (Watched Unit B₁) _) (Dag.readAt root offset len) b₁ b₂
  eachChunk (root : Cid) (each₁ : Nat → Bytes → Proc Dag.Error B₁ PUnit)
      (each₂ : Nat → Bytes → Proc Dag.Error B₂ PUnit) :
    SameOver (Dag.eachChunk root fun offset data => Watched.heard (offset, data) (each₁ offset data))
      (Dag.eachChunk root fun offset data => Watched.heard (offset, data) (each₂ offset data)) b₁ b₂
  walk (root : Cid) (steps : Nat) (visit₁ : Cid → Proc Dag.Error B₁ PUnit)
      (visit₂ : Cid → Proc Dag.Error B₂ PUnit) :
    SameOver (Tree.walk root steps fun cid => Watched.heard cid (visit₁ cid))
      (Tree.walk root steps fun cid => Watched.heard cid (visit₂ cid)) b₁ b₂
  check (name : Bytes) (steps : Nat) (each₁ : Journal.Entry → Cid → J₁ → J₁)
      (each₂ : Journal.Entry → Cid → J₂ → J₂) (head : Nat × Option Cid) (u₁ : J₁) (u₂ : J₂)
      (h₁ : (Journal.Store.head name).run j₁ = .ok head u₁)
      (h₂ : (Journal.Store.head name).run j₂ = .ok head u₂) :
    SameOver (Journal.checkEach name steps (Journal.hear each₁))
      (Journal.checkEach name steps (Journal.hear each₂)) j₁ j₂

/-- Whatever the store answers, every reader stays within its buffers and stacks, ends its loops,
and asks no more of the store than the length, the chunks given or the steps allow. -/
structure StaysWithin (b : B₁) (j : J₁) : Prop where
  size (root : Cid) : Checked b (Dag.Bounded.size root) (Dag.size root) ∧
    callsOf (Dag.size root : Proc _ (Watched Unit B₁) _) b ≤ 1
  readAt (root : Cid) (offset len : Nat) :
    Checked b (Dag.Bounded.readAt root offset len) (Dag.readAt root offset len) ∧
      callsOf (Dag.readAt root offset len : Proc _ (Watched Unit B₁) _) b ≤
        1 + len * (Dag.levels + 1)
  eachChunk (root : Cid) (each : Nat → Bytes → Proc Dag.Error B₁ PUnit) :
    Checked b (Dag.Bounded.eachChunk root each) (Dag.eachChunk root each) ∧
      let run : Proc _ (Watched (Nat × Bytes) B₁) _ :=
        Dag.eachChunk root fun offset data => Watched.heard (offset, data) (each offset data)
      callsOf run b ≤ (Dag.levels + 2) + (Dag.levels + 1) * (seenOf run b).length
  walk (root : Cid) (steps : Nat) (visit : Cid → Proc Dag.Error B₁ PUnit) :
    Checked (⟨b, steps⟩ : Counted B₁) (Tree.Bounded.tour true root visit)
        (Tree.walkFrom root visit) ∧
      let run : Proc _ (Watched Cid B₁) _ := Tree.walk root steps fun cid => Watched.heard cid (visit cid)
      (seenOf run b).length ≤ steps ∧ callsOf run b ≤ 2 * steps + (Dag.levels + 3)
  check (name : Bytes) (steps : Nat) (each : Journal.Entry → Cid → J₁ → J₁) :
    Checked j (Journal.Bounded.checkEach name steps each) (Journal.checkEach name steps each) ∧
      let run := Journal.checkEach name steps (Journal.hear each)
      (seenOf run j).length ≤ steps ∧ callsOf run j ≤ steps

omit [BlockSource B₁] [BlockSource B₂] in
theorem SameOver.of_agree {ι ε α : Type} {x₁ : Proc ε (Watched ι B₁) α}
    {x₂ : Proc ε (Watched ι B₂) α} (h : Agree watched x₁ x₂) (b₁ : B₁) (b₂ : B₂) :
    SameOver x₁ x₂ b₁ b₂ :=
  fun _ _ _ _ h₁ h₂ distinct => h.both h₁ h₂ rfl distinct

omit [BlockSource B₁] [BlockSource B₂] in
theorem SameOver.of_counted {ι α : Type} {x₁ : Proc Dag.Error (Counted (Watched ι B₁)) α}
    {x₂ : Proc Dag.Error (Counted (Watched ι B₂)) α} (h : Agree counted x₁ x₂) (steps : Nat)
    (b₁ : B₁) (b₂ : B₂) :
    SameOver (Counted.within steps x₁) (Counted.within steps x₂) b₁ b₂ := by
  intro a₁ a₂ t₁ t₂ h₁ h₂ distinct
  obtain ⟨left₁, h₁⟩ := Counted.within_ok h₁
  obtain ⟨left₂, h₂⟩ := Counted.within_ok h₂
  obtain ⟨ha, hseen, _⟩ := h.both h₁ h₂ ⟨rfl, rfl⟩ distinct
  exact ⟨ha, hseen⟩

theorem checkEach_alike {name : Bytes} {steps : Nat} {each₁ : Journal.Entry → Cid → J₁ → J₁}
    {each₂ : Journal.Entry → Cid → J₂ → J₂} {j₁ : J₁} {j₂ : J₂} {head : Nat × Option Cid} {u₁ : J₁}
    {u₂ : J₂} (h₁ : (Journal.Store.head name).run j₁ = .ok head u₁)
    (h₂ : (Journal.Store.head name).run j₂ = .ok head u₂) :
    SameOver (Journal.checkEach name steps (Journal.hear each₁))
      (Journal.checkEach name steps (Journal.hear each₂)) j₁ j₂ := by
  intro a₁ a₂ t₁ t₂ hr₁ hr₂ distinct
  obtain ⟨v₁, cid₁, m₁, hh₁, hd₁, _⟩ := Journal.checkEach_ok hr₁
  obtain ⟨v₂, cid₂, m₂, hh₂, hd₂, _⟩ := Journal.checkEach_ok hr₂
  obtain ⟨c₁, hc₁, rfl⟩ := Watched.lift_ok hh₁
  obtain ⟨c₂, hc₂, rfl⟩ := Watched.lift_ok hh₂
  cases h₁.symm.trans hc₁
  cases h₂.symm.trans hc₂
  exact (Journal.downFrom_agree each₁ each₂ steps _ _ none).both hd₁ hd₂ rfl distinct

theorem read_alike (b₁ : B₁) (b₂ : B₂) (j₁ : J₁) (j₂ : J₂) : ReadAlike b₁ b₂ j₁ j₂ where
  size root := .of_agree (Dag.size_agree Dag.fetch_watched root) b₁ b₂
  readAt root offset len := .of_agree (Dag.readAt_agree Dag.fetch_watched root offset len) b₁ b₂
  eachChunk root _ _ := .of_agree
    (Dag.eachChunk_agree Dag.fetch_watched (fun _ _ => Watched.heard_agree _ _ _) root) b₁ b₂
  walk root steps _ _ := .of_counted
    (Tree.tour_agree (fun _ => Watched.heard_agree _ _ _) true root) steps b₁ b₂
  check _ _ _ _ _ _ _ h₁ h₂ := checkEach_alike h₁ h₂

omit [Sha256] [BlockSource B₁] in
theorem weight_state {ι ε α : Type} {x : Proc ε (Watched ι B₁) α} {a b c d : ℤ}
    (h : Costs (Watched.weight a b) c d x) (hcd : c ≤ d) (b₁ : B₁) :
    a * callsOf x b₁ + b * (seenOf x b₁).length ≤ d := by
  have := h.state hcd (.new b₁)
  rw [Watched.weight_new, zero_add] at this
  exact this

omit [Sha256] [BlockSource B₁] in
theorem within_state {ι α : Type} {x : Proc Dag.Error (Counted (Watched ι B₁)) α} {a b k c d : ℤ}
    (h : Costs (Counted.measure (Watched.weight a b) k) c d x) (hcd : c ≤ d) (hk : 0 ≤ k)
    (steps : Nat) (b₁ : B₁) :
    a * callsOf (Counted.within steps x) b₁ + b * (seenOf (Counted.within steps x) b₁).length ≤
      k * steps + d := by
  have := h.state hcd ⟨.new b₁, steps⟩
  unfold Counted.measure at this
  rw [Watched.weight_new, zero_add] at this
  unfold callsOf seenOf
  rw [Counted.state_within]
  simp only [Watched.weight] at this
  have hleft : 0 ≤ k * ((x.run ⟨.new b₁, steps⟩).state.left : ℤ) := by positivity
  linarith

section Weights
variable {ι : Type} (a b : ℤ)

omit [Sha256] in
theorem get_costs (cid : Cid) (len : Nat) :
    Costs (Watched.weight a b) a a (BlockSource.get cid len : Proc _ (Watched ι B₁) Bytes) :=
  Watched.asked_costs a b _

theorem fetch_weight (cid : Cid) :
    Costs (Watched.weight a b) a a (Dag.fetch cid : Proc _ (Watched ι B₁) Bytes) :=
  Dag.fetch_costs (get_costs a b cid _)

end Weights

theorem eachChunk_calls (root : Cid) (each : Nat → Bytes → Proc Dag.Error B₁ PUnit) (b : B₁) :
    let run : Proc _ (Watched (Nat × Bytes) B₁) _ :=
      Dag.eachChunk root fun offset data => Watched.heard (offset, data) (each offset data)
    callsOf run b ≤ (Dag.levels + 2) + (Dag.levels + 1) * (seenOf run b).length := by
  intro run
  have heach (offset : Nat) (data : Bytes) :
      Costs (Watched.weight 1 (-(Dag.levels + 1))) (-(Dag.levels + 1)) 0
        (Watched.heard (offset, data) (each offset data)) :=
    (Watched.heard_costs _ _ _ _).mono le_rfl (by decide)
  have hrun : Costs (Watched.weight 1 (-(Dag.levels + 1))) 1 ((Dag.levels + 2) * 1) run :=
    Dag.eachChunk_costs (fetch_weight _ _) (by decide) heach (by simp) root
  have := weight_state hrun (by decide) b
  zify
  linarith

theorem walk_calls (root : Cid) (steps : Nat) (visit : Cid → Proc Dag.Error B₁ PUnit) (b : B₁) :
    let run : Proc _ (Watched Cid B₁) _ := Tree.walk root steps fun cid => Watched.heard cid (visit cid)
    (seenOf run b).length ≤ steps ∧ callsOf run b ≤ 2 * steps + (Dag.levels + 3) := by
  intro run
  constructor
  · have hseen := Tree.tour_costs (get_costs 0 1) le_rfl
      (fun cid => Watched.heard_costs 0 1 cid (visit cid)) (by decide) le_rfl true root
    have := within_state hseen (by decide) (by decide) steps b
    simp only [run, Tree.walk, Tree.walkFrom]
    zify
    linarith
  · have hcalls := Tree.tour_costs (get_costs 1 0) (by decide)
      (fun cid => Watched.heard_costs 1 0 cid (visit cid)) le_rfl (by decide) true root
    have := within_state hcalls (by decide) (by decide) steps b
    simp only [run, Tree.walk, Tree.walkFrom]
    zify
    linarith

theorem check_calls (name : Bytes) (steps : Nat) (each : Journal.Entry → Cid → J₁ → J₁) (j : J₁) :
    let run := Journal.checkEach name steps (Journal.hear each)
    (seenOf run j).length ≤ steps ∧ callsOf run j ≤ steps := by
  intro run
  have hrun (a b : ℤ) (ha : 0 ≤ a) (hb : 0 ≤ b) :
      Costs (Watched.weight a b) (steps * (a + b)) (steps * (a + b)) run := by
    have h0 : 0 ≤ (steps : ℤ) * (a + b) := by positivity
    have hdown : Costs (Watched.weight a b) (steps * (a + b)) (steps * (a + b))
        (Journal.down name steps (Journal.hear each)) := by
      refine .bind ((Watched.lift_costs a b _).mapError _ |>.mono le_rfl h0) fun head _ => ?_
      rcases head with ⟨version, _ | cid⟩
      · exact .throw _ (by linarith)
      · exact (Journal.downFrom_costs a b ha hb each steps _ cid none).mono (by linarith) (by linarith)
    refine .bind hdown fun done _ => .bind (.ensure _ _ le_rfl (by linarith)) fun _ _ => ?_
    exact .pure _ (by linarith)
  have hseen := weight_state (hrun 0 1 le_rfl (by decide)) le_rfl j
  have hcalls := weight_state (hrun 1 0 (by decide) le_rfl) le_rfl j
  constructor
  · zify
    linarith
  · zify
    linarith

theorem stays_within (b : B₁) (j : J₁) : StaysWithin b j where
  size root := by
    refine ⟨Dag.Bounded.size_checked root, ?_⟩
    have := weight_state (Dag.size_costs (fetch_weight (ι := Unit) 1 0) (by decide) root) le_rfl b
    zify
    linarith
  readAt root offset len := by
    refine ⟨Dag.Bounded.readAt_checked root offset len, ?_⟩
    have := weight_state
      (Dag.readAt_costs (fetch_weight (ι := Unit) 1 0) (by decide) root offset len) le_rfl b
    zify
    linarith
  eachChunk root each := ⟨Dag.Bounded.eachChunk_checked root each, eachChunk_calls root each b⟩
  walk root steps visit := ⟨Tree.Bounded.tour_checked true root visit _, walk_calls root steps visit b⟩
  check name steps each :=
    ⟨Journal.Bounded.checkEach_checked name steps each j, check_calls name steps each j⟩

/-- A root authenticates what is read under it: two readers who both end well over two stores,
whatever these answer, read the same, and no answer takes a reader out of its bounds. -/
theorem root_authenticates (b₁ : B₁) (b₂ : B₂) (j₁ : J₁) (j₂ : J₂) :
    ReadAlike b₁ b₂ j₁ j₂ ∧ StaysWithin b₁ j₁ :=
  ⟨read_alike b₁ b₂ j₁ j₂, stays_within b₁ j₁⟩

end Main

end MindCore
