import MindCore.Lib.Proc
import Mathlib.Tactic.Linarith

/-!
# Rules about whole runs

Three judgements over programs, each with a rule for every way a program is put together.
`Agree` compares two runs over unrelated states that both end with a value. `Checked` says that
a program whose every index is checked meets none out of range. `Costs` bounds how far a run
moves a measure of its state.
-/

namespace MindCore

universe u

/-- What two runs are compared by: when their states are alike, what each has met so far, and
the key that is to tell apart what they met. -/
structure Pairing (σ₁ σ₂ : Type u) where
  {μ κ : Type}
  same : σ₁ → σ₂ → Prop
  met₁ : σ₁ → List μ
  met₂ : σ₂ → List μ
  key : μ → κ

namespace Pairing

variable {σ₁ σ₂ : Type u} (p : Pairing σ₁ σ₂)

def Distinct (t₁ : σ₁) (t₂ : σ₂) : Prop := Set.InjOn p.key {m | m ∈ p.met₁ t₁ ∨ m ∈ p.met₂ t₂}

theorem Distinct.before {p : Pairing σ₁ σ₂} {s₁ t₁ : σ₁} {s₂ t₂ : σ₂} (h : p.Distinct t₁ t₂)
    (h₁ : p.met₁ s₁ ⊆ p.met₁ t₁) (h₂ : p.met₂ s₂ ⊆ p.met₂ t₂) : p.Distinct s₁ s₂ := by
  apply Set.InjOn.mono _ h
  rintro m (hm | hm)
  · exact .inl (h₁ hm)
  · exact .inr (h₂ hm)

end Pairing

namespace Proc

section Grows
variable {ε σ α β : Type u} {μ : Type} {met : σ → List μ}

/-- A run that ends with a value forgets nothing it has met. -/
def Grows (met : σ → List μ) (x : Proc ε σ α) : Prop := ∀ ⦃s a t⦄, x.run s = .ok a t → met s ⊆ met t

theorem Grows.pure (a : α) : Grows met (pure a : Proc ε σ α) := by
  intro s b t h
  cases h
  exact List.Subset.refl _

theorem Grows.throw (e : ε) : Grows met (throw e : Proc ε σ α) := by
  intro s b t h
  exact nomatch h

variable {f : α → Proc ε σ β}

theorem Grows.bind {x : Proc ε σ α} (hx : Grows met x) (hf : ∀ a, Grows met (f a)) : Grows met (x >>= f) := by
  intro s b t h
  obtain ⟨a, m, h₁, h₂⟩ := bind_eq_ok.mp h
  exact List.Subset.trans (hx h₁) (hf a h₂)

end Grows

section Inversion
variable {ε σ α : Type u}

theorem pure_run_ok {a b : α} {s t : σ} (h : (pure a : Proc ε σ α).run s = .ok b t) : b = a ∧ t = s := by
  injection h with hb ht
  exact ⟨hb.symm, ht.symm⟩

end Inversion

section Still
variable {ε σ α β : Type u}

def Still (x : Proc ε σ α) : Prop := ∀ s, (x.run s).state = s

variable {x : Proc ε σ α} {s t : σ}

theorem Still.ok (h : Still x) {a : α} (hr : x.run s = .ok a t) : t = s := by
  have := h s
  rwa [hr] at this

theorem Still.error (h : Still x) {e : ε} (hr : x.run s = .error e t) : t = s := by
  have := h s
  rwa [hr] at this

theorem Still.pure (a : α) : Still (pure a : Proc ε σ α) := fun _ => rfl

theorem Still.throw (e : ε) : Still (throw e : Proc ε σ α) := fun _ => rfl

theorem Still.get : Still (get : Proc ε σ σ) := fun _ => rfl

theorem Still.bind (hx : Still x) (hf : ∀ a, Still (f a)) : Still (x >>= f) := by
  intro s
  cases hr : x.run s with
  | ok a t =>
    rw [bind_ok hr, hf a t]
    exact hx.ok hr
  | error e t =>
    rw [bind_error hr]
    exact hx.error hr

theorem Still.ensure (c : Prop) [Decidable c] (e : ε) : Still (ensure c e : Proc ε σ PUnit) := by
  by_cases h : c
  · rw [ensure_pos h]
    exact .pure _
  · rw [ensure_neg h]
    exact .throw e

theorem Still.ofExcept (x : Except ε α) : Still (ofExcept x : Proc ε σ α) := by
  cases x with
  | ok a => exact .pure a
  | error e => exact .throw e

theorem Still.orError (o : Option α) (e : ε) : Still (orError o e : Proc ε σ α) := by
  cases o with
  | some a => exact .pure a
  | none => exact .throw e

end Still

section Within
variable {ε σ α β : Type u} {R : σ → σ → Prop}

/-- A run, whatever it ends with, leaves a state that stands in `R` to the one it began in. -/
def Within (R : σ → σ → Prop) (x : Proc ε σ α) : Prop := ∀ s, R s (x.run s).state

variable {x : Proc ε σ α}

theorem Within.of_still (hr : ∀ s, R s s) (h : Still x) : Within R x := by
  intro s
  rw [h s]
  exact hr s

theorem Within.ok (h : Within R x) {s t : σ} {a : α} (hx : x.run s = .ok a t) : R s t := by
  have := h s
  rwa [hx] at this

theorem Within.bind (ht : ∀ {r s t}, R r s → R s t → R r t)
    (hx : Within R x) (hf : ∀ a, Within R (f a)) : Within R (x >>= f) := by
  intro s
  have hs := hx s
  rw [run_bind]
  cases hrun : x.run s with
  | ok a t =>
    rw [hrun] at hs
    exact ht hs (hf a t)
  | error e t =>
    rw [hrun] at hs
    exact hs

theorem Within.attempt (h : Within R x) : Within R x.attempt := by
  intro s
  have hs := h s
  cases hrun : x.run s with
  | ok a t =>
    rw [attempt_ok hrun]
    rwa [hrun] at hs
  | error e t =>
    rw [attempt_error hrun]
    rwa [hrun] at hs

end Within

section Agree
variable {ε σ₁ σ₂ α β : Type u} {p : Pairing σ₁ σ₂}

/-- Two runs from like states that both end with a value end with one value, in like states, if
what they met is told apart by its key. -/
structure Agree (p : Pairing σ₁ σ₂) (x : Proc ε σ₁ α) (y : Proc ε σ₂ α) : Prop where
  left : Grows p.met₁ x
  right : Grows p.met₂ y
  both : ∀ ⦃s₁ s₂ a₁ a₂ t₁ t₂⦄, x.run s₁ = .ok a₁ t₁ → y.run s₂ = .ok a₂ t₂ → p.same s₁ s₂ →
    p.Distinct t₁ t₂ → a₁ = a₂ ∧ p.same t₁ t₂

theorem Agree.pure (a : α) : Agree p (pure a : Proc ε σ₁ α) (pure a : Proc ε σ₂ α) := by
  refine ⟨.pure a, .pure a, ?_⟩
  intro s₁ s₂ a₁ a₂ t₁ t₂ h₁ h₂ same _
  cases h₁
  cases h₂
  exact ⟨rfl, same⟩

theorem Agree.throw (e : ε) : Agree p (throw e : Proc ε σ₁ α) (throw e : Proc ε σ₂ α) := by
  refine ⟨.throw e, .throw e, ?_⟩
  intro s₁ s₂ a₁ a₂ t₁ t₂ h₁
  exact nomatch h₁

variable {x : Proc ε σ₁ α} {y : Proc ε σ₂ α}

theorem Agree.bind {f : α → Proc ε σ₁ β}
    {g : α → Proc ε σ₂ β} (hx : Agree p x y) (hf : ∀ a, Agree p (f a) (g a)) :
    Agree p (x >>= f) (y >>= g) := by
  refine ⟨.bind hx.left fun a => (hf a).left, .bind hx.right fun a => (hf a).right, ?_⟩
  intro s₁ s₂ b₁ b₂ t₁ t₂ h₁ h₂ same distinct
  obtain ⟨a₁, m₁, hx₁, hf₁⟩ := bind_eq_ok.mp h₁
  obtain ⟨a₂, m₂, hx₂, hf₂⟩ := bind_eq_ok.mp h₂
  have middle := distinct.before ((hf a₁).left hf₁) ((hf a₂).right hf₂)
  obtain ⟨rfl, same⟩ := hx.both hx₁ hx₂ same middle
  exact (hf a₁).both hf₁ hf₂ same distinct

theorem Agree.ensure (c : Prop) [Decidable c] (e : ε) :
    Agree p (ensure c e : Proc ε σ₁ PUnit) (ensure c e : Proc ε σ₂ PUnit) := by
  by_cases h : c
  · rw [ensure_pos h, ensure_pos h]
    exact .pure _
  · rw [ensure_neg h, ensure_neg h]
    exact .throw e

theorem Agree.ofExcept (x : Except ε α) : Agree p (ofExcept x : Proc ε σ₁ α) (ofExcept x : Proc ε σ₂ α) := by
  cases x with
  | ok a => exact .pure a
  | error e => exact .throw e

theorem mapError_ok {ε' σ : Type u} {f : ε → ε'} {x : Proc ε σ α} {s t : σ} {a : α}
    (h : (mapError f x).run s = .ok a t) : x.run s = .ok a t := by
  rw [run_mapError] at h
  cases hx : x.run s with
  | ok b m =>
    rw [hx] at h
    cases h
    rfl
  | error e m =>
    rw [hx] at h
    exact nomatch h

variable {ε' : Type u}

theorem Agree.mapError (f : ε → ε') (h : Agree p x y) : Agree p (mapError f x) (mapError f y) where
  left _ _ _ hr := h.left (mapError_ok hr)
  right _ _ _ hr := h.right (mapError_ok hr)
  both _ _ _ _ _ _ h₁ h₂ := h.both (mapError_ok h₁) (mapError_ok h₂)

theorem Agree.each {f : α → Proc ε σ₁ PUnit} {g : α → Proc ε σ₂ PUnit}
    (h : ∀ a, Agree p (f a) (g a)) (as : List α) : Agree p (each f as) (each g as) := by
  induction as with
  | nil => exact .pure _
  | cons a as ih => exact .bind (h a) fun _ => ih

theorem Agree.of_ok {x' : Proc ε σ₁ α} {y' : Proc ε σ₂ α} (h : Agree p x y)
    (hx : ∀ ⦃s a t⦄, x'.run s = .ok a t → x.run s = .ok a t)
    (hy : ∀ ⦃s a t⦄, y'.run s = .ok a t → y.run s = .ok a t) : Agree p x' y' where
  left _ _ _ hr := h.left (hx hr)
  right _ _ _ hr := h.right (hy hr)
  both _ _ _ _ _ _ h₁ h₂ := h.both (hx h₁) (hy h₂)

end Agree

/-- How a program whose every index is checked may stop: with an error of its own, at an answer
longer than the buffer it was asked into, or at an index, a slice or a loop past its bound. -/
inductive Stop (ε : Type u) where
  | fail (e : ε)
  | answer
  | trap

def Stop.map {ε ε' : Type u} (f : ε → ε') : Stop ε → Stop ε'
  | .fail e => .fail (f e)
  | .answer => .answer
  | .trap => .trap

section Checked
variable {ε σ α β : Type u}

/-- From `s` the checked program `x` runs as `y` does, unless an answer is too long: it meets no
bound. -/
def Checked (s : σ) (x : Proc (Stop ε) σ α) (y : Proc ε σ α) : Prop :=
  (∃ t, x.run s = .error .answer t) ∨ x.run s = (mapError Stop.fail y).run s

variable {s : σ} {t : σ} {y : Proc ε σ α} {f : α → Proc (Stop ε) σ β} {g : α → Proc ε σ β}
    {x : Proc (Stop ε) σ α} {c : Prop}

variable {a : α} {e : ε}

theorem run_mapError_ok {f : ε → ε'} (h : y.run s = .ok a t) : (mapError f y).run s = .ok a t := by
  rw [run_mapError, h]

theorem run_mapError_error {f : ε → ε'}
    (h : y.run s = .error e t) : (mapError f y).run s = .error (f e) t := by
  rw [run_mapError, h]

theorem Checked.refl (y : Proc ε σ α) : Checked s (mapError Stop.fail y) y := .inr rfl

theorem Checked.pure (a : α) : Checked s (pure a : Proc (Stop ε) σ α) (pure a) := .inr rfl

theorem Checked.throw (e : ε) : Checked s (throw (.fail e) : Proc (Stop ε) σ α) (throw e) := .inr rfl

theorem Checked.bind_both (hx : Checked s x y)
    (hf : ∀ a t, y.run s = .ok a t → x.run s = .ok a t → Checked t (f a) (g a)) :
    Checked s (x >>= f) (y >>= g) := by
  rcases hx with ⟨t, h⟩ | h
  · exact .inl ⟨t, bind_error h⟩
  cases hy : y.run s with
  | error e t =>
    rw [run_mapError_error hy] at h
    exact .inr ((bind_error h).trans (run_mapError_error (bind_error hy)).symm)
  | ok a t =>
    rw [run_mapError_ok hy] at h
    unfold Checked
    rw [bind_ok h]
    rcases hf a t hy h with ⟨m, hm⟩ | hm
    · exact .inl ⟨m, hm⟩
    · refine .inr (hm.trans ?_)
      cases hg : (g a).run t with
      | ok b m => rw [run_mapError_ok hg, run_mapError_ok ((bind_ok hy).trans hg)]
      | error e m => rw [run_mapError_error hg, run_mapError_error ((bind_ok hy).trans hg)]

theorem Checked.bind (hx : Checked s x y)
    (hf : ∀ a t, y.run s = .ok a t → Checked t (f a) (g a)) : Checked s (x >>= f) (y >>= g) :=
  hx.bind_both fun a t hy _ => hf a t hy

/-- A request of a program outside, whose answer has to pass `p`. -/
theorem Checked.request {x : Proc ε σ α} {p : α → Prop} [DecidablePred p]
    (hf : ∀ a t, p a → Checked t (f a) (g a)) :
    Checked s (mapError Stop.fail x >>= fun a => ensure (p a) Stop.answer >>= fun _ => f a)
      (x >>= g) := by
  cases hx : x.run s with
  | error e t =>
    right
    rw [bind_error (run_mapError_error hx), run_mapError_error (bind_error hx)]
  | ok a t =>
    unfold Checked
    rw [bind_ok (run_mapError_ok hx), run_mapError, bind_ok hx, ← run_mapError]
    by_cases h : p a
    · rw [ensure_pos h, pure_bind]
      exact hf a t h
    · rw [ensure_neg h]
      exact .inl ⟨t, rfl⟩

theorem Checked.mapError (f : ε → ε')
    (h : Checked s x y) : Checked s (mapError (Stop.map f) x) (mapError f y) := by
  rcases h with ⟨t, h⟩ | h
  · exact .inl ⟨t, run_mapError_error h⟩
  right
  cases hy : y.run s with
  | ok a t =>
    rw [run_mapError_ok hy] at h
    rw [run_mapError_ok h, run_mapError_ok (run_mapError_ok hy)]
  | error e t =>
    rw [run_mapError_error hy] at h
    rw [run_mapError_error h, run_mapError_error (run_mapError_error hy)]
    rfl

theorem Checked.of_get {f : σ → Proc (Stop ε) σ α} {g : σ → Proc ε σ α} (h : Checked s (f s) (g s)) :
    Checked s (get >>= f) (get >>= g) := by
  refine .bind (.inr rfl) fun a t hr => ?_
  cases hr
  exact h

theorem Checked.ensure_iff {c' : Prop} [Decidable c] [Decidable c'] (e : ε) (hc : c ↔ c') :
    Checked s (ensure c (.fail e) : Proc (Stop ε) σ PUnit) (ensure c' e) := by
  by_cases h : c
  · rw [ensure_pos h, ensure_pos (hc.mp h)]
    exact .pure _
  · rw [ensure_neg h, ensure_neg (mt hc.mpr h)]
    exact .throw e

theorem Checked.ensure (c : Prop) [Decidable c] (e : ε) :
    Checked s (ensure c (.fail e) : Proc (Stop ε) σ PUnit) (ensure c e) :=
  .ensure_iff e Iff.rfl

theorem Checked.bound [Decidable c] (h : c)
    (hx : Checked s x y) : Checked s (MindCore.ensure c .trap >>= fun _ => x) y := by
  rw [ensure_pos h, pure_bind]
  exact hx

theorem Checked.each {f : α → Proc (Stop ε) σ PUnit} {g : α → Proc ε σ PUnit} {as : List α}
    (h : ∀ a ∈ as, ∀ t, Checked t (f a) (g a)) : Checked s (each f as) (each g as) := by
  induction as generalizing s with
  | nil => exact .pure _
  | cons a as ih =>
    refine .bind (h a List.mem_cons_self s) fun _ t _ => ?_
    exact ih fun b hb => h b (List.mem_cons_of_mem a hb)

theorem ensure_run_ok [Decidable c] {u : PUnit}
    (h : (ensure c e : Proc ε σ PUnit).run s = .ok u t) : c ∧ t = s := by
  by_cases hc : c
  · rw [ensure_pos hc] at h
    cases h
    exact ⟨hc, rfl⟩
  · rw [ensure_neg hc] at h
    exact nomatch h

theorem ofExcept_run_ok {x : Except ε α}
    (h : (ofExcept x : Proc ε σ α).run s = .ok a t) : x = .ok a ∧ t = s := by
  cases x with
  | ok b =>
    cases h
    exact ⟨rfl, rfl⟩
  | error e => exact nomatch h

end Checked

section Costs
variable {ε σ α β : Type u} {Φ : σ → ℤ} {c c' d d' : ℤ}

/-- A run moves `Φ` up by at most `c` if it ends with a value, by at most `d` if with an error. -/
structure Costs (Φ : σ → ℤ) (c d : ℤ) (x : Proc ε σ α) : Prop where
  value : ∀ ⦃s a t⦄, x.run s = .ok a t → Φ t ≤ Φ s + c
  error : ∀ ⦃s e t⦄, x.run s = .error e t → Φ t ≤ Φ s + d

variable {x : Proc ε σ α}

theorem Costs.mono (h : Costs Φ c d x) (hc : c ≤ c') (hd : d ≤ d') : Costs Φ c' d' x where
  value _ _ _ hr := by linarith [h.value hr]
  error _ _ _ hr := by linarith [h.error hr]

theorem Costs.state (h : Costs Φ c d x) (hcd : c ≤ d) (s : σ) : Φ (x.run s).state ≤ Φ s + d := by
  cases hr : x.run s with
  | ok a t =>
    have := h.value hr
    simp only [Outcome.state_ok]
    linarith
  | error e t => exact h.error hr

theorem Costs.pure (a : α) (hc : 0 ≤ c) : Costs Φ c d (pure a : Proc ε σ α) where
  value s b t h := by
    cases h
    linarith
  error s e t h := nomatch h

theorem Costs.throw (e : ε) (hd : 0 ≤ d) : Costs Φ c d (throw e : Proc ε σ α) where
  value s a t h := nomatch h
  error s e t h := by
    cases h
    linarith

theorem Costs.bind (hx : Costs Φ c d x)
    (hf : ∀ a, (∃ s t, x.run s = .ok a t) → Costs Φ (c' - c) (d - c) (f a)) :
    Costs Φ c' d (x >>= f) where
  value s b t h := by
    obtain ⟨a, m, h₁, h₂⟩ := bind_eq_ok.mp h
    linarith [hx.value h₁, (hf a ⟨s, m, h₁⟩).value h₂]
  error s e t h := by
    cases hr : x.run s with
    | ok a m =>
      rw [bind_ok hr] at h
      linarith [hx.value hr, (hf a ⟨s, m, hr⟩).error h]
    | error e' m =>
      rw [bind_error hr] at h
      cases h
      exact hx.error hr

theorem Costs.of_get {f : σ → Proc ε σ α} (h : ∀ s, Costs Φ c d (f s)) : Costs Φ c d (get >>= f) where
  value s a t hr := by
    exact (h s).value hr
  error s e t hr := by
    exact (h s).error hr

theorem Costs.ensure (p : Prop) [Decidable p] (e : ε) (hc : 0 ≤ c) (hd : 0 ≤ d) :
    Costs Φ c d (ensure p e : Proc ε σ PUnit) := by
  by_cases h : p
  · rw [ensure_pos h]
    exact .pure _ hc
  · rw [ensure_neg h]
    exact .throw e hd

theorem Costs.ofExcept (x : Except ε α) (hc : 0 ≤ c) (hd : 0 ≤ d) :
    Costs Φ c d (ofExcept x : Proc ε σ α) := by
  cases x with
  | ok a => exact .pure a hc
  | error e => exact .throw e hd

theorem Costs.mapError (f : ε → ε') (h : Costs Φ c d x) : Costs Φ c d (mapError f x) where
  value _ _ _ hr := h.value (mapError_ok hr)
  error s e t hr := by
    cases hx : x.run s with
    | ok a m =>
      rw [run_mapError_ok hx] at hr
      exact nomatch hr
    | error e' m =>
      rw [run_mapError_error hx] at hr
      cases hr
      exact h.error hx

variable {as : List α} {f : α → Proc ε σ PUnit}

theorem Costs.each (h : ∀ a ∈ as, Costs Φ c d (f a))
    (hc : c ≤ 0) : Costs Φ (c * as.length) d (Proc.each f as) := by
  induction as with
  | nil => exact .pure _ (by simp)
  | cons a as ih =>
    refine .bind (h a List.mem_cons_self) fun _ _ => ?_
    refine (ih fun b hb => h b (List.mem_cons_of_mem a hb)).mono ?_ (by linarith)
    rw [List.length_cons]
    push_cast
    linarith

theorem Costs.each_free (h : ∀ a ∈ as, Costs Φ 0 d (f a)) : Costs Φ 0 d (Proc.each f as) :=
  (Costs.each h le_rfl).mono (by simp) le_rfl

end Costs

end Proc

end MindCore
