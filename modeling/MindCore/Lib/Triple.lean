import MindCore.Lib.Runs

/-!
# Pre- and postconditions

`Meets Q E` is how a run may end: with a value as `Q` has it, or with an error as `E` has it.
`Triple P x Q E` says so of the runs of `x` from every state of `P`. There is a rule for every way
a program is put together.
-/

namespace MindCore

universe u

variable {ε σ α β : Type u}

def Outcome.Meets (Q : α → σ → Prop) (E : ε → σ → Prop) : Outcome ε σ α → Prop
  | .ok a t => Q a t
  | .error e t => E e t

namespace Proc

variable {f : α → Proc ε σ β} {o : Option α} {c : Prop} {a : α}

section Meets
variable {Q Q' : α → σ → Prop} {R : β → σ → Prop} {E E' : ε → σ → Prop} {s : σ}

variable {x : Proc ε σ α} {e : ε} {t : σ}

theorem meets_bind (hx : (x.run s).Meets Q E)
    (hf : ∀ a t, Q a t → ((f a).run t).Meets R E) : ((x >>= f).run s).Meets R E := by
  rw [run_bind]
  cases hr : x.run s with
  | ok a t =>
    rw [hr] at hx
    exact hf a t hx
  | error e t =>
    rw [hr] at hx
    exact hx

theorem meets_mono {o : Outcome ε σ α} (h : o.Meets Q E) (hq : ∀ a t, Q a t → Q' a t)
    (he : ∀ e t, E e t → E' e t) : o.Meets Q' E' := by
  cases o with
  | ok a t => exact hq a t h
  | error e t => exact he e t h

theorem meets_orError (h : E e s) :
    ((orError o e : Proc ε σ α).run s).Meets (fun a t => o = some a ∧ s = t) E := by
  cases o with
  | none => exact h
  | some a => exact ⟨rfl, rfl⟩

theorem meets_ensure [Decidable c] (h : ¬c → E e s) :
    ((ensure c e : Proc ε σ PUnit).run s).Meets (fun _ t => c ∧ s = t) E := by
  by_cases hc : c
  · rw [ensure_pos hc]
    exact ⟨hc, rfl⟩
  · rw [ensure_neg hc]
    exact h hc

theorem meets_get : ((get : Proc ε σ σ).run s).Meets (fun a t => s = a ∧ s = t) E := ⟨rfl, rfl⟩

theorem meets_set : ((set t : Proc ε σ PUnit).run s).Meets (fun _ u => u = t) E := rfl

theorem meets_modify {f : σ → σ} : ((modify f : Proc ε σ PUnit).run s).Meets (fun _ t => t = f s) E := rfl

theorem meets_ok (h : (x.run s).Meets Q E) (hr : x.run s = .ok a t) : Q a t := by
  rwa [hr] at h

theorem meets_state {P : σ → Prop} (h : (x.run s).Meets (fun _ => P) fun _ => P) : P (x.run s).state := by
  cases hr : x.run s with
  | ok a t =>
    rw [hr] at h
    exact h
  | error e t =>
    rw [hr] at h
    exact h

end Meets

def Triple (P : σ → Prop) (x : Proc ε σ α) (Q : α → σ → Prop) (E : ε → σ → Prop) : Prop :=
  ∀ s, P s → (x.run s).Meets Q E

namespace Triple

variable {P P' : σ → Prop} {Q Q' : α → σ → Prop} {R : β → σ → Prop} {E E' : ε → σ → Prop}

theorem pure (h : ∀ s, P s → Q a s) : Triple P (Pure.pure a : Proc ε σ α) Q E := h

variable {x : Proc ε σ α} {e : ε}

theorem bind (hx : Triple P x Q E) (hf : ∀ a, Triple (Q a) (f a) R E) : Triple P (x >>= f) R E :=
  fun s hs => meets_bind (hx s hs) fun a t ht => hf a t ht

theorem weaken (hx : Triple P x Q E) (hp : ∀ s, P' s → P s)
    (hq : ∀ a s, Q a s → Q' a s) (he : ∀ e s, E e s → E' e s) : Triple P' x Q' E' :=
  fun s hs => meets_mono (hx s (hp s hs)) hq he

theorem ensure [Decidable c] (h : ∀ s, P s → ¬c → E e s) :
    Triple P (MindCore.ensure c e : Proc ε σ PUnit) (fun _ s => c ∧ P s) E := fun s hs =>
  meets_mono (meets_ensure (h s hs)) (fun _ _ ⟨hc, ht⟩ => ⟨hc, ht ▸ hs⟩) fun _ _ he => he

theorem orError (h : ∀ s, P s → E e s) :
    Triple P (MindCore.orError o e : Proc ε σ α) (fun a s => o = some a ∧ P s) E := fun s hs =>
  meets_mono (meets_orError (h s hs)) (fun _ _ ⟨ho, ht⟩ => ⟨ho, ht ▸ hs⟩) fun _ _ he => he

end Triple

end Proc

end MindCore
