import Mathlib.Algebra.GroupWithZero.Nat
import Mathlib.Data.List.Basic

/-!
# Fallible programs over a mutable state

`Proc ε σ α` is a program that reads and changes a state `σ` and ends with a value
or an error. The state stays changed when it ends with an error, as a `&mut`
argument does in a function that returns early.
-/

namespace MindCore

open List

universe u v

def ensure {ε : Type u} {m : Type u → Type v} [Monad m] [MonadExcept ε m]
    (p : Prop) [Decidable p] (e : ε) : m PUnit :=
  if p then pure ⟨⟩ else throw e

def orError {ε α : Type u} {m : Type u → Type v} [Monad m] [MonadExcept ε m] (o : Option α) (e : ε) : m α :=
  match o with
  | some a => pure a
  | none => throw e

section Except
variable {ε α β : Type u} {e : ε} {p : Prop} [Decidable p]

theorem ensure_ok (h : p) : (ensure p e : Except ε PUnit) = .ok ⟨⟩ := if_pos h

theorem ensure_error (h : ¬p) : (ensure p e : Except ε PUnit) = .error e := if_neg h

@[simp] theorem orError_some (a : α) (e : ε) : (orError (some a) e : Except ε α) = .ok a := rfl

@[simp] theorem orError_none (e : ε) : (orError none e : Except ε α) = .error e := rfl

theorem orError_eq_ok {o : Option α} {a : α} : (orError o e : Except ε α) = .ok a ↔ o = some a := by
  cases o <;> simp [orError_none]

@[simp] theorem except_ok_bind (a : α) (f : α → Except ε β) : (Except.ok a >>= f) = f a := rfl

section Bind
variable {x : Except ε α} {f : α → Except ε β} {a : α} {b : β}

theorem bind_of_ok (hx : x = .ok a) (hf : f a = .ok b) : (x >>= f) = .ok b := hx ▸ hf

theorem ok_of_bind (h : (x >>= f) = .ok b) : ∃ a, x = .ok a ∧ f a = .ok b := by
  cases x with
  | ok a => exact ⟨a, rfl, h⟩
  | error e => cases h

end Bind

theorem ensure_eq_ok {u : PUnit} : (ensure p e : Except ε PUnit) = .ok u ↔ p := by
  by_cases h : p
  · rw [ensure_ok h]
    exact ⟨fun _ => h, fun _ => rfl⟩
  · rw [ensure_error h]
    exact ⟨fun he => (nomatch he), fun hp => absurd hp h⟩

end Except

inductive Outcome (ε σ α : Type u) where
  | ok (a : α) (s : σ)
  | error (e : ε) (s : σ)

structure Proc (ε σ α : Type u) where
  exec : σ → Outcome ε σ α

/-- Running a program. Not the projection itself, so that two runs compare by their programs. -/
def Proc.run {ε σ α : Type u} (x : Proc ε σ α) (s : σ) : Outcome ε σ α := x.exec s

namespace Outcome

variable {ε σ α : Type u}

def state : Outcome ε σ α → σ
  | .ok _ s => s
  | .error _ s => s

@[simp] theorem state_ok (a : α) (s : σ) : (Outcome.ok a s : Outcome ε σ α).state = s := rfl

end Outcome

namespace Proc

variable {ε σ α β : Type u}

instance : Monad (Proc ε σ) where
  pure a := ⟨fun s => .ok a s⟩
  bind x f := ⟨fun s => match x.run s with
    | .ok a t => (f a).run t
    | .error e t => .error e t⟩

instance : MonadExcept ε (Proc ε σ) where
  throw e := ⟨fun s => .error e s⟩
  tryCatch x f := ⟨fun s => match x.run s with
    | .ok a t => .ok a t
    | .error e t => (f e).run t⟩

instance : MonadStateOf σ (Proc ε σ) where
  get := ⟨fun s => .ok s s⟩
  set t := ⟨fun _ => .ok ⟨⟩ t⟩
  modifyGet f := ⟨fun s => .ok (f s).1 (f s).2⟩

variable {x : Proc ε σ α} {a : α} {f : α → Proc ε σ β} {s t : σ} {e : ε} {b : β} {p : Prop}
    {P : σ → Prop}

variable {y : Proc ε σ α} {as : List α}

@[ext] theorem ext (h : ∀ s, x.run s = y.run s) : x = y := by
  cases x
  cases y
  congr
  exact funext h

@[simp] theorem run_pure (a : α) (s : σ) : (pure a : Proc ε σ α).run s = .ok a s := rfl

@[simp] theorem run_throw (e : ε) (s : σ) : (throw e : Proc ε σ α).run s = .error e s := rfl

@[simp] theorem run_get (s : σ) : (get : Proc ε σ σ).run s = .ok s s := rfl

@[simp] theorem run_set (t s : σ) : (set t : Proc ε σ PUnit).run s = .ok ⟨⟩ t := rfl

@[simp] theorem run_modify (f : σ → σ) (s : σ) : (modify f : Proc ε σ PUnit).run s = .ok ⟨⟩ (f s) := rfl

theorem run_bind (x : Proc ε σ α) (f : α → Proc ε σ β) (s : σ) : (x >>= f).run s = match x.run s with
      | .ok a t => (f a).run t
      | .error e t => .error e t := rfl

instance : LawfulMonad (Proc ε σ) := LawfulMonad.mk' _
  (by
    intro α x
    ext s
    change (match x.run s with
      | .ok a t => .ok a t
      | .error e t => .error e t) = x.run s
    cases x.run s <;> rfl)
  (by
    intro α β a f
    rfl)
  (by
    intro α β γ x f g
    ext s
    simp only [run_bind]
    cases x.run s <;> rfl)

theorem bind_ok (h : x.run s = .ok a t) : (x >>= f).run s = (f a).run t := by
  rw [run_bind, h]

theorem bind_error (h : x.run s = .error e t) : (x >>= f).run s = .error e t := by
  rw [run_bind, h]

theorem bind_eq_ok : (x >>= f).run s = .ok b t ↔ ∃ a m, x.run s = .ok a m ∧ (f a).run m = .ok b t := by
  rw [run_bind]
  cases h : x.run s with
  | ok a m =>
    constructor
    · exact fun hf => ⟨a, m, rfl, hf⟩
    · rintro ⟨a', m', hx, hf⟩
      cases hx
      exact hf
  | error e m =>
    constructor
    · exact fun hf => (nomatch hf)
    · rintro ⟨a', m', hx, _⟩
      exact nomatch hx

variable [Decidable p]

theorem ensure_pos (h : p) : (ensure p e : Proc ε σ PUnit) = pure ⟨⟩ := if_pos h

theorem ensure_neg (h : ¬p) : (ensure p e : Proc ε σ PUnit) = throw e := if_neg h

@[simp] theorem orError_some (a : α) (e : ε) : (orError (some a) e : Proc ε σ α) = pure a := rfl

@[simp] theorem orError_none (e : ε) : (orError none e : Proc ε σ α) = throw e := rfl

def ofExcept (x : Except ε α) : Proc ε σ α :=
  match x with
  | .ok a => pure a
  | .error e => throw e

@[simp] theorem ofExcept_ok (a : α) : (ofExcept (.ok a) : Proc ε σ α) = pure a := rfl

theorem pure_ok {b : α} : (pure a : Proc ε σ α).run s = .ok b t ↔ b = a ∧ t = s := by
  constructor
  · intro h
    injection h with hb ht
    exact ⟨hb.symm, ht.symm⟩
  · rintro ⟨rfl, rfl⟩
    rfl

theorem ensure_bind_ok {f : PUnit → Proc ε σ β} :
    (ensure p e >>= f).run s = .ok b t ↔ p ∧ (f ⟨⟩).run s = .ok b t := by
  by_cases h : p
  · rw [ensure_pos h, pure_bind]
    exact ⟨fun hf => ⟨h, hf⟩, fun hf => hf.2⟩
  · rw [ensure_neg h, bind_error (run_throw e s)]
    constructor
    · nofun
    · rintro ⟨hp, _⟩
      exact absurd hp h

theorem ofExcept_bind_ok {x : Except ε α} :
    (ofExcept x >>= f).run s = .ok b t ↔ ∃ a, x = .ok a ∧ (f a).run s = .ok b t := by
  cases x with
  | ok a =>
    constructor
    · exact fun hf => ⟨a, rfl, hf⟩
    · rintro ⟨a', ha, hf⟩
      cases ha
      exact hf
  | error e =>
    constructor
    · nofun
    · rintro ⟨a', ha, _⟩
      cases ha

theorem get_bind (f : σ → Proc ε σ β) (s : σ) : (get >>= f).run s = (f s).run s := rfl

def attempt (x : Proc ε σ α) : Proc ε σ (Except ε α) :=
  ⟨fun s => match x.run s with
    | .ok a t => .ok (.ok a) t
    | .error e t => .ok (.error e) t⟩

def mapError {ε' : Type u} (f : ε → ε') (x : Proc ε σ α) : Proc ε' σ α :=
  ⟨fun s => match x.run s with
    | .ok a t => .ok a t
    | .error e t => .error (f e) t⟩

theorem run_attempt (x : Proc ε σ α) (s : σ) : (attempt x).run s = match x.run s with
      | .ok a t => .ok (.ok a) t
      | .error e t => .ok (.error e) t := rfl

theorem attempt_ok (h : x.run s = .ok a t) : (attempt x).run s = .ok (.ok a) t := by
  rw [run_attempt, h]

theorem attempt_error (h : x.run s = .error e t) : (attempt x).run s = .ok (.error e) t := by
  rw [run_attempt, h]

theorem run_mapError {ε' : Type u} (f : ε → ε') (x : Proc ε σ α) (s : σ) :
    (mapError f x).run s = match x.run s with
      | .ok a t => .ok a t
      | .error e t => .error (f e) t := rfl

def each (f : α → Proc ε σ PUnit) : List α → Proc ε σ PUnit
  | [] => pure ⟨⟩
  | a :: as => f a >>= fun _ => each f as

@[simp] theorem each_nil (f : α → Proc ε σ PUnit) : each f [] = pure ⟨⟩ := rfl

@[simp] theorem each_cons (f : α → Proc ε σ PUnit) (a : α) (as : List α) :
    each f (a :: as) = f a >>= fun _ => each f as := rfl

theorem each_append (f : α → Proc ε σ PUnit) (as bs : List α) :
    each f (as ++ bs) = each f as >>= fun _ => each f bs := by
  induction as with
  | nil => rw [nil_append, each_nil, pure_bind]
  | cons a as ih => simp only [cons_append, each_cons, ih, bind_assoc]

def Keeps (P : σ → Prop) (x : Proc ε σ α) : Prop := ∀ ⦃s a t⦄, P s → x.run s = .ok a t → P t

variable {f : α → Proc ε σ PUnit}

theorem Keeps.each (hf : ∀ a, Keeps P (f a)) (as : List α) : Keeps P (each f as) := by
  induction as with
  | nil =>
    intro s a t hs h
    cases h
    exact hs
  | cons a as ih =>
    intro s _ t hs h
    obtain ⟨_, m, h1, h2⟩ := bind_eq_ok.mp h
    exact ih (hf a hs h1) h2

theorem bind_run_congr (h : x.run s = y.run s) (f : α → Proc ε σ β) : (x >>= f).run s = (y >>= f).run s := by
  rw [run_bind, run_bind, h]

variable {γ : Type u}

theorem bind_pure_bind (x : Proc ε σ α) (b : β) (f : β → Proc ε σ γ) :
    ((x >>= fun _ => pure b) >>= f) = x >>= fun _ => f b := by
  simp only [bind_assoc, pure_bind]

/-- Two loops that agree, round by round, in every state of `P`. -/
theorem each_congr {f g : α → Proc ε σ PUnit} (hg : ∀ a, Keeps P (g a))
    (hf : ∀ a ∈ as, ∀ s, P s → (f a).run s = (g a).run s) (hs : P s) :
    (each f as).run s = (each g as).run s := by
  induction as generalizing s with
  | nil => rfl
  | cons a as ih =>
    rw [each_cons, each_cons, run_bind, run_bind, hf a mem_cons_self s hs]
    cases hr : (g a).run s with
    | ok u t => exact ih (fun b hb => hf b (mem_cons_of_mem a hb)) (hg a hs hr)
    | error e t => rfl

theorem each_map (f : α → Proc ε σ PUnit) (h : γ → α) (cs : List γ) :
    each f (cs.map h) = each (fun c => f (h c)) cs := by
  induction cs with
  | nil => rfl
  | cons c cs ih => rw [map_cons, each_cons, each_cons, ih]

theorem each_pure (as : List α) : each (fun _ => (pure ⟨⟩ : Proc ε σ PUnit)) as = pure ⟨⟩ := by
  induction as with
  | nil => rfl
  | cons a as ih => rw [each_cons, pure_bind, ih]

/-- A loop of checks that change nothing: it passes when every check does, and ends with their
error when one does not. -/
theorem each_check {p : α → Bool}
    (hf : ∀ a, (f a).run s = if p a then .ok ⟨⟩ s else .error e s) (as : List α) :
    (each f as).run s = if as.all p then .ok ⟨⟩ s else .error e s := by
  induction as with
  | nil => rfl
  | cons a as ih =>
    rw [each_cons, run_bind, hf a, all_cons]
    cases hp : p a with
    | true => simpa using ih
    | false => simp

/-- A loop whose every round is a loop over `h a` is one loop over all of them. -/
theorem each_eq_flatMap {g : γ → Proc ε σ PUnit} {h : α → List γ} (hg : ∀ c, Keeps P (g c))
    (hf : ∀ a ∈ as, ∀ s, P s → (f a).run s = (each g (h a)).run s) (hs : P s) :
    (each f as).run s = (each g (as.flatMap h)).run s := by
  induction as generalizing s with
  | nil => rfl
  | cons a as ih =>
    have ih' : ∀ t, P t → (each f as).run t = (each g (as.flatMap h)).run t :=
      fun t ht => ih (fun b hb => hf b (mem_cons_of_mem a hb)) ht
    rw [each_cons, flatMap_cons, each_append, run_bind, run_bind, hf a mem_cons_self s hs]
    cases hr : (each g (h a)).run s with
    | ok u t => exact ih' t (Keeps.each hg (h a) hs hr)
    | error e t => rfl

end Proc

end MindCore
