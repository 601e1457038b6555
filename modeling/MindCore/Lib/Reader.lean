import MindCore.Lib.Bytes
import MindCore.Lib.Proc

/-!
# Readers of byte strings

A reader is a program over the bytes it has not read yet. `Reads p bytes a c` says that `p` reads
`bytes` as `a` when `c` holds and refuses them when it does not, whatever follows them. The rules
put a format together from its fields.
-/

namespace MindCore

open Proc

namespace Reader

variable {ε α β : Type}

def take (n : Nat) (e : ε) : Proc ε Bytes Bytes := do
  let rest ← get
  ensure (n ≤ rest.length) e
  set (rest.drop n)
  return rest.take n

def finish (e : ε) : Proc ε Bytes PUnit := do
  let rest ← get
  ensure (rest = []) e

/-- Reads `n` elements, each by a reader that is given those before it. -/
def many (f : List α → Proc ε Bytes α) : Nat → List α → Proc ε Bytes (List α)
  | 0, before => pure before
  | n + 1, before => do
    let a ← f before
    many f n (before ++ [a])

structure Reads (p : Proc ε Bytes α) (bytes : Bytes) (a : α) (c : Prop) : Prop where
  accepts : c → ∀ rest, p.run (bytes ++ rest) = .ok a rest
  refuses : ¬c → ∀ rest, ∃ e s, p.run (bytes ++ rest) = .error e s

variable {a : α} {bytes bytes' : Bytes} {p : Proc ε Bytes α} {b : β} {c c' : Prop}

theorem Reads.of_accepts (h : ∀ rest, p.run (bytes ++ rest) = .ok a rest) : Reads p bytes a True :=
  ⟨fun _ => h, fun hc => absurd trivial hc⟩

theorem Reads.pure (a : α) : Reads (pure a : Proc ε Bytes α) [] a True := .of_accepts fun _ => rfl

theorem Reads.ensure (c : Prop) [Decidable c] (e : ε) : Reads (ensure c e : Proc ε Bytes PUnit) [] ⟨⟩ c where
  accepts h rest := by
    rw [ensure_pos h]
    rfl
  refuses h rest := by
    rw [ensure_neg h]
    exact ⟨e, rest, rfl⟩

variable {f : α → Proc ε Bytes β} {a' : α} {e : ε}

theorem Reads.bind (hp : Reads p bytes a c) (hf : Reads (f a) bytes' b c') :
    Reads (p >>= f) (bytes ++ bytes') b (c ∧ c') where
  accepts h rest := by
    rw [List.append_assoc, bind_ok (hp.accepts h.1 _)]
    exact hf.accepts h.2 rest
  refuses h rest := by
    rw [List.append_assoc]
    by_cases hc : c
    · rw [bind_ok (hp.accepts hc _)]
      exact hf.refuses (fun hc' => h ⟨hc, hc'⟩) rest
    · obtain ⟨e, s, he⟩ := hp.refuses hc (bytes' ++ rest)
      exact ⟨e, s, bind_error he⟩

theorem Reads.congr (h : Reads p bytes a c) (hb : bytes = bytes') (ha : a = a') (hc : c ↔ c') :
    Reads p bytes' a' c' := by
  subst hb ha
  exact ⟨fun h' => h.accepts (hc.mpr h'), fun h' => h.refuses fun hn => h' (hc.mp hn)⟩

theorem Reads.next (hp : Reads p bytes a True) (hf : Reads (f a) bytes' b c) :
    Reads (p >>= f) (bytes ++ bytes') b c :=
  (hp.bind hf).congr rfl rfl (iff_of_eq (true_and c))

theorem Reads.check [Decidable c] {f : PUnit → Proc ε Bytes β} (hf : Reads (f ⟨⟩) bytes b c') :
    Reads (MindCore.ensure c e >>= f) bytes b (c ∧ c') :=
  (Reads.ensure c e).bind hf

theorem Reads.passed [Decidable c] {f : PUnit → Proc ε Bytes β} (hc : c) (hf : Reads (f ⟨⟩) bytes b c') :
    Reads (MindCore.ensure c e >>= f) bytes b c' :=
  hf.check.congr rfl rfl (iff_of_eq (by simp [hc]))

theorem Reads.map (hp : Reads p bytes a c)
    (f : α → β) : Reads (p >>= fun a => Pure.pure (f a)) bytes (f a) c :=
  (hp.bind (.pure (f a))).congr (List.append_nil _) rfl (iff_of_eq (and_true c))

theorem Reads.take {n : Nat} (h : bytes.length = n) (e : ε) : Reads (take n e) bytes bytes True := by
  refine .of_accepts fun rest => ?_
  subst h
  have hlen : bytes.length ≤ (bytes ++ rest).length := by simp
  rw [Reader.take, bind_ok (run_get _), ensure_pos hlen, pure_bind,
    bind_ok (run_set _ _), List.take_left, List.drop_left]
  rfl

theorem finish_nil (e : ε) : (finish e : Proc ε Bytes PUnit).run [] = .ok ⟨⟩ [] := rfl

theorem Reads.many {f : List α → Proc ε Bytes α} {w : α → Bytes} {c : List α → α → Prop}
    (hf : ∀ before a, Reads (f before) (w a) a (c before a)) (l before : List α) :
    Reads (many f l.length before) (l.flatMap w) (before ++ l)
      (∀ pre a post, l = pre ++ a :: post → c (before ++ pre) a) := by
  induction l generalizing before with
  | nil =>
    refine (Reads.pure before).congr rfl (List.append_nil _).symm ?_
    simp
  | cons a l ih =>
    refine ((hf before a).bind (ih (before ++ [a]))).congr rfl (by simp) ?_
    constructor
    · rintro ⟨ha, hl⟩ pre b post heq
      rcases pre with _ | ⟨d, pre⟩
      · obtain ⟨rfl, -⟩ := List.cons.inj heq
        simpa using ha
      · obtain ⟨rfl, heq'⟩ := List.cons.inj heq
        simpa using hl pre b post heq'
    · intro h
      refine ⟨by simpa using h [] a l rfl, ?_⟩
      intro pre b post heq
      have := h (a :: pre) b post (by rw [heq]; rfl)
      simpa using this

theorem Reads.eq_of_ok {rest rest' : Bytes}
    (h : Reads p bytes a c) (hok : p.run (bytes ++ rest) = .ok a' rest') :
    c ∧ a' = a ∧ rest' = rest := by
  by_cases hc : c
  · rw [h.accepts hc rest] at hok
    cases hok
    exact ⟨hc, rfl, rfl⟩
  · obtain ⟨e, s, he⟩ := h.refuses hc rest
    rw [he] at hok
    exact nomatch hok

end Reader

end MindCore
