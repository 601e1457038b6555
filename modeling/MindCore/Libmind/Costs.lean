import MindCore.Libmind.Bounds
import Mathlib.Tactic.Positivity
import Mathlib.Tactic.Ring

/-!
# What a reader asks of a store

Bounds on how far a run of a reader moves a measure of its state, from what a fetch, a visit and
a step each move it by.
-/

namespace MindCore

open List Proc
open Dag (BlockSource)

namespace Dag

theorem descent_le {f : ℤ} (h0 : 0 ≤ f) (total : Nat) :
    ((height total - 1 : Nat) + 1 : ℤ) * f ≤ levels * f := by
  apply mul_le_mul_of_nonneg_right _ h0
  have := height_le total
  have hpos : 0 < levels := by decide
  omega

section Costs
variable [Sha256] {σ : Type} [BlockSource σ] {Φ : σ → ℤ} {f : ℤ}
  (hf : ∀ cid, Costs Φ f f (fetch cid)) (h0 : 0 ≤ f)

include hf h0

theorem node_costs (cid : Cid) : Costs Φ f f (node cid) := by
  refine .bind (.ensure _ _ le_rfl h0) fun _ _ => ?_
  refine .bind ((hf cid).mono le_rfl (by linarith)) fun _ _ => ?_
  exact .ofExcept _ (by linarith) (by linarith)

theorem size_costs (root : Cid) : Costs Φ f f (size root) := by
  unfold size
  cases root.codec with
  | raw => exact .bind (hf root) fun _ _ => .pure _ (by linarith)
  | dagCbor =>
    refine .bind (node_costs hf h0 root) fun _ _ => ?_
    refine .bind (.ensure _ _ le_rfl (by linarith)) fun _ _ => ?_
    refine .bind (.ofExcept _ le_rfl (by linarith)) fun _ _ => ?_
    exact .pure _ (by linarith)

theorem leaf_costs (h : Nat) (cid : Cid) (held within : Nat) :
    Costs Φ (h * f) (h * f) (leaf h cid held within) := by
  induction h generalizing cid held within with
  | zero => exact .pure _ (by simp)
  | succ h ih =>
    have hh : 0 ≤ (h : ℤ) * f := mul_nonneg (Int.natCast_nonneg h) h0
    have hs : ((h + 1 : Nat) : ℤ) * f = h * f + f := by push_cast; ring
    refine .bind ((node_costs hf h0 cid).mono le_rfl (by linarith)) fun _ _ => ?_
    refine .bind (.ofExcept _ le_rfl (by linarith)) fun _ _ => ?_
    exact (ih _ _ _).mono (by linarith) (by linarith)

theorem readFrom_costs (root : Cid) (total offset len rounds : Nat) (out : Bytes) :
    Costs Φ (rounds * ((levels + 1) * f)) (rounds * ((levels + 1) * f))
      (readFrom root total offset len rounds out) := by
  induction rounds generalizing out with
  | zero => exact .pure _ (by simp)
  | succ rounds ih =>
    have hl : (height total : ℤ) * f ≤ levels * f :=
      mul_le_mul_of_nonneg_right (by exact_mod_cast height_le total) h0
    have hr : 0 ≤ (rounds : ℤ) * ((levels + 1) * f) := by positivity
    have hs : ((rounds + 1 : Nat) : ℤ) * ((levels + 1) * f) =
      rounds * ((levels + 1) * f) + levels * f + f := by push_cast; ring
    unfold readFrom
    split
    · refine .bind ((leaf_costs hf h0 _ _ _ _).mono hl (by linarith)) fun _ _ => ?_
      refine .bind ((hf _).mono le_rfl (by linarith)) fun _ _ => ?_
      refine .bind (.ensure _ _ le_rfl (by linarith)) fun _ _ => ?_
      exact (ih _).mono (by linarith) (by linarith)
    · have : 0 ≤ (levels : ℤ) * f := by positivity
      exact .pure _ (by linarith)

theorem readAt_costs (root : Cid) (offset len : Nat) :
    Costs Φ (f + len * ((levels + 1) * f)) (f + len * ((levels + 1) * f))
      (readAt root offset len) := by
  have hr : 0 ≤ (len : ℤ) * ((levels + 1) * f) := by positivity
  refine .bind ((size_costs hf h0 root).mono le_rfl (by linarith)) fun _ _ => ?_
  refine .bind (.ensure _ _ le_rfl (by linarith)) fun _ _ => ?_
  exact (readFrom_costs hf h0 _ _ _ _ _ _).mono (by linarith) (by linarith)

variable {v : ℤ} {visit : Cid → Proc Error σ PUnit}

theorem lowest_costs (hv : ∀ cid, Costs Φ v 0 (visit cid))
    (hv0 : v ≤ 0) (k : Nat) (cid : Cid) (held within : Nat) :
    Costs Φ ((k + 1) * f + k * v) ((k + 1) * f) (lowest visit k cid held within) := by
  induction k generalizing cid held within with
  | zero =>
    refine .bind ((node_costs hf h0 cid).mono le_rfl (by simp)) fun _ _ => ?_
    refine .bind (.ofExcept _ le_rfl (by simp)) fun _ _ => ?_
    exact .pure _ (by simp)
  | succ k ih =>
    have hk : 0 ≤ (k : ℤ) * f := by positivity
    have hs : ((k + 1 : Nat) + 1 : ℤ) * f = k * f + f + f := by push_cast; ring
    have hw : ((k + 1 : Nat) : ℤ) * v = k * v + v := by push_cast; ring
    refine .bind ((node_costs hf h0 cid).mono le_rfl (by linarith)) fun _ _ => ?_
    refine .bind (.ofExcept _ le_rfl (by linarith)) fun _ _ => ?_
    refine .bind ((hv _).mono le_rfl (by linarith)) fun _ _ => ?_
    exact (ih _ _ _).mono (by linarith) (by linarith)

theorem eachChunk_costs {e : ℤ} {each : Nat → Bytes → Proc Error σ PUnit}
    (he : ∀ offset data, Costs Φ e 0 (each offset data)) (hpay : (levels + 1) * f + e ≤ 0)
    (root : Cid) : Costs Φ f ((levels + 2) * f) (eachChunk root each) := by
  have hl : 0 ≤ (levels : ℤ) * f := by positivity
  have hadd : ((levels : ℤ) + 2) * f = levels * f + f + f := by ring
  have chunks (total under : Nat) :
      Costs Φ 0 (levels * f + f) (chunksUnder each root total under) := by
    have hk := descent_le h0 total
    have down : Costs Φ (levels * f) (levels * f + f)
        (lowest (fun _ => pure ⟨⟩) (height total - 1) root total (under * span)) :=
      (lowest_costs hf h0 (fun _ => .pure _ le_rfl) le_rfl _ _ _ _).mono (by linarith) (by linarith)
    refine .bind down fun low ⟨s, t, hlow⟩ => ?_
    have one (q : Cid × Nat) :
        Costs Φ (f + e) f (chunkOf each (under * span) low.2 q.2 q.1) := by
      refine .bind (hf _) fun _ _ => .bind (.ensure _ _ le_rfl (by linarith)) fun _ _ => ?_
      exact (he _ _).mono (by linarith) (by linarith)
    refine (Costs.each (fun q _ => one q) (by linarith)).mono ?_ (by linarith)
    -- A node has a link at least, so its chunks pay for the way down to it.
    have hlen : (1 : ℤ) ≤ low.1.links.zipIdx.length := by
      rw [length_zipIdx]
      exact_mod_cast (lowest_links hlow).1
    nlinarith
  refine .bind ((size_costs hf h0 root).mono le_rfl (by linarith)) fun total _ => ?_
  split
  · refine .bind ((hf root).mono le_rfl (by linarith)) fun _ _ => ?_
    refine .bind ((he _ _).mono le_rfl (by linarith)) fun _ _ => ?_
    exact .pure _ (by linarith)
  · refine .bind ((Costs.each_free fun u _ => chunks total u).mono le_rfl (by linarith)) fun _ _ => ?_
    exact .pure _ (by linarith)

theorem walk_costs (hv : ∀ cid, Costs Φ v 0 (visit cid)) (hpay : f + v ≤ 0) (root : Cid) :
    Costs Φ (f + v) (levels * f) (walk root visit) := by
  have hl : f ≤ (levels : ℤ) * f := by
    have : (1 : ℤ) ≤ levels := by decide
    nlinarith
  have under (total under : Nat) : Costs Φ 0 (levels * f) (walkUnder visit root total under) := by
    have hk := descent_le h0 total
    refine .bind ((lowest_costs hf h0 hv (by linarith) _ _ _ _).mono le_rfl hk) fun low ⟨s, t, hlow⟩ => ?_
    have hdown : ((height total - 1 : Nat) + 1 : ℤ) * f + (height total - 1 : Nat) * v ≤ f := by
      nlinarith
    refine (Costs.each (fun cid _ => hv cid) (by linarith)).mono ?_ (by linarith)
    have hlen : (1 : ℤ) ≤ low.1.links.length := by exact_mod_cast (lowest_links hlow).1
    nlinarith
  refine .bind ((hv root).mono le_rfl (by linarith)) fun _ _ => ?_
  refine .bind ((size_costs hf h0 root).mono le_rfl (by linarith)) fun total _ => ?_
  split
  · exact .pure _ (by linarith)
  · refine .bind ((Costs.each_free fun u _ => under total u).mono le_rfl (by linarith)) fun _ _ => ?_
    exact .pure _ (by linarith)

end Costs

end Dag

namespace Tree

open Dag (Error levels)

section Costs
variable [Sha256] {B : Type} [BlockSource B]

section File
variable {σ : Type} [BlockSource σ] {Φ : σ → ℤ} {f v : ℤ}
  (hf : ∀ cid, Costs Φ f f (Dag.fetch cid)) (h0 : 0 ≤ f)

include hf h0

theorem entries_costs (cid : Cid) : Costs Φ f f (entries cid) := by
  unfold entries
  split
  · refine .bind (hf cid) fun data _ => ?_
    cases decode data with
    | ok | error => exact .pure _ (by linarith)
  · exact .pure _ h0

theorem file_costs {visit : Cid → Proc Error σ PUnit} (hv : ∀ cid, Costs Φ v 0 (visit cid))
    (hv0 : v ≤ 0) (hpay : f + v ≤ 0) (whole : Bool) (cid : Cid) :
    Costs Φ f (levels * f) (file whole visit cid) := by
  have hl : f ≤ (levels : ℤ) * f := by
    have : (1 : ℤ) ≤ levels := by decide
    nlinarith
  unfold file
  split
  · exact (Dag.walk_costs hf h0 hv hpay cid).mono (by linarith) le_rfl
  · exact (Dag.size_costs hf h0 cid).mono le_rfl hl

theorem fileAt_costs {visit : Cid → Proc Error σ PUnit} (hv : ∀ cid, Costs Φ v 0 (visit cid))
    (hv0 : v ≤ 0) (hpay : f + v ≤ 0) (whole : Bool) (cid : Cid) :
    Costs Φ f (levels * f + f) (fileAt whole visit cid) where
  value s n t h := (file_costs hf h0 hv hv0 hpay whole cid).value (fileAt_ok h)
  error s e t h := by
    have hc := file_costs hf h0 hv hv0 hpay whole cid
    unfold fileAt at h
    cases hr : (file whole visit cid).run s with
    | ok n m =>
      rw [bind_ok (attempt_ok hr)] at h
      exact nomatch h
    | error e' m =>
      rw [bind_ok (attempt_error hr)] at h
      have hm := hc.error hr
      change (if e' = .format then _ else _ : Proc Error σ Nat).run m = _ at h
      split at h
      · have hd := entries_costs hf h0 cid
        cases he : (entries cid).run m with
        | ok dir m' =>
          rw [bind_ok (attempt_ok he)] at h
          have := hd.value he
          cases dir <;> cases h <;> linarith
        | error e'' m' =>
          rw [bind_ok (attempt_error he)] at h
          have := hd.error he
          cases h
          linarith
      · cases h
        linarith

end File

variable {Φ : Counted B → ℤ} {f v st : ℤ}
  (hf : ∀ cid, Costs Φ f f (Dag.fetch cid)) (h0 : 0 ≤ f)
  (hst : Costs Φ st 0 (Counted.step : Proc Error (Counted B) PUnit)) (hpay : f + f + st ≤ 0)
  {visit : Cid → Proc Error (Counted B) PUnit}
  (hv : ∀ cid, Costs Φ v 0 (visit cid)) (hv0 : v ≤ 0) (hpayv : f + v ≤ 0)

include hf h0 hst hpay hv hv0 hpayv

theorem tourFrom_costs (whole : Bool) (rounds : Nat) (stack : List (Cid × Nat × Nat))
    (total : Nat) : Costs Φ (stack.length * f) (stack.length * f + (levels * f + f))
      (tourFrom whole visit rounds stack total) := by
  have hl : 0 ≤ (levels : ℤ) * f := by positivity
  induction rounds generalizing stack total with
  | zero => exact .throw _ (by positivity)
  | succ rounds ih =>
    rcases stack with _ | ⟨⟨cid, count, next⟩, above⟩
    · exact .pure _ (by simp)
    have ha : 0 ≤ (above.length : ℤ) * f := by positivity
    have hs : (((cid, count, next) :: above).length : ℤ) * f = above.length * f + f := by
      rw [length_cons]
      push_cast
      ring
    refine .bind ((hf cid).mono le_rfl (by linarith)) fun data _ => ?_
    refine .bind (.ofExcept _ le_rfl (by linarith)) fun dir _ => ?_
    refine .bind (.ensure _ _ le_rfl (by linarith)) fun _ _ => ?_
    rcases dir[next]? with _ | e
    · exact (ih above total).mono (by linarith) (by linarith)
    refine .bind (hst.mono le_rfl (by linarith)) fun _ _ => ?_
    cases e.kind with
    | file =>
      refine .bind ((fileAt_costs hf h0 hv hv0 hpayv whole e.cid).mono le_rfl (by linarith)) fun _ _ => ?_
      refine .bind (.ensure _ _ le_rfl (by linarith)) fun _ _ => ?_
      refine .bind (.ensure _ _ le_rfl (by linarith)) fun _ _ => ?_
      refine (ih _ _).mono ?_ ?_ <;> rw [length_cons] <;> push_cast <;> linarith
    | directory =>
      refine .bind (.ensure _ _ le_rfl (by linarith)) fun _ _ => ?_
      refine .bind ((hv e.cid).mono le_rfl (by linarith)) fun _ _ => ?_
      refine (ih _ _).mono ?_ ?_ <;> rw [length_cons, length_cons] <;> push_cast <;>
        linarith

end Costs

namespace Bounded

variable [Sha256] {B : Type} [BlockSource B]

theorem tourFrom_checked {visit : Cid → Proc Error (Counted B) PUnit}
    (hf : ∀ cid, Costs (fun s : Counted B => (s.left : ℤ)) 0 0 (Dag.fetch cid))
    (hv : ∀ cid, Costs (fun s : Counted B => (s.left : ℤ)) 0 0 (visit cid)) (whole : Bool)
    (rounds : Nat) (stack : List (Cid × Nat × Nat)) (total : Nat) {s : Counted B}
    (hdepth : stack.length ≤ depth) (hnext : ∀ d ∈ stack, d.2.2 ≤ d.2.1)
    (hr : 2 * s.left + stack.length < rounds) :
    Checked s (tourFrom whole visit rounds stack total)
      (Tree.tourFrom whole visit rounds stack total) := by
  induction rounds generalizing s stack total with
  | zero => omega
  | succ rounds ih =>
    rcases stack with _ | ⟨⟨cid, count, next⟩, above⟩
    · exact .pure _
    rw [length_cons] at hdepth hr
    have habove : ∀ d ∈ above, d.2.2 ≤ d.2.1 := fun d hd => hnext d (mem_cons_of_mem _ hd)
    have hle : next ≤ count := hnext (cid, count, next) mem_cons_self
    refine .bound (by omega) (.bind (Dag.Bounded.fetch_checked cid) fun data s₁ h₁ => ?_)
    have hs₁ := (hf cid).value h₁
    refine .bind (.refl _) fun dir s₂ h₂ => .bind (.ensure _ _) fun _ s₃ h₃ => ?_
    obtain ⟨_, rfl⟩ := ofExcept_run_ok h₂
    obtain ⟨hcount, rfl⟩ := ensure_run_ok h₃
    by_cases hend : next = dir.length
    · rw [if_pos hend, getElem?_eq_none (by omega)]
      exact ih above total (by omega) habove (by omega)
    have hlt : next < dir.length := by omega
    rw [if_neg hend, getElem?_eq_getElem hlt]
    refine .bind (.refl _) fun _ s₄ h₄ => ?_
    obtain ⟨hleft, rfl⟩ := Counted.step_ok h₄
    rw [Proc.orError_some, pure_bind]
    have hstack : ∀ d ∈ (cid, count, next + 1) :: above, d.2.2 ≤ d.2.1 := by
      intro d hd
      rcases mem_cons.mp hd with rfl | hd
      · simp only
        omega
      · exact habove d hd
    cases dir[next].kind with
    | file =>
      refine .bind (fileAt_checked whole visit _) fun held s₅ h₅ => ?_
      have hs₅ := (fileAt_costs hf le_rfl hv le_rfl le_rfl whole _).value h₅
      refine .bind (.ensure _ _) fun _ s₆ h₆ => .bind (.ensure _ _) fun _ s₇ h₇ => ?_
      obtain ⟨_, rfl⟩ := ensure_run_ok h₆
      obtain ⟨_, rfl⟩ := ensure_run_ok h₇
      refine ih _ _ (by simpa using hdepth) hstack ?_
      simp only [length_cons]
      simp only at hs₁ hs₅
      omega
    | directory =>
      refine .bind (.ensure_iff _ (by omega)) fun _ s₅ h₅ => .bind (.refl _) fun _ s₆ h₆ => ?_
      obtain ⟨hd, rfl⟩ := ensure_run_ok h₅
      have hs₆ := (hv _).value h₆
      refine .bound hd (ih _ _ hd ?_ ?_)
      · intro d hd
        rcases mem_cons.mp hd with rfl | hd
        · exact Nat.zero_le _
        · exact hstack d hd
      · simp only [length_cons]
        simp only at hs₁ hs₆
        omega

end Bounded

end Tree

end MindCore
