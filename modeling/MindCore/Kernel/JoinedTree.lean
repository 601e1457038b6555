import MindCore.Kernel.RevokeEnds

/-!
# The way up to the root of a revocation

`derive_refused` goes from a node up the parents it finds in the index. As long as no call lets go of
a ghost under the root of a revocation in progress, that way is whole: it leads over entries of
smaller depth up to the root.
-/

namespace MindCore.Kernel.Caps

open List

section Ways
variable {out roots : Nat → Prop} {s t : Caps} {x : Nat} {e : Entry}

/-- Over each entry with a parent is the root of a revocation, or an entry of smaller depth. -/
structure Joined (roots : Nat → Prop) (s : Caps) : Prop where
  depth : ∀ id e, s.index id = some e → e.depth ≤ deriveDepthMax ∧ (e.parent ≠ 0 → 0 < e.depth)
  way : ∀ id e, s.index id = some e → e.parent ≠ 0 →
    roots e.parent ∨ ∃ p, s.index e.parent = some p ∧ p.depth < e.depth

theorem Joined.drops (hj : Joined roots s) (hd : Drops x s t)
    (hlast : ∀ id f, s.index id = some f → f.parent ≠ 0 → f.parent = x → roots x) : Joined roots t := by
  refine ⟨?_, ?_⟩
  · intro id f hf
    obtain ⟨_, q, hq, hcut⟩ := hd.before hf
    rw [hcut.depth, hcut.parent]
    exact hj.depth id q hq
  · intro id f hf h0
    obtain ⟨_, q, hq, hcut⟩ := hd.before hf
    rw [hcut.parent] at h0 ⊢
    rcases hj.way id q hq h0 with hroot | ⟨p, hp, hlt⟩
    · exact .inl hroot
    · by_cases hx : q.parent = x
      · rw [hx]
        exact .inl (hlast id q hq h0 hx)
      · obtain ⟨p', hp', hcut'⟩ := hd.after hx hp
        exact .inr ⟨p', hp', by rw [hcut'.depth, hcut.depth]; exact hlt⟩

/-- Entries keep their parents and depths, and what is new is below an entry of smaller depth. -/
theorem Joined.carry (hj : Joined roots s)
    (hold : ∀ i p, s.index i = some p → ∃ p', t.index i = some p' ∧ p'.depth = p.depth)
    (hnew : ∀ i p', t.index i = some p' →
      (∃ p, s.index i = some p ∧ p'.parent = p.parent ∧ p'.depth = p.depth) ∨
      (p'.depth ≤ deriveDepthMax ∧ (p'.parent ≠ 0 → ∃ q, t.index p'.parent = some q ∧ q.depth < p'.depth))) :
    Joined roots t := by
  refine ⟨?_, ?_⟩
  · intro i p' hp'
    rcases hnew i p' hp' with ⟨p, hp, hpar, hdepth⟩ | ⟨hle, hway⟩
    · rw [hdepth, hpar]
      exact hj.depth i p hp
    · refine ⟨hle, fun h0 => ?_⟩
      obtain ⟨q, -, hlt⟩ := hway h0
      exact Nat.zero_lt_of_lt hlt
  · intro i p' hp' h0
    rcases hnew i p' hp' with ⟨p, hp, hpar, hdepth⟩ | ⟨-, hway⟩
    · rw [hpar] at h0 ⊢
      refine (hj.way i p hp h0).imp_right ?_
      rintro ⟨q, hq, hlt⟩
      obtain ⟨q', hq', hd⟩ := hold _ q hq
      exact ⟨q', hq', by rw [hd, hdepth]; exact hlt⟩
    · exact .inr (hway h0)

theorem Joined.grown (hj : Joined roots s) (hg : Grown s t) : Joined roots t := by
  refine hj.carry ?_ ?_
  · intro i p hp
    obtain ⟨p', hp', -, hd, -⟩ := hg.old hp
    exact ⟨p', hp', hd⟩
  · intro i p' hp'
    rcases hg.new hp' with ⟨hpar, hd, -⟩ | ⟨p, hp, hpar, hd, -⟩
    · exact .inr ⟨by rw [hd]; exact Nat.zero_le _, fun h0 => absurd hpar h0⟩
    · exact .inl ⟨p, hp, hpar, hd⟩

/-- What a walk has taken out from under `x` or under a node above it was under the root of a
revocation. -/
def Clear (out roots : Nat → Prop) (s : Caps) (x : Nat) : Prop := ∀ id, out id → s.born id ≠ 0 →
  s.born id = x ∨ Under s (s.born id) x → roots (s.born id)

theorem Clear.congr (h : Clear out roots s x) (hborn : t.born = s.born) : Clear out roots t x := by
  intro id hid h0 hup
  rw [hborn] at h0 hup ⊢
  exact h id hid h0 (hup.imp_right (under_congr hborn).mp)

theorem Kept.last (hk : Kept out s) (roots : Nat → Prop) (hx : s.index x = some e) (hnil : e.kids = [])
    (hout : ∀ id, out id → s.born id ≠ 0 → s.born id = x → roots x) :
    ∀ id f, s.index id = some f → f.parent ≠ 0 → f.parent = x → roots x := by
  intro id f hf h0 hpar
  rcases hk.linked id f hf h0 with ⟨p, hp, hmem⟩ | hid
  · rw [hpar, hx] at hp
    cases hp
    rw [hnil] at hmem
    cases hmem
  · rw [hk.entry id f hf] at h0 hpar
    exact hout id hid h0 hpar

theorem Joined.letGoOf (fuel : Nat) (hk : Kept out s) (hj : Joined roots s) (hc : Clear out roots s x) :
    Joined roots (Caps.letGoOf fuel x s) := by
  induction fuel generalizing x s with
  | zero => exact hj
  | succ fuel ih =>
    cases hx : s.index x with
    | none =>
      simp only [Caps.letGoOf, hx]
      exact hj
    | some e =>
      rw [letGoOf_some hx]
      split
      · exact hj
      rename_i hnot
      have hlast := hk.last roots hx (kids_nil_of_not_derived hnot) fun id hid h0 hb => hb ▸ hc id hid h0 (.inl hb)
      split
      · rename_i hghost
        have hborn : ((s.unlink x).put x none).born = s.born := (unlink_rest x s).born
        refine ih (hk.forgotten hx hnot (hk.filed.held_ghost hx hghost))
          (hj.drops (drops_unlink hk.kids hx) hlast) ?_
        -- What is above the parent of `x` is above `x`.
        intro id hid h0 hup
        rw [hborn] at h0 hup ⊢
        rw [hk.entry x e hx] at hup
        refine hc id hid h0 (.inr ?_)
        rcases hup with heq | hu
        · exact .child heq.symm h0
        · have hu' : Under s (s.born id) (s.born x) := (under_congr hborn).mp hu
          refine .step ?_ hu'
          intro hzero
          rw [hzero] at hu'
          exact absurd (hu'.lt hk.younger) (Nat.not_lt_zero _)
      split
      · rename_i hroot
        exact hj.drops (hk.filed.drops_root hx hroot).1 hlast
      · exact hj

end Ways

section Walking
variable {others roots : Nat → Prop} {j : Revocation} {s : Caps}

/-- A walk's stack from the node last pushed down to its root. -/
structure Ordered (root : Nat) (stack : List Nat) (s : Caps) : Prop where
  sorted : stack.Pairwise (· > ·)
  back : ∀ x ∈ stack, x ≠ root → s.born x ∈ stack

theorem Ordered.leave {top : Nat} {rest : List Nat} (h : Walks others j s) (ho : Ordered j.root j.stack s)
    (hstack : j.stack = top :: rest) : Ordered j.root rest (s.leave j.root top) := by
  rw [hstack] at ho
  refine ⟨(pairwise_cons.mp ho.sorted).2, ?_⟩
  intro x hx hne
  rw [(leave_rest j.root top s).born]
  have hlt : x < top := rel_of_pairwise_cons ho.sorted hx
  refine (mem_cons.mp (ho.back x (mem_cons_of_mem _ hx) hne)).resolve_left ?_
  intro heq
  have := h.kept.younger x (by omega)
  omega

theorem Joined.leave {top : Nat} {rest : List Nat} (h : Walks others j s) (ho : Ordered j.root j.stack s)
    (hj : Joined roots s) (hc : Clear others roots s j.root) (hstack : j.stack = top :: rest)
    (hkids : s.kidsOf top = []) : Joined roots (s.leave j.root top) := by
  rcases h.top hstack with ⟨rfl, rfl⟩ | ⟨htop, -⟩
  · rw [Caps.leave, if_pos rfl]
    refine hj.letGoOf _ h.kept ?_
    rintro id (⟨hmem, hne⟩ | hid)
    · rw [hstack, mem_singleton] at hmem
      exact absurd hmem hne
    · exact hc id hid
  · have hne : top ≠ j.root := Nat.ne_of_gt (htop.lt h.kept.younger)
    have hout : top ∈ j.stack ∧ top ≠ j.root := ⟨by rw [hstack]; exact mem_cons_self, hne⟩
    rw [Caps.leave, if_neg hne]
    refine hj.drops (drops_put (h.kept.away top (.inl hout)).2.2.2) ?_
    intro id f hf h0 hpar
    have hborn : s.born id = top := (h.kept.entry id f hf).symm.trans hpar
    have hlt := h.kept.younger id (by rw [← h.kept.entry id f hf]; exact h0)
    rcases h.kept.linked id f hf h0 with ⟨p, hp, hmem⟩ | ⟨hmem, -⟩ | hother
    · rw [hpar] at hp
      rw [kidsOf, hp] at hkids
      change p.kids = [] at hkids
      rw [hkids] at hmem
      cases hmem
    · -- Below `top` on the stack are older nodes only.
      rw [hstack] at hmem ho
      rcases mem_cons.mp hmem with rfl | hmem
      · omega
      · have := rel_of_pairwise_cons ho.sorted hmem
        omega
    · refine absurd ?_ (h.apart id hother)
      rw [← hborn] at htop
      exact .step (by rw [← h.kept.entry id f hf]; exact h0) htop

theorem Joined.visit {top kid : Nat} {ks : List Nat} (h : Walks others j s) (hj : Joined roots s)
    (hkids : s.kidsOf top = kid :: ks) : s.born kid = top ∧ top < kid ∧ Joined roots (s.visit kid) := by
  obtain ⟨p, hp, hmem⟩ := kidsOf_cons hkids
  obtain ⟨e, he, hpar⟩ := h.kept.kids top p hp kid hmem
  have hborn : s.born kid = top := (h.kept.entry kid e he).symm.trans hpar
  have hlt : top < kid := by
    have := h.kept.younger kid (by rw [hborn]; exact (h.kept.filed.lt_next hp).1)
    omega
  obtain ⟨hput, hback⟩ := visit_entries h.kept.kids he hpar hp (Nat.ne_of_gt hlt)
  refine ⟨hborn, hlt, hj.carry ?_ ?_⟩
  · intro i q hq
    obtain ⟨q', hq', -, hd, -⟩ := hback i q hq
    exact ⟨q', hq', hd⟩
  · intro i q' hq'
    obtain ⟨q, hq, hpar', hd, -⟩ := hput i q' hq'
    exact .inl ⟨q, hq, hpar', hd⟩

theorem walk_joined (fuel budget : Nat) (h : Walks others j s) (ho : Ordered j.root j.stack s)
    (hj : Joined roots s) (hc : Clear others roots s j.root) :
    Ordered j.root (walk fuel budget j s).1.stack (walk fuel budget j s).2 ∧
      Joined roots (walk fuel budget j s).2 := by
  induction fuel generalizing budget j s with
  | zero => exact ⟨ho, hj⟩
  | succ fuel ih =>
    rw [walk]
    split
    · exact ⟨ho, hj⟩
    cases hstack : j.stack with
    | nil =>
      simp only [hstack]
      exact ⟨hstack ▸ ho, hj⟩
    | cons top rest =>
      cases hkids : s.kidsOf top with
      | nil =>
        simp only [hkids]
        have ho' := Ordered.leave h ho hstack
        exact ih (j := { j with stack := rest }) budget (h.leave hstack hkids) ho'
          (Joined.leave h ho hj hc hstack hkids) (hc.congr (leave_rest _ _ s).born)
      | cons kid ks =>
        obtain ⟨hborn, hlt, hj'⟩ := Joined.visit h hj hkids
        have hborn' := (visit_rest kid s).2.1
        simp only [hkids]
        refine ih (budget - 1) (h.visit hstack hkids).2 ⟨?_, ?_⟩ hj' (hc.congr hborn')
        · rw [hstack] at ho
          refine pairwise_cons.mpr ⟨?_, ho.sorted⟩
          intro x hx
          rcases mem_cons.mp hx with rfl | hx
          · exact hlt
          · exact Nat.lt_trans (rel_of_pairwise_cons ho.sorted hx) hlt
        · intro x hx hne
          rw [hborn']
          rcases mem_cons.mp hx with rfl | hx
          · rw [hborn]
            exact mem_cons_of_mem _ mem_cons_self
          · exact mem_cons_of_mem _ (hstack ▸ ho.back x (hstack ▸ hx) hne)

theorem walk_rest (fuel budget : Nat) (j : Revocation) (s : Caps) : (walk fuel budget j s).1.root = j.root ∧
    (walk fuel budget j s).2.born = s.born ∧ (walk fuel budget j s).2.revoking = s.revoking ∧
    (walk fuel budget j s).2.jobs = s.jobs := by
  induction fuel generalizing budget j s with
  | zero => exact ⟨rfl, rfl, rfl, rfl⟩
  | succ fuel ih =>
    rw [walk]
    split
    · exact ⟨rfl, rfl, rfl, rfl⟩
    cases hstack : j.stack with
    | nil => exact ⟨rfl, rfl, rfl, rfl⟩
    | cons top rest =>
      cases hkids : s.kidsOf top with
      | nil =>
        obtain ⟨h₁, h₂, h₃, h₄⟩ := ih budget { j with stack := rest } (s.leave j.root top)
        obtain ⟨-, l₂, -, -, l₅, l₆⟩ := leave_rest j.root top s
        simp only [hkids]
        exact ⟨h₁, h₂.trans l₂, h₃.trans l₅, h₄.trans l₆⟩
      | cons kid ks =>
        obtain ⟨h₁, h₂, h₃, h₄⟩ := ih (budget - 1) { j with stack := kid :: top :: rest } (s.visit kid)
        obtain ⟨-, v₂, -, -, v₅, v₆⟩ := visit_rest kid s
        simp only [hkids]
        exact ⟨h₁, h₂.trans v₂, h₃.trans v₅, h₄.trans v₆⟩

end Walking

end MindCore.Kernel.Caps
