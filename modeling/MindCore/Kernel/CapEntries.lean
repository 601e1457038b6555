import MindCore.Kernel.CapTree

/-!
# The entries of the derivation tree

What each operation of the tree does to the entries of its index: an entry goes, becomes a ghost,
comes with a child of its parent or loses a child from its list.
-/

namespace MindCore.Kernel.Caps

open List

variable {i : Nat} {j : Revocation}

variable {a b x kid top : Nat} {p e : Entry} {rest : List Nat}

structure Cut (x : Nat) (p p' : Entry) : Prop where
  parent : p'.parent = p.parent
  depth : p'.depth = p.depth
  ghost : p'.ghost = p.ghost
  kids : ∀ k, k ∈ p'.kids ↔ k ∈ p.kids ∧ k ≠ x

structure Drops (x : Nat) (s t : Caps) : Prop where
  gone : t.index x = none
  others : ∀ i, i ≠ x → (s.index i = none ∧ t.index i = none) ∨
    ∃ p p', s.index i = some p ∧ t.index i = some p' ∧ Cut x p p'
  held : t.held = s.held
  born : t.born = s.born
  next : t.next = s.next

theorem Drops.before {s t : Caps} (h : Drops x s t) {p' : Entry}
    (hi : t.index i = some p') : i ≠ x ∧ ∃ p, s.index i = some p ∧ Cut x p p' := by
  have hne : i ≠ x := by
    rintro rfl
    rw [h.gone] at hi
    cases hi
  refine ⟨hne, ?_⟩
  rcases h.others i hne with ⟨_, hnone⟩ | ⟨p, q, hp, hq, hcut⟩
  · rw [hnone] at hi
    cases hi
  · rw [hq] at hi
    cases hi
    exact ⟨p, hp, hcut⟩

theorem Drops.after {s t : Caps} (h : Drops x s t) (hne : i ≠ x)
    (hi : s.index i = some p) : ∃ p', t.index i = some p' ∧ Cut x p p' := by
  rcases h.others i hne with ⟨hnone, _⟩ | ⟨q, p', hq, hp', hcut⟩
  · rw [hnone] at hi
    cases hi
  · rw [hq] at hi
    cases hi
    exact ⟨p', hp', hcut⟩

variable {s t : Caps}

/-- What the index and the slots agree on, whatever a walk has taken out. -/
structure Filed (s : Caps) : Prop where
  zero : s.index 0 = none ∧ s.held 0 = false ∧ 0 < s.next
  fresh : ∀ id, s.next ≤ id → s.index id = none ∧ s.held id = false
  entry : ∀ id e, s.index id = some e → e.parent = s.born id
  held : ∀ id, s.held id = true → s.born id ≠ 0 → ∃ e, s.index id = some e ∧ e.ghost = false
  kids : ∀ q p, s.index q = some p → ∀ k ∈ p.kids, ∃ e, s.index k = some e ∧ e.parent = q

theorem Filed.lt_next (hf : Filed s) (hp : s.index i = some p) : i ≠ 0 ∧ i < s.next := by
  constructor
  · rintro rfl
    rw [hf.zero.1] at hp
    cases hp
  · by_contra h
    rw [(hf.fresh i (Nat.not_lt.mp h)).1] at hp
    cases hp

theorem Filed.held_ghost (hf : Filed s) (hx : s.index x = some e)
    (hghost : e.ghost = true) (hheld : s.held x = true) : s.born x = 0 := by
  by_contra hborn
  obtain ⟨f, hf', hlive⟩ := hf.held x hheld hborn
  rw [hx] at hf'
  cases hf'
  rw [hghost] at hlive
  cases hlive

/-- Entries that go or change, without a new one, keep it. -/
theorem Filed.carry (hf : Filed s) (gone : Nat → Prop) (hnext : t.next = s.next) (hborn : t.born = s.born)
    (hheld : ∀ i, t.held i = true → s.held i = true ∧ (s.born i ≠ 0 → ¬gone i))
    (hput : ∀ i q', t.index i = some q' → ∃ q, s.index i = some q ∧ q'.parent = q.parent ∧
      ∀ k ∈ q'.kids, k ∈ q.kids ∧ ¬gone k)
    (hback : ∀ i q, s.index i = some q → ¬gone i → ∃ q', t.index i = some q' ∧ q'.parent = q.parent ∧
      (t.held i = true → q'.ghost = q.ghost)) : Filed t := by
  have hnone : ∀ i, s.index i = none → t.index i = none := by
    intro i h
    cases h' : t.index i with
    | none => rfl
    | some q' =>
      obtain ⟨q, hq, -⟩ := hput i q' h'
      rw [h] at hq
      cases hq
  have hfree : ∀ i, s.held i = false → t.held i = false := by
    intro i h
    by_contra h'
    rw [(hheld i (by simpa using h')).1] at h
    cases h
  refine ⟨⟨hnone 0 hf.zero.1, hfree 0 hf.zero.2.1, by rw [hnext]; exact hf.zero.2.2⟩, ?_, ?_, ?_, ?_⟩
  · intro i h
    rw [hnext] at h
    exact ⟨hnone i (hf.fresh i h).1, hfree i (hf.fresh i h).2⟩
  · intro i q' h
    obtain ⟨q, hq, hpar, -⟩ := hput i q' h
    rw [hpar, hborn]
    exact hf.entry i q hq
  · intro i h hb
    rw [hborn] at hb
    obtain ⟨h', hgone⟩ := hheld i h
    obtain ⟨q, hq, hlive⟩ := hf.held i h' hb
    obtain ⟨q', hq', -, hghost⟩ := hback i q hq (hgone hb)
    exact ⟨q', hq', (hghost h).trans hlive⟩
  · intro i q' h k hk
    obtain ⟨q, hq, -, hkids⟩ := hput i q' h
    obtain ⟨hmem, hgone⟩ := hkids k hk
    obtain ⟨f, hkid, hpar⟩ := hf.kids i q hq k hmem
    obtain ⟨f', hkid', hpar', -⟩ := hback k f hkid hgone
    exact ⟨f', hkid', hpar'.trans hpar⟩

theorem Filed.drops (hf : Filed s) (hd : Drops x s t) (hheld : s.held x = true → s.born x = 0) : Filed t := by
  refine hf.carry (· = x) hd.next hd.born ?_ ?_ ?_
  · intro i h
    rw [hd.held] at h
    refine ⟨h, fun hb => ?_⟩
    rintro rfl
    exact hb (hheld h)
  · intro i q' h
    obtain ⟨_, q, hq, hcut⟩ := hd.before h
    exact ⟨q, hq, hcut.parent, fun k hk => (hcut.kids k).mp hk⟩
  · intro i q h hne
    obtain ⟨q', hq', hcut⟩ := hd.after hne h
    exact ⟨q', hq', hcut.parent, fun _ => hcut.ghost⟩

theorem Cut.refl (h : x ∉ p.kids) : Cut x p p := by
  refine ⟨rfl, rfl, rfl, fun k => ⟨fun hk => ⟨hk, ?_⟩, And.left⟩⟩
  rintro rfl
  exact h hk

theorem drops_put (h : ∀ i p, s.index i = some p → x ∉ p.kids) : Drops x s (s.put x none) where
  gone := if_pos rfl
  others := by
    intro i hne
    change (_ ∧ (if i = x then none else s.index i) = none) ∨
      ∃ p p', _ ∧ (if i = x then none else s.index i) = some p' ∧ _
    rw [if_neg hne]
    cases hp : s.index i with
    | none => exact .inl ⟨rfl, rfl⟩
    | some p => exact .inr ⟨p, p, rfl, rfl, .refl (h i p hp)⟩
  held := rfl
  born := rfl
  next := rfl

theorem drops_unlink (hkids : ∀ q p, s.index q = some p → ∀ k ∈ p.kids, ∃ e, s.index k = some e ∧ e.parent = q)
    (hx : s.index x = some e) : Drops x s ((s.unlink x).put x none) := by
  have honly : ∀ i p, s.index i = some p → i ≠ e.parent → x ∉ p.kids := by
    intro i p hp hne hmem
    obtain ⟨f, hf, hparent⟩ := hkids i p hp x hmem
    rw [hx] at hf
    cases hf
    exact hne hparent.symm
  cases hp : s.index e.parent with
  | none =>
    have hsame : s.unlink x = s := by simp only [unlink, hx, unlinkFrom, hp]
    rw [hsame]
    refine drops_put fun i p hip => honly i p hip ?_
    rintro rfl
    rw [hp] at hip
    cases hip
  | some q =>
    have hcut : s.unlink x = s.put e.parent (some { q with kids := q.kids.filter (· ≠ x) }) := by
      simp only [unlink, hx, unlinkFrom, hp]
    rw [hcut]
    refine ⟨if_pos rfl, ?_, rfl, rfl, rfl⟩
    intro i hne
    change (_ ∧ (if i = x then none else if i = e.parent then _ else s.index i) = none) ∨
      ∃ p p', _ ∧ (if i = x then none else if i = e.parent then _ else s.index i) = some p' ∧ _
    rw [if_neg hne]
    by_cases hpar : i = e.parent
    · rw [if_pos hpar, hpar]
      refine .inr ⟨q, _, hp, rfl, rfl, rfl, rfl, ?_⟩
      intro k
      simp [mem_filter]
    · rw [if_neg hpar]
      cases hip : s.index i with
      | none => exact .inl ⟨rfl, rfl⟩
      | some p => exact .inr ⟨p, p, rfl, rfl, .refl (honly i p hip hpar)⟩

theorem kids_nil_of_not_derived (h : ¬s.Derived x e) : e.kids = [] := by
  by_contra hk
  exact h (.inl hk)

theorem letGoOf_some {id : Nat} (he : s.index id = some e) (fuel : Nat) :
    Caps.letGoOf (fuel + 1) id s = if s.Derived id e then s
      else if e.ghost = true then Caps.letGoOf fuel e.parent ((s.unlink id).put id none)
      else if e.parent = 0 then s.put id none else s := by
  simp only [Caps.letGoOf, he]

theorem letGoOf_induct {P : Caps → Prop} (hghost : ∀ s x e, P s → s.index x = some e → ¬s.Derived x e →
      e.ghost = true → P ((s.unlink x).put x none))
    (hroot : ∀ s x e, P s → s.index x = some e → ¬s.Derived x e → e.parent = 0 → P (s.put x none))
    (h : P s) (fuel id : Nat) : P (letGoOf fuel id s) := by
  induction fuel generalizing id s with
  | zero => exact h
  | succ fuel ih =>
    cases he : s.index id with
    | none =>
      have hsame : Caps.letGoOf (fuel + 1) id s = s := by simp only [Caps.letGoOf, he]
      rw [hsame]
      exact h
    | some e =>
      rw [letGoOf_some he]
      split
      · exact h
      rename_i hnot
      split
      · exact ih (hghost s id e h he hnot ‹_›) _
      split
      · exact hroot s id e h he hnot ‹_›
      · exact h

theorem Filed.drops_root (hf : Filed s) (hx : s.index x = some e) (hroot : e.parent = 0) :
    Drops x s (s.put x none) ∧ s.born x = 0 := by
  refine ⟨drops_put ?_, by rw [← hf.entry x e hx, hroot]⟩
  intro i p hp hmem
  obtain ⟨f, hf', hparent⟩ := hf.kids i p hp x hmem
  rw [hx] at hf'
  cases hf'
  rw [← hparent, hroot, hf.zero.1] at hp
  cases hp

theorem held_of_letGo {y : Nat} (h : (s.letGo y).held i = true) : s.held i = true := by
  change (if i = y then false else s.held i) = true at h
  split at h
  · cases h
  · exact h

theorem letGo_false {y : Nat} (h : s.held i = false) : (s.letGo y).held i = false := by
  change (if i = y then false else s.held i) = false
  split
  · rfl
  · exact h

theorem letGo_held (id : Nat) : (s.letGo id).held id = false := if_pos rfl

/-- `t` differs from `s` in its index alone. -/
structure Reindexed (s t : Caps) : Prop where
  held : t.held = s.held
  born : t.born = s.born
  next : t.next = s.next
  mapped : t.mapped = s.mapped
  revoking : t.revoking = s.revoking
  jobs : t.jobs = s.jobs

theorem Reindexed.refl (s : Caps) : Reindexed s s := ⟨rfl, rfl, rfl, rfl, rfl, rfl⟩

theorem Reindexed.trans {u : Caps} (h : Reindexed s t) (h' : Reindexed t u) : Reindexed s u :=
  ⟨h'.held.trans h.held, h'.born.trans h.born, h'.next.trans h.next, h'.mapped.trans h.mapped,
    h'.revoking.trans h.revoking, h'.jobs.trans h.jobs⟩

theorem Reindexed.put (h : Reindexed s t) (id : Nat) (o : Option Entry) : Reindexed s (t.put id o) :=
  ⟨h.held, h.born, h.next, h.mapped, h.revoking, h.jobs⟩

theorem unlink_rest (id : Nat) (s : Caps) : Reindexed s (s.unlink id) := by
  rw [unlink]
  split
  · exact .refl s
  · rw [unlinkFrom]
    split
    · exact .refl s
    · exact (Reindexed.refl s).put _ _

theorem letGoOf_rest (fuel id : Nat) (s : Caps) : Reindexed s (Caps.letGoOf fuel id s) := by
  refine letGoOf_induct (P := Reindexed s) ?_ ?_ (.refl s) fuel id
  · intro t x _ h _ _ _
    exact (h.trans (unlink_rest x t)).put x none
  · intro t x _ h _ _ _
    exact h.put x none

theorem leave_rest (root top : Nat) (s : Caps) : Reindexed s (s.leave root top) := by
  rw [Caps.leave]
  split
  · exact letGoOf_rest _ _ s
  · exact (Reindexed.refl s).put top none

theorem forget_rest (id : Nat) (s : Caps) : Reindexed s (Caps.forget id s) := by
  rw [Caps.forget]
  split
  · exact .refl s
  · split
    · exact (Reindexed.refl s).put _ _
    · exact ((unlink_rest id s).put id none).trans (letGoOf_rest _ _ _)

theorem sweep_rest (ids : List Nat) (s : Caps) :
    Reindexed s (ids.foldl (fun s id => Caps.letGoOf (id + 1) id s) s) := by
  induction ids generalizing s with
  | nil => exact .refl s
  | cons id ids ih => exact (letGoOf_rest (id + 1) id s).trans (ih _)

theorem enter_rest (id parent : Nat) (s : Caps) : Reindexed s (s.enter id parent) := by
  simp only [enter]
  split
  · exact (Reindexed.refl s).put _ _
  · rw [link]
    split
    · exact (Reindexed.refl s).put _ _
    · exact ((Reindexed.refl s).put _ _).put _ _

theorem enterSource_rest (src : Nat) (s : Caps) : Reindexed s (s.enterSource src) := by
  rw [enterSource]
  split
  · exact enter_rest _ _ s
  · exact .refl s

theorem put_ghost_old (hx : s.index x = some e) {p' : Entry}
    (h : (s.put x (some { e with ghost := true })).index i = some p') :
    ∃ p, s.index i = some p ∧ p'.parent = p.parent ∧ p'.depth = p.depth ∧ p'.kids = p.kids := by
  change (if i = x then _ else s.index i) = _ at h
  split at h
  · rename_i heq
    cases h
    exact ⟨e, heq ▸ hx, rfl, rfl, rfl⟩
  · exact ⟨p', h, rfl, rfl, rfl⟩

theorem put_ghost_new (hx : s.index x = some e) (h : s.index i = some p) :
    ∃ p', (s.put x (some { e with ghost := true })).index i = some p' ∧ p'.parent = p.parent ∧
      p'.depth = p.depth ∧ p'.kids = p.kids ∧ (p.ghost = true → p'.ghost = true) := by
  by_cases heq : i = x
  · refine ⟨{ e with ghost := true }, if_pos heq, ?_⟩
    rw [heq, hx] at h
    cases h
    exact ⟨rfl, rfl, rfl, fun _ => rfl⟩
  · exact ⟨p, (if_neg heq).trans h, rfl, rfl, rfl, fun h => h⟩

theorem Filed.haunt (hf : Filed s) (hx : s.index x = some e) (hheld : s.held x = false) :
    Filed (s.put x (some { e with ghost := true })) := by
  refine hf.carry (fun _ => False) rfl rfl (fun i h => ⟨h, fun _ => not_false⟩) ?_ ?_
  · intro i p' h
    obtain ⟨p, hp, hpar, -, hkids⟩ := put_ghost_old hx h
    exact ⟨p, hp, hpar, fun k hk => ⟨hkids ▸ hk, not_false⟩⟩
  · intro i p h _
    obtain ⟨p', hp', hpar, -⟩ := put_ghost_new hx h
    by_cases heq : i = x
    · refine ⟨p', hp', hpar, fun hh => ?_⟩
      rw [heq] at hh
      cases hheld.symm.trans hh
    · exact ⟨p, (if_neg heq).trans h, rfl, fun _ => rfl⟩

/-- An entry becomes a ghost or a root is put in; what else is there keeps its parent and its children. -/
structure Grown (s t : Caps) : Prop where
  old : ∀ {i p}, s.index i = some p → ∃ p', t.index i = some p' ∧ p'.parent = p.parent ∧ p'.depth = p.depth ∧
    p'.kids = p.kids ∧ (p.ghost = true → p'.ghost = true)
  new : ∀ {i p'}, t.index i = some p' → (p'.parent = 0 ∧ p'.depth = 0 ∧ p'.kids = []) ∨
    ∃ p, s.index i = some p ∧ p'.parent = p.parent ∧ p'.depth = p.depth ∧ p'.kids = p.kids

theorem grown_ghost (hx : s.index x = some e) : Grown s (s.put x (some { e with ghost := true })) :=
  ⟨put_ghost_new hx, fun h => .inr (put_ghost_old hx h)⟩

theorem forget_none (h : s.index x = none) : Caps.forget x s = s := by simp only [Caps.forget, h]

theorem forget_some (h : s.index x = some e) :
    Caps.forget x s = if s.Derived x e then s.put x (some { e with ghost := true })
      else Caps.letGoOf x e.parent ((s.unlink x).put x none) := by
  simp only [Caps.forget, h]

theorem put_root_cases (h : (s.put x (some ⟨0, 0, false, []⟩)).index i = some p) :
    (i = x ∧ p = ⟨0, 0, false, []⟩) ∨ s.index i = some p := by
  change (if i = x then _ else s.index i) = _ at h
  split at h
  · rename_i heq
    exact .inl ⟨heq, (Option.some.inj h).symm⟩
  · exact .inr h

theorem put_root_old (hx : s.index x = none) (h : s.index i = some p) :
    (s.put x (some ⟨0, 0, false, []⟩)).index i = some p := by
  refine (if_neg ?_).trans h
  rintro rfl
  rw [hx] at h
  cases h

theorem Filed.enterRoot (hf : Filed s) (hx : s.index x = none) (hborn : s.born x = 0)
    (h0 : x ≠ 0) (hlt : x < s.next) : Filed (s.put x (some ⟨0, 0, false, []⟩)) := by
  refine ⟨⟨(if_neg (Ne.symm h0)).trans hf.zero.1, hf.zero.2⟩, ?_, ?_, ?_, ?_⟩
  · intro i h
    refine ⟨(if_neg ?_).trans (hf.fresh i h).1, (hf.fresh i h).2⟩
    rintro rfl
    exact absurd h (Nat.not_le.mpr hlt)
  · intro i p h
    rcases put_root_cases h with ⟨rfl, rfl⟩ | h
    · exact hborn.symm
    · exact hf.entry i p h
  · intro i h hb
    obtain ⟨p, hp, hlive⟩ := hf.held i h hb
    exact ⟨p, put_root_old hx hp, hlive⟩
  · intro q p h k hk
    rcases put_root_cases h with ⟨rfl, rfl⟩ | h
    · cases hk
    · obtain ⟨f, hkid, hpar⟩ := hf.kids q p h k hk
      exact ⟨f, put_root_old hx hkid, hpar⟩

theorem grown_root (hx : s.index x = none) : Grown s (s.put x (some ⟨0, 0, false, []⟩)) where
  old h := ⟨_, put_root_old hx h, rfl, rfl, rfl, fun h => h⟩
  new h := by
    rcases put_root_cases h with ⟨-, rfl⟩ | h
    · exact .inl ⟨rfl, rfl, rfl⟩
    · exact .inr ⟨_, h, rfl, rfl, rfl⟩

variable {src : Nat}

theorem bear_index (hp : s.index src = some p) (h0 : src ≠ 0)
    (hlt : src < s.next) (i : Nat) : (s.bear src).index i =
      if i = src then some { p with kids := s.next :: p.kids }
      else if i = s.next then some ⟨src, p.depth + 1, false, []⟩ else s.index i := by
  have hd : s.depthUnder src = p.depth + 1 := by
    simp only [depthUnder, if_neg h0, hp, Option.map_some, Option.getD_some]
  have hsrc : (s.put s.next (some ⟨src, p.depth + 1, false, []⟩)).index src = some p :=
    (if_neg (Nat.ne_of_lt hlt)).trans hp
  simp only [Caps.bear, enter, if_neg h0, link, hd, hsrc]
  rfl

/-- With the child comes one entry, and the source has one child more. -/
theorem Filed.bear_entries (hf : Filed s) (hp : s.index src = some p) :
    (∀ i q, (s.bear src).index i = some q → (i = s.next ∧ q = ⟨src, p.depth + 1, false, []⟩) ∨
      ∃ q₀, s.index i = some q₀ ∧ q.parent = q₀.parent ∧ q.depth = q₀.depth ∧
        ∀ k ∈ q.kids, (i = src ∧ k = s.next) ∨ k ∈ q₀.kids) ∧
    (∀ i q, s.index i = some q → i ≠ s.next ∧ ∃ q', (s.bear src).index i = some q' ∧
      q'.parent = q.parent ∧ q'.depth = q.depth ∧ q'.ghost = q.ghost ∧ ∀ k ∈ q.kids, k ∈ q'.kids) ∧
    (s.bear src).index s.next = some ⟨src, p.depth + 1, false, []⟩ ∧
    (s.bear src).index src = some { p with kids := s.next :: p.kids } := by
  obtain ⟨h0, hlt⟩ := hf.lt_next hp
  have hindex := bear_index hp h0 hlt
  refine ⟨?_, ?_, ?_, ?_⟩
  · intro i q h
    rw [hindex i] at h
    split at h
    · rename_i heq
      cases h
      refine .inr ⟨p, heq ▸ hp, rfl, rfl, ?_⟩
      intro k hmem
      exact (mem_cons.mp hmem).imp_left fun h => ⟨heq, h⟩
    · split at h
      · exact .inl ⟨‹_›, (Option.some.inj h).symm⟩
      · exact .inr ⟨q, h, rfl, rfl, fun k hmem => .inr hmem⟩
  · intro i q h
    have hne := Nat.ne_of_lt (hf.lt_next h).2
    refine ⟨hne, ?_⟩
    rw [hindex i]
    split
    · rename_i heq
      rw [heq, hp] at h
      cases h
      exact ⟨_, rfl, rfl, rfl, rfl, fun k hmem => mem_cons_of_mem _ hmem⟩
    · exact ⟨q, h, rfl, rfl, rfl, fun _ hmem => hmem⟩
  · rw [hindex, if_neg (Nat.ne_of_gt hlt), if_pos rfl]
  · rw [hindex, if_pos rfl]

theorem bear_born_of_ne (hne : i ≠ s.next) : (s.bear src).born i = s.born i := if_neg hne

theorem bear_held_of_ne (hne : i ≠ s.next) : (s.bear src).held i = s.held i := if_neg hne

theorem Filed.bear (hf : Filed s) (hp : s.index src = some p) : Filed (s.bear src) := by
  obtain ⟨hput, hback, hnew, -⟩ := hf.bear_entries hp
  obtain ⟨h0, hlt⟩ := hf.lt_next hp
  have hindex := bear_index hp h0 hlt
  refine ⟨?_, ?_, ?_, ?_, ?_⟩
  · have hn : (0 : Nat) ≠ s.next := Nat.ne_of_lt hf.zero.2.2
    refine ⟨?_, (bear_held_of_ne hn).trans hf.zero.2.1, Nat.succ_pos _⟩
    rw [hindex, if_neg (Ne.symm h0), if_neg hn]
    exact hf.zero.1
  · intro i h
    have hle : s.next + 1 ≤ i := h
    refine ⟨?_, (bear_held_of_ne (by omega)).trans (hf.fresh i (by omega)).2⟩
    rw [hindex, if_neg (by omega), if_neg (by omega)]
    exact (hf.fresh i (by omega)).1
  · intro i q h
    rcases hput i q h with ⟨rfl, rfl⟩ | ⟨q₀, hq₀, hpar, -⟩
    · exact (if_pos rfl).symm
    · rw [hpar, bear_born_of_ne (hback i q₀ hq₀).1]
      exact hf.entry i q₀ hq₀
  · intro i h hb
    by_cases heq : i = s.next
    · rw [heq]
      exact ⟨_, hnew, rfl⟩
    · rw [bear_held_of_ne heq] at h
      rw [bear_born_of_ne heq] at hb
      obtain ⟨q, hq, hlive⟩ := hf.held i h hb
      obtain ⟨-, q', hq', -, -, hghost, -⟩ := hback i q hq
      exact ⟨q', hq', hghost.trans hlive⟩
  · intro i q h k hmem
    rcases hput i q h with ⟨rfl, rfl⟩ | ⟨q₀, hq₀, -, -, hkids⟩
    · cases hmem
    · rcases hkids k hmem with ⟨rfl, rfl⟩ | hmem
      · exact ⟨_, hnew, rfl⟩
      · obtain ⟨f, hkid, hpar⟩ := hf.kids i q₀ hq₀ k hmem
        obtain ⟨-, f', hkid', hpar', -⟩ := hback k f hkid
        exact ⟨f', hkid', hpar'.trans hpar⟩

theorem visit_index (he : s.index kid = some e)
    (hparent : e.parent = top) (hp : s.index top = some p) (hne : kid ≠ top) (i : Nat) :
    (s.visit kid).index i = if i = kid then some { e with ghost := true }
      else if i = top then some { p with kids := p.kids.filter (· ≠ kid) } else s.index i := by
  have hcut : s.unlink kid = s.put top (some { p with kids := p.kids.filter (· ≠ kid) }) := by
    simp only [unlink, he, unlinkFrom, hparent, hp]
  have hkid : (s.unlink kid).index kid = some e := by
    rw [hcut]
    exact (if_neg hne).trans he
  have hvisit : (s.visit kid).index i = if i = kid then some { e with ghost := true }
      else (s.unlink kid).index i := by
    simp only [Caps.visit, Caps.letGo, hkid]
    rfl
  rw [hvisit, hcut]
  rfl

theorem visit_rest (kid : Nat) (s : Caps) : (s.visit kid).held = (s.letGo kid).held ∧
    (s.visit kid).born = s.born ∧ (s.visit kid).next = s.next ∧
    (s.visit kid).mapped = (fun i => if i = kid then false else s.mapped i) ∧
    (s.visit kid).revoking = s.revoking ∧ (s.visit kid).jobs = s.jobs := by
  obtain ⟨h₁, h₂, h₃, h₄, h₅, h₆⟩ := unlink_rest kid s
  have hput : (s.visit kid).held = ((s.unlink kid).letGo kid).held ∧
      (s.visit kid).born = (s.unlink kid).born ∧ (s.visit kid).next = (s.unlink kid).next ∧
      (s.visit kid).mapped = (fun i => if i = kid then false else (s.unlink kid).mapped i) ∧
      (s.visit kid).revoking = (s.unlink kid).revoking ∧ (s.visit kid).jobs = (s.unlink kid).jobs := by
    simp only [Caps.visit]
    split
    · exact ⟨rfl, rfl, rfl, rfl, rfl, rfl⟩
    · exact ⟨rfl, rfl, rfl, rfl, rfl, rfl⟩
  rw [h₂, h₃, h₄, h₅, h₆] at hput
  refine ⟨hput.1.trans ?_, hput.2⟩
  simp only [Caps.letGo, h₁]

/-- After a visit each entry is as it was but for `kid` among its children, and `kid` is a ghost. -/
theorem visit_entries (hkids : ∀ q p, s.index q = some p → ∀ k ∈ p.kids, ∃ e, s.index k = some e ∧ e.parent = q)
    (he : s.index kid = some e) (hparent : e.parent = top)
    (hp : s.index top = some p) (hne : kid ≠ top) :
    (∀ i q', (s.visit kid).index i = some q' → ∃ q, s.index i = some q ∧
      q'.parent = q.parent ∧ q'.depth = q.depth ∧ (i ≠ kid → q'.ghost = q.ghost) ∧
      (i = kid → q'.ghost = true) ∧ ∀ k, k ∈ q'.kids ↔ k ∈ q.kids ∧ k ≠ kid) ∧
    ∀ i q, s.index i = some q → ∃ q', (s.visit kid).index i = some q' ∧
      q'.parent = q.parent ∧ q'.depth = q.depth ∧ (i ≠ kid → q'.ghost = q.ghost) ∧
      (i = kid → q'.ghost = true) := by
  have hindex := visit_index he hparent hp hne
  refine ⟨?_, ?_⟩
  · intro i q' h
    rw [hindex i] at h
    have hnot : ∀ q, s.index i = some q → i ≠ top → ∀ k, k ∈ q.kids ↔ k ∈ q.kids ∧ k ≠ kid := by
      intro q hq hne' k
      refine ⟨fun hk => ⟨hk, ?_⟩, And.left⟩
      rintro rfl
      obtain ⟨f, hf, hpar⟩ := hkids i q hq k hk
      rw [he] at hf
      cases hf
      exact hne' (hpar.symm.trans hparent)
    split at h
    · rename_i heq
      cases h
      refine ⟨e, heq ▸ he, rfl, rfl, fun hne' => absurd heq hne', fun _ => rfl, ?_⟩
      exact hnot e (heq ▸ he) (by rw [heq]; exact hne)
    · rename_i hkid
      split at h
      · rename_i heq
        cases h
        refine ⟨p, heq ▸ hp, rfl, rfl, fun _ => rfl, fun h => absurd h hkid, ?_⟩
        intro k
        simp [mem_filter]
      · rename_i htop
        exact ⟨q', h, rfl, rfl, fun _ => rfl, fun h => absurd h hkid, hnot q' h htop⟩
  · intro i q h
    rw [hindex i]
    split
    · rename_i heq
      rw [heq, he] at h
      cases h
      exact ⟨_, rfl, rfl, rfl, fun hne' => absurd heq hne', fun _ => rfl⟩
    · rename_i hkid
      split
      · rename_i heq
        rw [heq, hp] at h
        cases h
        exact ⟨_, rfl, rfl, rfl, fun _ => rfl, fun h => absurd h hkid⟩
      · exact ⟨q, h, rfl, rfl, fun _ => rfl, fun h => absurd h hkid⟩

theorem kidsOf_cons {top kid : Nat} {ks : List Nat} (hkids : s.kidsOf top = kid :: ks) :
    ∃ p, s.index top = some p ∧ kid ∈ p.kids := by
  cases hp : s.index top with
  | none =>
    rw [kidsOf, hp] at hkids
    cases hkids
  | some p =>
    rw [kidsOf, hp] at hkids
    change p.kids = _ at hkids
    exact ⟨p, rfl, by rw [hkids]; exact mem_cons_self⟩

theorem Filed.visit (hf : Filed s) (he : s.index kid = some e) (hparent : e.parent = top)
    (hp : s.index top = some p) (hne : kid ≠ top) : Filed (s.visit kid) := by
  obtain ⟨hput, hback⟩ := visit_entries hf.kids he hparent hp hne
  obtain ⟨hheld, hborn, hnext, -⟩ := visit_rest kid s
  have hlive : ∀ i, (s.visit kid).held i = true → s.held i = true ∧ i ≠ kid := by
    intro i h
    rw [hheld] at h
    refine ⟨held_of_letGo h, ?_⟩
    rintro rfl
    rw [letGo_held] at h
    cases h
  refine hf.carry (fun _ => False) hnext hborn (fun i h => ⟨(hlive i h).1, fun _ => not_false⟩) ?_ ?_
  · intro i q' h
    obtain ⟨q, hq, hpar, -, -, -, hks⟩ := hput i q' h
    exact ⟨q, hq, hpar, fun k hk => ⟨((hks k).mp hk).1, not_false⟩⟩
  · intro i q h _
    obtain ⟨q', hq', hpar, -, hg, -⟩ := hback i q h
    exact ⟨q', hq', hpar, fun hh => hg (hlive i hh).2⟩

theorem Filed.held_lt (hf : Filed s) (h : s.held i = true) : i ≠ 0 ∧ i < s.next := by
  constructor
  · rintro rfl
    rw [hf.zero.2.1] at h
    cases h
  · by_contra hle
    rw [(hf.fresh i (Nat.not_lt.mp hle)).2] at h
    cases h

theorem Filed.create (hf : Filed s) : Filed (s.act .create) := by
  have hborn : ∀ i, i ≠ s.next → (s.act .create).born i = s.born i := fun i h => if_neg h
  have hheld : ∀ i, i ≠ s.next → (s.act .create).held i = s.held i := fun i h => if_neg h
  refine ⟨⟨hf.zero.1, (hheld 0 (Nat.ne_of_lt hf.zero.2.2)).trans hf.zero.2.1, Nat.succ_pos _⟩, ?_, ?_, ?_, hf.kids⟩
  · intro i h
    change s.next + 1 ≤ i at h
    exact ⟨(hf.fresh i (by omega)).1, (hheld i (by omega)).trans (hf.fresh i (by omega)).2⟩
  · intro i e he
    rw [hborn i (Nat.ne_of_lt (hf.lt_next he).2)]
    exact hf.entry i e he
  · intro i h hb
    by_cases hne : i = s.next
    · rw [hne] at hb
      exact absurd (if_pos rfl) hb
    · rw [hheld i hne] at h
      rw [hborn i hne] at hb
      exact hf.held i h hb

/-- A source without an entry is a root. -/
theorem Filed.enterSource_cases (hf : Filed s) {src : Nat} (hheld : s.held src = true) :
    (s.index src = none ∧ s.born src = 0 ∧ s.enterSource src = s.put src (some ⟨0, 0, false, []⟩)) ∨
      ∃ p, s.index src = some p ∧ s.enterSource src = s := by
  cases hp : s.index src with
  | none =>
    have hborn : s.born src = 0 := by
      by_contra hb
      obtain ⟨e, he, _⟩ := hf.held src hheld hb
      rw [hp] at he
      cases he
    exact .inl ⟨rfl, hborn, by simp only [enterSource, hp, enter, hborn, depthUnder, if_true]⟩
  | some p => exact .inr ⟨p, rfl, by simp only [enterSource, hp]⟩

end MindCore.Kernel.Caps
