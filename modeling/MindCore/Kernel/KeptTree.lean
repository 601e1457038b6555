import MindCore.Kernel.CapEntries

/-!
# The tree while revocations walk it

The tree is followed through drops, sweeps and the steps of several revocations: a node with a parent
is in its parent's list or on the stack of a walk, whether or not its parent's entry is still there.
-/

namespace MindCore.Kernel.Caps

open List

section Chains
variable {s t : Caps} {r d : Nat}

theorem Under.born_ne (h : Under s r d) : s.born d ≠ 0 := by
  cases h with
  | child h h0 => rw [h]; exact h0
  | step h0 _ => exact h0

theorem Under.lt (hy : ∀ i, s.born i ≠ 0 → s.born i < i) (h : Under s r d) : r < d := by
  induction h with
  | child h h0 =>
    rw [← h] at h0 ⊢
    exact hy _ h0
  | step h0 _ ih => exact Nat.lt_trans ih (hy _ h0)

theorem Under.trans {m : Nat} (hm : Under s r m) (hd : Under s m d) : Under s r d := by
  induction hd with
  | child h h0 => exact .step (by rw [h]; exact h0) (by rw [h]; exact hm)
  | step h0 _ ih => exact .step h0 ih

theorem Under.comparable {a b : Nat} (ha : Under s a d) (hb : Under s b d) :
    a = b ∨ Under s a b ∨ Under s b a := by
  induction ha with
  | child h _ =>
    cases hb with
    | child h' _ => exact .inl (h.symm.trans h')
    | step _ hb => exact .inr (.inr (h ▸ hb))
  | step _ ha ih =>
    cases hb with
    | child h' _ => exact .inr (.inl (h' ▸ ha))
    | step _ hb => exact ih hb

theorem Under.of_born {n : Nat} (hy : ∀ i, s.born i ≠ 0 → s.born i < i)
    (hsame : ∀ i, i < n → t.born i = s.born i) (h : Under s r d) (hd : d < n) : Under t r d := by
  induction h with
  | child h h0 => exact .child ((hsame _ hd).trans h) h0
  | step h0 _ ih =>
    refine .step (by rw [hsame _ hd]; exact h0) ?_
    rw [hsame _ hd]
    exact ih (Nat.lt_trans (hy _ h0) hd)

theorem Under.congr (h : Under s r d) (hborn : t.born = s.born) : Under t r d := by
  induction h with
  | child h h0 => exact .child (hborn ▸ h) h0
  | step h0 _ ih => exact .step (hborn ▸ h0) (hborn ▸ ih)

theorem under_congr (hborn : t.born = s.born) : Under t r d ↔ Under s r d :=
  ⟨fun h => h.congr hborn.symm, fun h => h.congr hborn⟩

end Chains

section Keeping

/-- `out` are the nodes a walk has taken out of their parents' lists. -/
structure Kept (out : Nat → Prop) (s : Caps) : Prop where
  zero : s.index 0 = none ∧ s.held 0 = false ∧ 0 < s.next
  fresh : ∀ id, s.next ≤ id → s.index id = none ∧ s.held id = false ∧ s.mapped id = false ∧ s.born id = 0
  younger : ∀ id, s.born id ≠ 0 → s.born id < id
  entry : ∀ id e, s.index id = some e → e.parent = s.born id
  held : ∀ id, s.held id = true → s.born id ≠ 0 → ∃ e, s.index id = some e ∧ e.ghost = false
  mapped : ∀ id, s.mapped id = true → s.born id ≠ 0 → ∃ e, s.index id = some e
  kids : ∀ q p, s.index q = some p → ∀ k ∈ p.kids, ∃ e, s.index k = some e ∧ e.parent = q
  linked : ∀ id e, s.index id = some e → e.parent ≠ 0 →
    (∃ p, s.index e.parent = some p ∧ id ∈ p.kids) ∨ out id
  away : ∀ x, out x → x < s.next ∧ s.held x = false ∧ s.mapped x = false ∧
    ∀ q p, s.index q = some p → x ∉ p.kids

variable {out out' : Nat → Prop} {s t : Caps}

theorem Kept.congr (hk : Kept out s) (h : ∀ x, out x ↔ out' x) : Kept out' s :=
  ⟨hk.zero, hk.fresh, hk.younger, hk.entry, hk.held, hk.mapped, hk.kids,
    fun id e he h0 => (hk.linked id e he h0).imp_right (h id).mp, fun x hx => hk.away x ((h x).mpr hx)⟩

theorem Kept.frame (hk : Kept out s) (revoking : List Nat) (jobs : Nat → Option Revocation) :
    Kept out { s with revoking := revoking, jobs := jobs } :=
  ⟨hk.zero, hk.fresh, hk.younger, hk.entry, hk.held, hk.mapped, hk.kids, hk.linked, hk.away⟩

theorem Kept.filed (hk : Kept out s) : Filed s :=
  ⟨hk.zero, fun id h => ⟨(hk.fresh id h).1, (hk.fresh id h).2.1⟩, hk.entry, hk.held, hk.kids⟩

theorem Kept.lt_next_of_under (hk : Kept out s) {r d : Nat} (h : Under s r d) : d < s.next := by
  by_contra hle
  exact h.born_ne (hk.fresh d (Nat.not_lt.mp hle)).2.2.2

variable {e : Entry} {x : Nat}

section
variable (hk : Kept out s)
include hk

theorem Kept.drops (hx : s.index x = some e)
    (hnil : e.kids = []) (hd : Drops x s t) (hmapped : t.mapped = s.mapped)
    (hheld : s.held x = true → s.born x = 0) (hmap : s.mapped x = true → s.born x = 0)
    (hsub : ∀ a, out' a → out a) (hkeep : ∀ a, out a → a ≠ x → out' a) : Kept out' t := by
  have hfl := hk.filed.drops hd hheld
  refine ⟨hfl.zero, ?_, ?_, hfl.entry, hfl.held, ?_, hfl.kids, ?_, ?_⟩
  · intro id h
    have hold := (hk.fresh id (by rwa [hd.next] at h)).2.2
    rw [hd.born, hmapped]
    exact ⟨(hfl.fresh id h).1, (hfl.fresh id h).2, hold⟩
  · rw [hd.born]
    exact hk.younger
  · intro id h hborn
    rw [hmapped] at h
    rw [hd.born] at hborn
    obtain ⟨f, hf⟩ := hk.mapped id h hborn
    have hne : id ≠ x := by
      rintro rfl
      exact hborn (hmap h)
    obtain ⟨f', hf', _⟩ := hd.after hne hf
    exact ⟨f', hf'⟩
  · intro id f hf h0
    obtain ⟨hne, f₀, hf₀, hcut⟩ := hd.before hf
    rw [hcut.parent] at h0 ⊢
    rcases hk.linked id f₀ hf₀ h0 with ⟨p, hp, hmem⟩ | hout
    · have hparent : f₀.parent ≠ x := by
        intro heq
        rw [heq, hx] at hp
        cases hp
        rw [hnil] at hmem
        cases hmem
      obtain ⟨p', hp', hcut'⟩ := hd.after hparent hp
      exact .inl ⟨p', hp', (hcut'.kids id).mpr ⟨hmem, hne⟩⟩
    · exact .inr (hkeep id hout hne)
  · intro a ha
    obtain ⟨hlt, hheld', hmap', hkids⟩ := hk.away a (hsub a ha)
    rw [hd.held, hd.next, hmapped]
    refine ⟨hlt, hheld', hmap', ?_⟩
    intro q p hp hmem
    obtain ⟨_, p₀, hp₀, hcut⟩ := hd.before hp
    exact hkids q p₀ hp₀ ((hcut.kids a).mp hmem).1

theorem Kept.forgotten (hx : s.index x = some e)
    (hnot : ¬s.Derived x e) (hheld : s.held x = true → s.born x = 0) :
    Kept out ((s.unlink x).put x none) := by
  refine hk.drops hx (kids_nil_of_not_derived hnot) (drops_unlink hk.kids hx)
    (unlink_rest x s).mapped hheld ?_ (fun _ h => h) (fun _ h _ => h)
  intro hmap
  rw [← hk.entry x e hx]
  by_contra h0
  exact hnot (.inr ⟨h0, hmap⟩)

theorem Kept.letGoOf (fuel id : Nat) : Kept out (letGoOf fuel id s) := by
  refine letGoOf_induct ?_ ?_ hk fuel id
  · intro s x e hk he hnot hghost
    exact hk.forgotten he hnot (hk.filed.held_ghost he hghost)
  · intro s x e hk he hnot hroot
    obtain ⟨hd, hborn⟩ := hk.filed.drops_root he hroot
    exact hk.drops he (kids_nil_of_not_derived hnot) hd rfl (fun _ => hborn) (fun _ => hborn)
      (fun _ h => h) (fun _ h _ => h)

theorem Kept.letGo (id : Nat) : Kept out (s.letGo id) :=
  ⟨⟨hk.zero.1, letGo_false hk.zero.2.1, hk.zero.2.2⟩,
    fun i h => ⟨(hk.fresh i h).1, letGo_false (hk.fresh i h).2.1, (hk.fresh i h).2.2⟩, hk.younger, hk.entry,
    fun i h => hk.held i (held_of_letGo h), hk.mapped, hk.kids, hk.linked,
    fun x hx => ⟨(hk.away x hx).1, letGo_false (hk.away x hx).2.1, (hk.away x hx).2.2⟩⟩

theorem Kept.grown {o : Option Entry} (hg : Grown s (s.put x o)) (hfl : Filed (s.put x o)) : Kept out (s.put x o) := by
  refine ⟨hfl.zero, fun i h => ⟨(hfl.fresh i h).1, (hk.fresh i h).2⟩, hk.younger, hfl.entry, hfl.held, ?_,
    hfl.kids, ?_, ?_⟩
  · intro i h hborn
    obtain ⟨p, hp⟩ := hk.mapped i h hborn
    obtain ⟨p', hp', _⟩ := hg.old hp
    exact ⟨p', hp'⟩
  · intro i f' hf' h0
    rcases hg.new hf' with ⟨hpar, -⟩ | ⟨f, hf, hpar, -⟩
    · exact absurd hpar h0
    · rw [hpar] at h0 ⊢
      refine (hk.linked i f hf h0).imp_left ?_
      rintro ⟨p, hp, hmem⟩
      obtain ⟨p', hp', _, _, hkids, _⟩ := hg.old hp
      exact ⟨p', hp', by rw [hkids]; exact hmem⟩
  · intro a ha
    obtain ⟨hlt, h₁, h₂, h₃⟩ := hk.away a ha
    refine ⟨hlt, h₁, h₂, ?_⟩
    intro q p' h
    rcases hg.new h with ⟨-, -, hkids⟩ | ⟨p, hp, -, -, hkids⟩ <;> rw [hkids]
    · exact not_mem_nil
    · exact h₃ q p hp

theorem Kept.haunt (hx : s.index x = some e)
    (hheld : s.held x = false) : Kept out (s.put x (some { e with ghost := true })) :=
  hk.grown (grown_ghost hx) (hk.filed.haunt hx hheld)

theorem Kept.forget (hheld : s.held x = false) : Kept out (forget x s) := by
  cases he : s.index x with
  | none =>
    rw [forget_none he]
    exact hk
  | some e =>
    rw [forget_some he]
    split
    · exact hk.haunt he hheld
    · rename_i hnot
      refine (hk.forgotten he hnot ?_).letGoOf _ _
      intro h
      rw [hheld] at h
      cases h

theorem Kept.enterRoot (hx : s.index x = none) (hborn : s.born x = 0)
    (h0 : x ≠ 0) (hlt : x < s.next) : Kept out (s.put x (some ⟨0, 0, false, []⟩)) :=
  hk.grown (grown_root hx) (hk.filed.enterRoot hx hborn h0 hlt)

theorem Kept.bear {src : Nat} {p : Entry} (hp : s.index src = some p) : Kept out (s.bear src) := by
  obtain ⟨hput, hback, hnew, hsrc⟩ := hk.filed.bear_entries hp
  have hfl := hk.filed.bear hp
  have hborn' : (s.bear src).born s.next = src := if_pos rfl
  have hmapped : (s.bear src).mapped = s.mapped := (enter_rest s.next src s).mapped
  refine ⟨hfl.zero, ?_, ?_, hfl.entry, hfl.held, ?_, hfl.kids, ?_, ?_⟩
  · intro i h
    have hle : s.next + 1 ≤ i := h
    obtain ⟨-, -, h₃, h₄⟩ := hk.fresh i (by omega)
    exact ⟨(hfl.fresh i h).1, (hfl.fresh i h).2, by rw [hmapped]; exact h₃, (bear_born_of_ne (by omega)).trans h₄⟩
  · intro i h
    by_cases heq : i = s.next
    · rw [heq, hborn']
      exact (hk.filed.lt_next hp).2
    · rw [bear_born_of_ne heq] at h ⊢
      exact hk.younger i h
  · intro i h hb
    by_cases heq : i = s.next
    · rw [heq]
      exact ⟨_, hnew⟩
    · rw [hmapped] at h
      rw [bear_born_of_ne heq] at hb
      obtain ⟨q, hq⟩ := hk.mapped i h hb
      obtain ⟨-, q', hq', -⟩ := hback i q hq
      exact ⟨q', hq'⟩
  · intro i f hf hf0
    rcases hput i f hf with ⟨rfl, rfl⟩ | ⟨f₀, hf₀, hpar, -⟩
    · exact .inl ⟨_, hsrc, mem_cons_self⟩
    · rw [hpar] at hf0 ⊢
      refine (hk.linked i f₀ hf₀ hf0).imp_left ?_
      rintro ⟨q, hq, hmem⟩
      obtain ⟨-, q', hq', -, -, -, hkids⟩ := hback _ q hq
      exact ⟨q', hq', hkids i hmem⟩
  · intro a ha
    obtain ⟨hlt, h₁, h₂, h₃⟩ := hk.away a ha
    refine ⟨Nat.lt_succ_of_lt hlt, (bear_held_of_ne (Nat.ne_of_lt hlt)).trans h₁, by rw [hmapped]; exact h₂, ?_⟩
    intro i q h hmem
    rcases hput i q h with ⟨rfl, rfl⟩ | ⟨q₀, hq₀, -, -, hkids⟩
    · cases hmem
    · rcases hkids a hmem with ⟨-, heq⟩ | hmem
      · exact Nat.ne_of_lt hlt heq
      · exact h₃ i q₀ hq₀ hmem

theorem Kept.visit {top kid : Nat} {p : Entry} (hp : s.index top = some p)
    (hmem : kid ∈ p.kids) : Kept (fun x => x = kid ∨ out x) (s.visit kid) := by
  obtain ⟨e, he, hparent⟩ := hk.kids top p hp kid hmem
  have htop0 := (hk.filed.lt_next hp).1
  have hborn := hk.entry kid e he
  have hlt : top < kid := by
    rw [← hparent, hborn]
    exact hk.younger kid (by rw [← hborn, hparent]; exact htop0)
  obtain ⟨hput, hback⟩ := visit_entries hk.kids he hparent hp (Nat.ne_of_gt hlt)
  obtain ⟨hheld, hborn', hnext, hmapped, -, -⟩ := visit_rest kid s
  have hfl := hk.filed.visit he hparent hp (Nat.ne_of_gt hlt)
  have hunmapped : ∀ i, s.mapped i = false → (s.visit kid).mapped i = false := by
    intro i h
    rw [hmapped]
    dsimp only
    split
    · rfl
    · exact h
  have hletGo := hk.letGo kid
  refine ⟨hfl.zero, ?_, ?_, hfl.entry, hfl.held, ?_, hfl.kids, ?_, ?_⟩
  · intro i h
    obtain ⟨-, -, h₃, h₄⟩ := hk.fresh i (by rwa [hnext] at h)
    exact ⟨(hfl.fresh i h).1, (hfl.fresh i h).2, hunmapped i h₃, by rw [hborn']; exact h₄⟩
  · rw [hborn']
    exact hk.younger
  · intro i h hb
    rw [hborn'] at hb
    have hm : s.mapped i = true := by
      by_contra hm
      rw [hunmapped i (by simpa using hm)] at h
      cases h
    obtain ⟨q, hq⟩ := hk.mapped i hm hb
    obtain ⟨q', hq', -⟩ := hback i q hq
    exact ⟨q', hq'⟩
  · intro i f' hf' h0
    obtain ⟨f, hf, hpar, -⟩ := hput i f' hf'
    rw [hpar] at h0 ⊢
    by_cases heq : i = kid
    · exact .inr (.inl heq)
    rcases hk.linked i f hf h0 with ⟨q, hq, hmem'⟩ | hout
    · obtain ⟨q', hq', -⟩ := hback _ q hq
      obtain ⟨q₀, hq₀, -, -, -, -, hks⟩ := hput _ q' hq'
      rw [hq] at hq₀
      cases hq₀
      exact .inl ⟨q', hq', (hks i).mpr ⟨hmem', heq⟩⟩
    · exact .inr (.inr hout)
  · intro a ha
    have haway : a < s.next ∧ (s.visit kid).held a = false ∧ (s.visit kid).mapped a = false := by
      rw [hheld]
      rcases ha with rfl | ha
      · refine ⟨?_, letGo_held a, by rw [hmapped]; exact if_pos rfl⟩
        by_contra hle
        rw [(hk.fresh a (Nat.not_lt.mp hle)).1] at he
        cases he
      · obtain ⟨h₁, h₂, h₃, -⟩ := hletGo.away a ha
        exact ⟨h₁, h₂, hunmapped a h₃⟩
    rw [hnext]
    refine ⟨haway.1, haway.2.1, haway.2.2, ?_⟩
    intro i q' h hmem'
    obtain ⟨q, hq, -, -, -, -, hks⟩ := hput i q' h
    obtain ⟨hmem₀, hne⟩ := (hks a).mp hmem'
    rcases ha with heq | ha
    · exact hne heq
    · exact (hk.away a ha).2.2.2 i q hq hmem₀

theorem Kept.pop {top : Nat} (htop : out top) (hkids : s.kidsOf top = [])
    (hsub : ∀ a, out' a → out a) (hkeep : ∀ a, out a → a ≠ top → out' a) : Kept out' (s.put top none) := by
  obtain ⟨-, hheld, hmapped, haway⟩ := hk.away top htop
  cases he : s.index top with
  | none =>
    have hsame : s.put top none = s := by
      have hindex : (fun i => if i = top then none else s.index i) = s.index := by
        funext i
        split
        · rename_i heq
          rw [heq, he]
        · rfl
      rw [put, hindex]
    rw [hsame]
    refine ⟨hk.zero, hk.fresh, hk.younger, hk.entry, hk.held, hk.mapped, hk.kids, ?_,
      fun x hx => hk.away x (hsub x hx)⟩
    intro id f hf h0
    refine (hk.linked id f hf h0).imp_right fun h => hkeep id h ?_
    rintro rfl
    rw [he] at hf
    cases hf
  | some e =>
    rw [kidsOf, he] at hkids
    refine hk.drops he hkids (drops_put fun i p hp => haway i p hp) rfl ?_ ?_ hsub hkeep
    · intro h
      rw [hheld] at h
      cases h
    · intro h
      rw [hmapped] at h
      cases h

theorem Kept.create : Kept out (s.act .create) := by
  have hborn : ∀ i, i ≠ s.next → (s.act .create).born i = s.born i := fun i h => if_neg h
  have hold : ∀ i, (s.act .create).born i ≠ 0 → i ≠ s.next := by
    rintro i h rfl
    exact h (if_pos rfl)
  have hfl := hk.filed.create
  refine ⟨hfl.zero, ?_, ?_, hfl.entry, hfl.held, ?_, hk.kids, hk.linked, ?_⟩
  · intro i h
    change s.next + 1 ≤ i at h
    obtain ⟨-, -, h₃, h₄⟩ := hk.fresh i (by omega)
    exact ⟨(hfl.fresh i h).1, (hfl.fresh i h).2, h₃, (hborn i (by omega)).trans h₄⟩
  · intro i h
    have hne := hold i h
    rw [hborn i hne] at h ⊢
    exact hk.younger i h
  · intro i h hb
    rw [hborn i (hold i hb)] at hb
    exact hk.mapped i h hb
  · intro a ha
    obtain ⟨hlt, h₁, h₂, h₃⟩ := hk.away a ha
    exact ⟨Nat.lt_succ_of_lt hlt, (if_neg (Nat.ne_of_lt hlt)).trans h₁, h₂, h₃⟩

theorem Kept.derive (src : Nat) : Kept out (s.act (.derive src)) := by
  rw [act]
  split
  · rename_i h
    obtain ⟨h0, hlt⟩ := hk.filed.held_lt h.1
    rcases hk.filed.enterSource_cases h.1 with ⟨hp, hborn, henter⟩ | ⟨p, hp, henter⟩
    · rw [henter]
      exact (hk.enterRoot hp hborn h0 hlt).bear (if_pos rfl)
    · rw [henter]
      exact hk.bear hp
  · exact hk

theorem Kept.map (id : Nat) : Kept out (s.act (.map id)) := by
  rw [act]
  split
  · rename_i hheld
    have hmapped : ∀ i, i ≠ id → (if i = id then true else s.mapped i) = s.mapped i := fun i h => if_neg h
    refine ⟨hk.zero, ?_, hk.younger, hk.entry, hk.held, ?_, hk.kids, hk.linked, ?_⟩
    · intro i h
      obtain ⟨h₁, h₂, h₃, h₄⟩ := hk.fresh i h
      refine ⟨h₁, h₂, (hmapped i ?_).trans h₃, h₄⟩
      rintro rfl
      exact absurd h (Nat.not_le.mpr (hk.filed.held_lt hheld).2)
    · intro i h hb
      by_cases heq : i = id
      · obtain ⟨e, he, _⟩ := hk.held i (heq ▸ hheld) hb
        exact ⟨e, he⟩
      · exact hk.mapped i ((hmapped i heq).symm.trans h) hb
    · intro a ha
      obtain ⟨h₁, h₂, h₃, h₄⟩ := hk.away a ha
      refine ⟨h₁, h₂, (hmapped a ?_).trans h₃, h₄⟩
      rintro rfl
      rw [hheld] at h₂
      cases h₂
  · exact hk

theorem Kept.unmap (id : Nat) : Kept out (s.act (.unmap id)) := by
  have hmapped : ∀ i, s.mapped i = false → (if i = id then false else s.mapped i) = false := by
    intro i h
    split
    · rfl
    · exact h
  refine ⟨hk.zero, ?_, hk.younger, hk.entry, hk.held, ?_, hk.kids, hk.linked, ?_⟩
  · intro i h
    obtain ⟨h₁, h₂, h₃, h₄⟩ := hk.fresh i h
    exact ⟨h₁, h₂, hmapped i h₃, h₄⟩
  · intro i h hb
    refine hk.mapped i ?_ hb
    by_contra hm
    change (if i = id then false else s.mapped i) = true at h
    rw [hmapped i (by simpa using hm)] at h
    cases h
  · intro a ha
    obtain ⟨h₁, h₂, h₃, h₄⟩ := hk.away a ha
    exact ⟨h₁, h₂, hmapped a h₃, h₄⟩

end

theorem Kept.sweep (ids : List Nat) {s : Caps} (hk : Kept out s) :
    Kept out (ids.foldl (fun s id => Caps.letGoOf (id + 1) id s) s) := by
  induction ids generalizing s with
  | nil => exact hk
  | cons id ids ih => exact ih (hk.letGoOf _ _)

end Keeping

end MindCore.Kernel.Caps
