import MindCore.Kernel.KeptTree
import MindCore.Kernel.LongWalk

/-!
# The end of a revocation

What is left under a node once `end_revoke` of it is reached, and what the steps of its revocation
removed.
-/

namespace MindCore.Kernel.Caps

open List

section Walks
variable {others : Nat → Prop} {j : Revocation} {s : Caps}

theorem unlink_none {d : Nat} (h : s.index d = none) (id : Nat) : (s.unlink id).index d = none := by
  rw [unlink]
  split
  · exact h
  · rw [unlinkFrom]
    split
    · exact h
    · rename_i hp
      refine (if_neg ?_).trans h
      rintro rfl
      rw [h] at hp
      cases hp

theorem letGoOf_none {d : Nat} (h : s.index d = none) (fuel id : Nat) : (letGoOf fuel id s).index d = none := by
  have hput : ∀ (u : Caps) (i : Nat), u.index d = none → (u.put i none).index d = none := by
    intro u i h
    change (if d = i then none else u.index d) = none
    split
    · rfl
    · exact h
  refine letGoOf_induct (P := fun t => t.index d = none) ?_ ?_ h fuel id
  · intro t x _ h _ _ _
    exact hput _ x (unlink_none h x)
  · intro t x _ h _ _ _
    exact hput t x h

/-- A walk among `others`, the nodes other walks have taken out of their lists. -/
structure Walks (others : Nat → Prop) (j : Revocation) (s : Caps) : Prop where
  kept : Kept (fun x => (x ∈ j.stack ∧ x ≠ j.root) ∨ others x) s
  stack : j.stack = [] ∨ ∃ above, j.stack = above ++ [j.root] ∧ ∀ x ∈ above, Under s j.root x
  apart : ∀ x, others x → ¬Under s j.root x
  done : j.stack = [] → ∀ d, Under s j.root d → s.index d = none

variable {rest : List Nat}

theorem Walks.top {top : Nat} (h : Walks others j s) (hstack : j.stack = top :: rest) :
    (top = j.root ∧ rest = []) ∨ (Under s j.root top ∧ ∃ above, rest = above ++ [j.root] ∧
      ∀ x ∈ above, Under s j.root x) := by
  rcases h.stack with hnil | ⟨above, heq, hunder⟩
  · rw [hstack] at hnil
    cases hnil
  · rw [hstack] at heq
    cases above with
    | nil =>
      obtain ⟨h₁, h₂⟩ := List.cons.inj heq
      exact .inl ⟨h₁, h₂⟩
    | cons a above =>
      obtain ⟨rfl, rfl⟩ := List.cons.inj heq
      exact .inr ⟨hunder top mem_cons_self, above, rfl, fun x hx => hunder x (mem_cons_of_mem _ hx)⟩

theorem Walks.nothing_under (h : Walks others j s) (hstack : j.stack = [j.root])
    (hkids : s.kidsOf j.root = []) {d : Nat} (hd : Under s j.root d) : s.index d = none := by
  have hlinked : ∀ d e, s.index d = some e → Under s j.root d →
      ∃ p, s.index (s.born d) = some p ∧ d ∈ p.kids := by
    intro d e he hd
    have hborn := h.kept.entry d e he
    rcases h.kept.linked d e he (by rw [hborn]; exact hd.born_ne) with hp | ⟨hmem, hne⟩ | hother
    · rw [← hborn]
      exact hp
    · rw [hstack, mem_singleton] at hmem
      exact absurd hmem hne
    · exact absurd hd (h.apart d hother)
  induction hd with
  | child hborn h0 =>
    cases he : s.index _ with
    | none => rfl
    | some e =>
      obtain ⟨p, hp, hmem⟩ := hlinked _ e he (.child hborn h0)
      rw [hborn] at hp
      rw [kidsOf, hp] at hkids
      change p.kids = [] at hkids
      rw [hkids] at hmem
      cases hmem
  | step h0 hd ih =>
    cases he : s.index _ with
    | none => rfl
    | some e =>
      obtain ⟨p, hp, -⟩ := hlinked _ e he (.step h0 hd)
      rw [ih] at hp
      cases hp

theorem Walks.leave {top : Nat} (h : Walks others j s) (hstack : j.stack = top :: rest)
    (hkids : s.kidsOf top = []) : Walks others { j with stack := rest } (s.leave j.root top) := by
  have hunder : ∀ {d}, Under (s.leave j.root top) j.root d ↔ Under s j.root d :=
    under_congr (leave_rest j.root top s).born
  rcases h.top hstack with ⟨rfl, rfl⟩ | ⟨htop, above, hrest, habove⟩
  · have hkept := h.kept.letGoOf (j.root + 1) j.root
    have hleave : s.leave j.root j.root = letGoOf (j.root + 1) j.root s := if_pos rfl
    refine ⟨?_, .inl rfl, fun x hx hd => h.apart x hx (hunder.mp hd), ?_⟩
    · rw [hleave]
      refine hkept.congr fun x => or_congr_left ?_
      rw [hstack, mem_singleton]
      exact ⟨fun hx => absurd hx.1 hx.2, fun hx => absurd hx.1 not_mem_nil⟩
    · intro _ d hd
      rw [hleave]
      exact letGoOf_none (h.nothing_under hstack hkids (hunder.mp hd)) (j.root + 1) j.root
  · have hne : top ≠ j.root := Nat.ne_of_gt (htop.lt h.kept.younger)
    have hleave : s.leave j.root top = s.put top none := if_neg hne
    refine ⟨?_, .inr ⟨above, hrest, fun x hx => hunder.mpr (habove x hx)⟩,
      fun x hx hd => h.apart x hx (hunder.mp hd), ?_⟩
    · rw [hleave]
      refine h.kept.pop (.inl ⟨by rw [hstack]; exact mem_cons_self, hne⟩) hkids ?_ ?_
      · rintro a (⟨hmem, ha⟩ | ha)
        · exact .inl ⟨by rw [hstack]; exact mem_cons_of_mem _ hmem, ha⟩
        · exact .inr ha
      · rintro a (⟨hmem, ha⟩ | ha) hatop
        · rw [hstack] at hmem
          exact .inl ⟨(mem_cons.mp hmem).resolve_left hatop, ha⟩
        · exact .inr ha
    · intro hnil
      rw [hrest] at hnil
      exact absurd hnil (by simp)

theorem Walks.visit {top kid : Nat} {ks : List Nat} (h : Walks others j s)
    (hstack : j.stack = top :: rest) (hkids : s.kidsOf top = kid :: ks) :
    Under s j.root kid ∧ Walks others { j with stack := kid :: top :: rest } (s.visit kid) := by
  obtain ⟨p, hp, hmem⟩ := kidsOf_cons hkids
  have hborn : s.born kid = top := by
    obtain ⟨e, he, hparent⟩ := h.kept.kids top p hp kid hmem
    rw [← h.kept.entry kid e he, hparent]
  have htop0 : top ≠ 0 := by
    rintro rfl
    rw [h.kept.zero.1] at hp
    cases hp
  have hkid : Under s j.root kid := by
    rcases h.top hstack with ⟨htop, _⟩ | ⟨htop, _⟩
    · exact .child (hborn.trans htop) (htop ▸ htop0)
    · exact .step (by rw [hborn]; exact htop0) (by rw [hborn]; exact htop)
  have hunder : ∀ {d}, Under (s.visit kid) j.root d ↔ Under s j.root d := under_congr (visit_rest kid s).2.1
  have hne : kid ≠ j.root := Nat.ne_of_gt (hkid.lt h.kept.younger)
  refine ⟨hkid, ?_, ?_, fun x hx hd => h.apart x hx (hunder.mp hd), ?_⟩
  · refine (h.kept.visit hp hmem).congr fun x => ?_
    rw [hstack]
    constructor
    · rintro (rfl | ⟨hmem', hx⟩ | hx)
      · exact .inl ⟨mem_cons_self, hne⟩
      · exact .inl ⟨mem_cons_of_mem _ hmem', hx⟩
      · exact .inr hx
    · rintro (⟨hmem', hx⟩ | hx)
      · exact (mem_cons.mp hmem').imp_right fun hm => .inl ⟨hm, hx⟩
      · exact .inr (.inr hx)
  · rcases h.stack with hnil | ⟨above, heq, habove⟩
    · rw [hstack] at hnil
      cases hnil
    · refine .inr ⟨kid :: above, by rw [← hstack, heq]; rfl, ?_⟩
      intro x hx
      rcases mem_cons.mp hx with rfl | hx
      · exact hunder.mpr hkid
      · exact hunder.mpr (habove x hx)
  · intro hnil
    cases hnil

theorem walk_walks (fuel budget : Nat) (h : Walks others j s) :
    Walks others (walk fuel budget j s).1 (walk fuel budget j s).2 ∧
      (walk fuel budget j s).1.root = j.root ∧ (walk fuel budget j s).2.born = s.born ∧
      (walk fuel budget j s).2.next = s.next ∧ (walk fuel budget j s).2.jobs = s.jobs ∧
      ∀ d, ¬Under s j.root d → (walk fuel budget j s).2.held d = s.held d := by
  induction fuel generalizing budget j s with
  | zero => exact ⟨h, rfl, rfl, rfl, rfl, fun _ _ => rfl⟩
  | succ fuel ih =>
    rw [walk]
    split
    · exact ⟨h, rfl, rfl, rfl, rfl, fun _ _ => rfl⟩
    cases hstack : j.stack with
    | nil =>
      exact ⟨h, rfl, rfl, rfl, rfl, fun _ _ => rfl⟩
    | cons top rest =>
      cases hkids : s.kidsOf top with
      | nil =>
        obtain ⟨hw, hroot, hborn, hnext, hjobs, hheld⟩ := ih budget (h.leave hstack hkids)
        obtain ⟨l₁, l₂, l₃, -, -, l₆⟩ := leave_rest j.root top s
        simp only [hkids]
        refine ⟨hw, hroot, hborn.trans l₂, hnext.trans l₃, hjobs.trans l₆, ?_⟩
        intro d hd
        rw [hheld d (fun hu => hd ((under_congr l₂).mp hu)), l₁]
      | cons kid ks =>
        obtain ⟨hkid, hvisit⟩ := h.visit hstack hkids
        obtain ⟨hw, hroot, hborn, hnext, hjobs, hheld⟩ := ih (budget - 1) hvisit
        obtain ⟨v₁, v₂, v₃, -, -, v₆⟩ := visit_rest kid s
        simp only [hkids]
        refine ⟨hw, hroot, hborn.trans v₂, hnext.trans v₃, hjobs.trans v₆, ?_⟩
        intro d hd
        rw [hheld d (fun hu => hd ((under_congr v₂).mp hu)), v₁]
        refine if_neg ?_
        rintro rfl
        exact hd hkid

end Walks

section Several
variable {s t : Caps}

def Out (jobs : Nat → Option Revocation) (x : Nat) : Prop := ∃ c j, jobs c = some j ∧ x ∈ j.stack ∧ x ≠ j.root

/-- No revocation in progress is of a node under the root of another. -/
structure Sound (s : Caps) : Prop where
  kept : Kept (Out s.jobs) s
  stack : ∀ c j, s.jobs c = some j → ∃ above, j.stack = above ++ [j.root] ∧ ∀ x ∈ above, Under s j.root x
  root : ∀ c j, s.jobs c = some j → j.root < s.next
  apart : ∀ c c' j j', s.jobs c = some j → s.jobs c' = some j' → c ≠ c' →
    j.root ≠ j'.root ∧ ¬Under s j.root j'.root

theorem Sound.keep (h : Sound s) (hkept : Kept (Out s.jobs) t) (hjobs : t.jobs = s.jobs)
    (hnext : s.next ≤ t.next) (hborn : ∀ i, i < s.next → t.born i = s.born i) : Sound t := by
  refine ⟨hjobs ▸ hkept, ?_, ?_, ?_⟩
  · intro c j hj
    rw [hjobs] at hj
    obtain ⟨above, heq, habove⟩ := h.stack c j hj
    refine ⟨above, heq, fun x hx => ?_⟩
    exact (habove x hx).of_born h.kept.younger hborn (h.kept.lt_next_of_under (habove x hx))
  · intro c j hj
    rw [hjobs] at hj
    exact Nat.lt_of_lt_of_le (h.root c j hj) hnext
  · intro c c' j j' hj hj' hne
    rw [hjobs] at hj hj'
    refine ⟨(h.apart c c' j j' hj hj' hne).1, fun hu => (h.apart c c' j j' hj hj' hne).2 ?_⟩
    exact hu.of_born hkept.younger (fun i hi => (hborn i hi).symm) (h.root c' j' hj')

theorem out_setJob (s : Caps) (cpu : Nat) (j : Revocation) (x : Nat) :
    Out (s.setJob cpu (some j)).jobs x ↔ (x ∈ j.stack ∧ x ≠ j.root) ∨ Out (s.setJob cpu none).jobs x := by
  have hset : ∀ o c, (s.setJob cpu o).jobs c = if c = cpu then o else s.jobs c := fun _ _ => rfl
  constructor
  · rintro ⟨c, j', hj', hx⟩
    rw [hset] at hj'
    split at hj'
    · cases hj'
      exact .inl hx
    · rename_i hc
      exact .inr ⟨c, j', (if_neg hc).trans hj', hx⟩
  · rintro (hx | ⟨c, j', hj', hx⟩)
    · exact ⟨cpu, j, if_pos rfl, hx⟩
    · rw [hset] at hj'
      split at hj'
      · cases hj'
      · rename_i hc
        exact ⟨c, j', (if_neg hc).trans hj', hx⟩

variable {cpu : Nat} {j : Revocation}

theorem Sound.walks (h : Sound (s.setJob cpu (some j))) : Walks (Out (s.setJob cpu none).jobs) j s := by
  have hcpu : (s.setJob cpu (some j)).jobs cpu = some j := if_pos rfl
  obtain ⟨above, hstack, habove⟩ := h.stack cpu j hcpu
  refine ⟨(h.kept.frame s.revoking s.jobs).congr (out_setJob s cpu j), .inr ⟨above, hstack, ?_⟩, ?_, ?_⟩
  · exact fun x hx => (habove x hx).congr rfl
  · rintro x ⟨c, j', hj', hmem, hne⟩ hx
    have hc : c ≠ cpu := by
      rintro rfl
      rw [show (s.setJob c none).jobs c = none from if_pos rfl] at hj'
      cases hj'
    have hother : (s.setJob cpu (some j)).jobs c = some j' := (if_neg hc).trans ((if_neg hc).symm.trans hj')
    obtain ⟨above', hstack', habove'⟩ := h.stack c j' hother
    have hx' : Under (s.setJob cpu (some j)) j'.root x := by
      rw [hstack', mem_append, mem_singleton] at hmem
      exact habove' x (hmem.resolve_right hne)
    have hx₀ : Under (s.setJob cpu (some j)) j.root x := hx.congr rfl
    rcases hx₀.comparable hx' with heq | hu | hu
    · exact (h.apart cpu c j j' hcpu hother (Ne.symm hc)).1 heq
    · exact (h.apart cpu c j j' hcpu hother (Ne.symm hc)).2 hu
    · exact (h.apart c cpu j' j hother hcpu hc).2 hu
  · intro hnil
    rw [hstack] at hnil
    exact absurd hnil (by simp)

/-- Every job of a walk gone on to `o` is one of before with the same root. -/
theorem setJob_old {o : Option Revocation} (hjobs : t.jobs = s.jobs) (ho : ∀ j', o = some j' → j'.root = j.root)
    {c : Nat} {j' : Revocation} (hj' : (t.setJob cpu o).jobs c = some j') :
    ∃ j₀, (s.setJob cpu (some j)).jobs c = some j₀ ∧ j'.root = j₀.root ∧ (c ≠ cpu → j' = j₀) := by
  by_cases hc : c = cpu
  · rw [show (t.setJob cpu o).jobs c = o from if_pos hc] at hj'
    exact ⟨j, if_pos hc, ho j' hj', fun hne => absurd hc hne⟩
  · rw [show (t.setJob cpu o).jobs c = t.jobs c from if_neg hc, hjobs] at hj'
    exact ⟨j', (if_neg hc).trans hj', rfl, fun _ => rfl⟩

/-- The walk gone on to `o`, with the other revocations as they were. -/
theorem Sound.move (h : Sound (s.setJob cpu (some j))) {o : Option Revocation} (hjobs : t.jobs = s.jobs)
    (hborn : t.born = s.born) (hnext : t.next = s.next) (hkept : Kept (Out (t.setJob cpu o).jobs) t)
    (ho : ∀ j', o = some j' → j'.root = j.root ∧ ∃ above, j'.stack = above ++ [j.root] ∧
      ∀ x ∈ above, Under t j.root x) (revoking : List Nat) :
    Sound { t.setJob cpu o with revoking := revoking } := by
  have hunder : ∀ {r d}, Under { t.setJob cpu o with revoking := revoking } r d ↔
      Under (s.setJob cpu (some j)) r d := under_congr hborn
  have hold : ∀ c j', (t.setJob cpu o).jobs c = some j' → ∃ j₀, (s.setJob cpu (some j)).jobs c = some j₀ ∧
      j'.root = j₀.root ∧ (c ≠ cpu → j' = j₀) := fun c j' hj' => setJob_old hjobs (fun j' hj' => (ho j' hj').1) hj'
  refine ⟨hkept.frame _ _, ?_, ?_, ?_⟩
  · intro c j' hj'
    obtain ⟨j₀, hj₀, hroot, hsame⟩ := hold c j' hj'
    by_cases hc : c = cpu
    · have hj'' : o = some j' := (show (t.setJob cpu o).jobs c = o from if_pos hc) ▸ hj'
      obtain ⟨hroot', above, hstack, habove⟩ := ho j' hj''
      rw [hroot']
      exact ⟨above, hstack, fun x hx => (habove x hx).congr rfl⟩
    · rw [hsame hc]
      obtain ⟨above, hstack, habove⟩ := h.stack c j₀ hj₀
      exact ⟨above, hstack, fun x hx => hunder.mpr (habove x hx)⟩
  · intro c j' hj'
    obtain ⟨j₀, hj₀, hroot, -⟩ := hold c j' hj'
    rw [hroot]
    exact Nat.lt_of_lt_of_eq (h.root c j₀ hj₀) hnext.symm
  · intro c c' j₁ j₂ hj₁ hj₂ hne
    obtain ⟨i₁, hi₁, hroot₁, -⟩ := hold c j₁ hj₁
    obtain ⟨i₂, hi₂, hroot₂, -⟩ := hold c' j₂ hj₂
    rw [hroot₁, hroot₂]
    exact ⟨(h.apart c c' i₁ i₂ hi₁ hi₂ hne).1, fun hu => (h.apart c c' i₁ i₂ hi₁ hi₂ hne).2 (hunder.mp hu)⟩

/-- One step of a revocation: what it takes, and what is left once it was the last. -/
structure Proceeds (cpu r : Nat) (s t : Caps) : Prop where
  born : t.born = s.born
  held : ∀ d, ¬Under s r d → t.held d = s.held d
  done : t.jobs cpu = none → ∀ d, Under s r d → t.held d = false ∧ t.mapped d = false

theorem Sound.proceed (h : Sound (s.setJob cpu (some j))) :
    Sound (proceed cpu j s) ∧ Proceeds cpu j.root s (proceed cpu j s) := by
  obtain ⟨hw, hroot, hborn, hnext, hjobs, hheld⟩ := walk_walks (j.stack.length + 2 * revokeStepNodes)
    revokeStepNodes h.walks
  change Walks _ (s.revokeStep j).1 (s.revokeStep j).2 at hw
  change (s.revokeStep j).1.root = j.root at hroot
  change (s.revokeStep j).2.jobs = s.jobs at hjobs
  have hout : ∀ o, ((s.revokeStep j).2.setJob cpu o).jobs = (s.setJob cpu o).jobs := by
    intro o
    simp only [setJob, hjobs]
  rw [Caps.proceed]
  split
  · rename_i hnil
    constructor
    · refine h.move (t := (s.revokeStep j).2) (o := none) hjobs hborn hnext ?_ (fun _ ho => by cases ho) _
      rw [hout]
      refine hw.kept.congr fun x => ?_
      rw [hnil]
      exact ⟨fun hx => hx.resolve_left fun hx => not_mem_nil hx.1, .inr⟩
    · refine ⟨hborn, hheld, fun _ d hd => ?_⟩
      have hd' : Under (s.revokeStep j).2 j.root d := (under_congr hborn).mpr hd
      have hnone := hw.done hnil d (hroot.symm ▸ hd')
      change (s.revokeStep j).2.held d = false ∧ (s.revokeStep j).2.mapped d = false
      constructor
      · by_contra hheld'
        obtain ⟨e, he, -⟩ := hw.kept.held d (by simpa using hheld') hd'.born_ne
        rw [hnone] at he
        cases he
      · by_contra hmap
        obtain ⟨e, he⟩ := hw.kept.mapped d (by simpa using hmap) hd'.born_ne
        rw [hnone] at he
        cases he
  · rename_i hsome
    constructor
    · refine h.move (t := (s.revokeStep j).2) (o := some (s.revokeStep j).1) hjobs hborn hnext ?_ ?_ _
      · rw [hout]
        exact hw.kept.congr fun x => (out_setJob s cpu _ x).symm
      · intro j' ho
        cases ho
        rcases hw.stack with hnil | hstack
        · exact absurd hnil hsome
        · rw [hroot] at hstack
          exact ⟨hroot, hstack⟩
    · refine ⟨hborn, hheld, fun hnone => ?_⟩
      rw [show ((s.revokeStep j).2.setJob cpu (some (s.revokeStep j).1)).jobs cpu = some _ from if_pos rfl] at hnone
      cases hnone

def Works (s : Caps) (r cpu : Nat) : Act → Prop
  | .revoke c root => c = cpu ∧ root = r ∧ s.held root = true ∧ s.jobs c = none
  | .step c => c = cpu ∧ ∃ j, s.jobs c = some j ∧ j.root = r
  | _ => False

theorem Sound.begin (h : Sound s) {root : Nat} (hheld : s.held root = true) (hcpu : s.jobs cpu = none)
    (hunnested : s.Unnested (.revoke cpu root)) :
    Sound ({ s with revoking := root :: s.revoking }.setJob cpu (some ⟨root, [root]⟩)) := by
  have hjob : ∀ c j, ({ s with revoking := root :: s.revoking }.setJob cpu (some ⟨root, [root]⟩)).jobs c =
      some j → (c = cpu ∧ j = ⟨root, [root]⟩) ∨ s.jobs c = some j := by
    intro c j hj
    change (if c = cpu then _ else s.jobs c) = _ at hj
    split at hj
    · exact .inl ⟨‹_›, (Option.some.inj hj).symm⟩
    · exact .inr hj
  refine ⟨?_, ?_, ?_, ?_⟩
  · refine Kept.congr (h.kept.frame _ _) fun x => ?_
    constructor
    · rintro ⟨c, j, hj, hx⟩
      refine ⟨c, j, (if_neg ?_).trans hj, hx⟩
      rintro rfl
      rw [hcpu] at hj
      cases hj
    · rintro ⟨c, j, hj, hmem, hne⟩
      rcases hjob c j hj with ⟨-, rfl⟩ | hj
      · exact absurd (mem_singleton.mp hmem) hne
      · exact ⟨c, j, hj, hmem, hne⟩
  · intro c j hj
    rcases hjob c j hj with ⟨-, rfl⟩ | hj
    · exact ⟨[], rfl, fun x hx => by cases hx⟩
    · obtain ⟨above, hstack, habove⟩ := h.stack c j hj
      exact ⟨above, hstack, fun x hx => (habove x hx).congr rfl⟩
  · intro c j hj
    rcases hjob c j hj with ⟨-, rfl⟩ | hj
    · exact (h.kept.filed.held_lt hheld).2
    · exact h.root c j hj
  · intro c c' j j' hj hj' hne
    rcases hjob c j hj with ⟨hc, rfl⟩ | hj
    · rcases hjob c' j' hj' with ⟨hc', rfl⟩ | hj'
      · exact absurd (hc.trans hc'.symm) hne
      · obtain ⟨h₁, -, h₃⟩ := hunnested c' j' hj'
        exact ⟨Ne.symm h₁, fun hu => h₃ (hu.congr rfl)⟩
    · rcases hjob c' j' hj' with ⟨hc', rfl⟩ | hj'
      · obtain ⟨h₁, h₂, -⟩ := hunnested c j hj
        exact ⟨h₁, fun hu => h₂ (hu.congr rfl)⟩
      · exact ⟨(h.apart c c' j j' hj hj' hne).1, fun hu => (h.apart c c' j j' hj hj' hne).2 (hu.congr rfl)⟩

theorem setJob_self {j : Revocation} (hj : s.jobs cpu = some j) : s.setJob cpu (some j) = s := by
  have hsame : (fun c => if c = cpu then some j else s.jobs c) = s.jobs := by
    funext c
    split
    · rename_i hc
      rw [hc, hj]
    · rfl
  rw [setJob, hsame]

theorem Sound.works (h : Sound s) {a : Act} (ha : s.Unnested a) {r : Nat} (hw : s.Works r cpu a) :
    Sound (s.act a) ∧ Proceeds cpu r s (s.act a) := by
  cases a with
  | revoke c root =>
    obtain ⟨rfl, rfl, hheld, hnone⟩ := hw
    rw [act, if_pos ⟨hheld, hnone⟩]
    obtain ⟨hsound, hborn, hheld', hdone⟩ := (h.begin hheld hnone ha).proceed
    exact ⟨hsound, hborn, fun d hd => hheld' d fun hu => hd (hu.congr rfl),
      fun hend d hd => hdone hend d (hd.congr rfl)⟩
  | step c =>
    obtain ⟨rfl, j, hj, rfl⟩ := hw
    simp only [act, hj]
    exact Sound.proceed ((setJob_self hj).symm ▸ h)
  | create | derive _ | map _ | unmap _ | drop _ | sweep _ => cases hw

theorem derive_rest (src : Nat) (s : Caps) : ((s.enterSource src).bear src).jobs = s.jobs ∧
    ((s.enterSource src).bear src).revoking = s.revoking ∧ ((s.enterSource src).bear src).next = s.next + 1 ∧
    ∀ i, ((s.enterSource src).bear src).born i = if i = s.next then src else s.born i := by
  obtain ⟨-, hborn, hnext, -, hrev, hjobs⟩ := enterSource_rest src s
  obtain ⟨-, -, -, -, hrev', hjobs'⟩ := enter_rest (s.enterSource src).next src (s.enterSource src)
  refine ⟨hjobs'.trans hjobs, hrev'.trans hrev, congrArg (· + 1) hnext, ?_⟩
  intro i
  change (if i = (s.enterSource src).next then src else (s.enterSource src).born i) = _
  rw [hnext, hborn]

theorem act_sound {a : Act} (h : Sound s) (ha : s.Unnested a) : Sound (s.act a) := by
  cases a with
  | create => exact h.keep h.kept.create rfl (Nat.le_succ _) fun i hi => if_neg (Nat.ne_of_lt hi)
  | derive src =>
    have hkept := h.kept.derive src
    rw [act] at hkept ⊢
    split at hkept
    · rename_i hsrc
      rw [if_pos hsrc]
      obtain ⟨hjobs, -, hnext, hborn⟩ := derive_rest src s
      exact h.keep hkept hjobs (by rw [hnext]; exact Nat.le_succ _) fun i hi =>
        (hborn i).trans (if_neg (Nat.ne_of_lt hi))
    · rename_i hsrc
      rw [if_neg hsrc]
      exact h
  | map id =>
    have hkept := h.kept.map id
    rw [act] at hkept ⊢
    split at hkept
    · rename_i hid
      rw [if_pos hid]
      exact h.keep hkept rfl (Nat.le_refl _) fun _ _ => rfl
    · rename_i hid
      rw [if_neg hid]
      exact h
  | unmap id => exact h.keep (h.kept.unmap id) rfl (Nat.le_refl _) fun _ _ => rfl
  | drop id =>
    rw [act]
    split
    · have hsame := forget_rest id (s.letGo id)
      exact h.keep ((h.kept.letGo id).forget (letGo_held id)) hsame.jobs (Nat.le_of_eq hsame.next.symm)
        fun i _ => congrFun hsame.born i
    · exact h
  | sweep ids =>
    have hsame := sweep_rest (ids.filter s.isGhost) s
    exact h.keep (h.kept.sweep _) hsame.jobs (Nat.le_of_eq hsame.next.symm) fun i _ => congrFun hsame.born i
  | revoke cpu root =>
    by_cases hroot : s.held root = true ∧ s.jobs cpu = none
    · have hw : s.Works root cpu (.revoke cpu root) := ⟨rfl, rfl, hroot⟩
      exact (h.works ha hw).1
    · rw [act, if_neg hroot]
      exact h
  | step cpu =>
    cases hj : s.jobs cpu with
    | none =>
      simp only [act, hj]
      exact h
    | some j =>
      have hw : s.Works j.root cpu (.step cpu) := ⟨rfl, j, hj, rfl⟩
      exact (h.works ha hw).1

theorem new_sound : Sound new where
  kept := ⟨⟨rfl, rfl, Nat.one_pos⟩, fun _ _ => ⟨rfl, rfl, rfl, rfl⟩, fun _ h => absurd rfl h,
    fun _ _ h => (by cases h), fun _ h => (by cases h), fun _ h => (by cases h), fun _ _ h => (by cases h),
    fun _ _ h => (by cases h), fun _ ⟨_, _, h, _⟩ => (by cases h)⟩
  stack := fun _ _ h => by cases h
  root := fun _ _ h => by cases h
  apart := fun _ _ _ _ h => by cases h

theorem reaches_sound (h : Reaches Unnested s) : Sound s := by
  induction h with
  | new => exact new_sound
  | act a _ ha ih => exact act_sound ih ha

/-- Once the last step of a revocation is done nothing derived from its root is held or mapped, and
no step took the root or anything outside what derives from it. -/
def Completes (s : Caps) (a : Act) : Prop := ∀ r cpu, s.Works r cpu a →
  ((s.act a).jobs cpu = none → ∀ d, Under (s.act a) r d →
    (s.act a).held d = false ∧ (s.act a).mapped d = false) ∧
  (s.act a).held r = s.held r ∧ ∀ d, ¬Under s r d → (s.act a).held d = s.held d

theorem revocations_complete (h : Reaches Unnested s) {a : Act} (ha : s.Unnested a) : Completes s a := by
  intro r cpu hw
  have hsound := reaches_sound h
  obtain ⟨-, hborn, hheld, hdone⟩ := hsound.works ha hw
  refine ⟨fun hend d hd => hdone hend d ((under_congr hborn).mp hd), hheld r ?_, hheld⟩
  intro hr
  exact Nat.lt_irrefl r (hr.lt hsound.kept.younger)

/-- A child and a grandchild that memory is mapped through. -/
theorem child_revoked : ∃ s, Reaches Unnested s ∧ (s.held 2 = true ∧ s.held 3 = true ∧ s.mapped 3 = true) ∧
    Under s 1 3 ∧ (s.act (.revoke 0 1)).held 2 = false ∧ (s.act (.revoke 0 1)).held 3 = false ∧
    (s.act (.revoke 0 1)).mapped 3 = false ∧ (s.act (.revoke 0 1)).held 1 = true := by
  have hreach : Reaches Unnested ((((new.act .create).act (.derive 1)).act (.derive 2)).act (.map 3)) :=
    (((Reaches.new.act .create trivial).act (.derive 1) trivial).act (.derive 2) trivial).act (.map 3) trivial
  obtain ⟨hgone, hroot, -⟩ := revocations_complete hreach (a := .revoke 0 1) (fun c j hj => by cases hj) 1 0
    ⟨rfl, rfl, rfl, rfl⟩
  have hthree := hgone rfl 3 (.step (by decide) (.child rfl (by decide)))
  refine ⟨_, hreach, ⟨rfl, rfl, rfl⟩, .step (by decide) (.child rfl (by decide)), ?_, hthree.1, hthree.2, hroot⟩
  exact (hgone rfl 2 (.child rfl (by decide))).1

/-- A revocation ends with a node under its root still held, since another, of a node between them,
has taken the way to it out of the lists. -/
theorem ends_above_another : ∃ s, Reaches (fun _ _ => True) s ∧ s.Works 1 1 (.revoke 1 1) ∧
    (s.act (.revoke 1 1)).jobs 1 = none ∧ Under (s.act (.revoke 1 1)) 1 5 ∧
    (s.act (.revoke 1 1)).held 5 = true ∧ ¬Completes s (.revoke 1 1) := by
  have hworks : stopped.Works 1 1 (.revoke 1 1) := ⟨rfl, rfl, rfl, rfl⟩
  have hend : (stopped.act (.revoke 1 1)).jobs 1 = none := rfl
  have hheld : (stopped.act (.revoke 1 1)).held 5 = true := rfl
  have hunder : Under (stopped.act (.revoke 1 1)) 1 5 :=
    .step (by decide) (.step (by decide) (.step (by decide) (.child rfl (by decide))))
  refine ⟨stopped, reaches_stopped.imp fun _ _ _ => trivial, hworks, hend, hunder, hheld, ?_⟩
  intro hcomplete
  rw [((hcomplete 1 1 hworks).1 hend 5 hunder).1] at hheld
  cases hheld

end Several

end MindCore.Kernel.Caps
