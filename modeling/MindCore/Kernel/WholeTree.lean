import MindCore.Kernel.JoinedTree

/-!
# The ways up through a run

Every call that lets go of no ghost under the root of a revocation in progress keeps the way up from
every node whole.
-/

namespace MindCore.Kernel.Caps

open List

section Several
variable {s t : Caps} {x cpu : Nat} {j : Revocation}

def Rooted (jobs : Nat → Option Revocation) (x : Nat) : Prop := ∃ c j, jobs c = some j ∧ j.root = x

/-- The way up from every node is whole, through any number of revocations in progress. -/
structure Whole (s : Caps) : Prop where
  sound : Sound s
  ordered : ∀ c j, s.jobs c = some j → Ordered j.root j.stack s
  joined : Joined (Rooted s.jobs) s
  listed : ∀ c j, s.jobs c = some j → j.root ∈ s.revoking

theorem Whole.keep (h : Whole s) (hsound : Sound t) (hjobs : t.jobs = s.jobs) (hrev : t.revoking = s.revoking)
    (hborn : ∀ i, i < s.next → t.born i = s.born i) (hjoined : Joined (Rooted s.jobs) t) : Whole t := by
  refine ⟨hsound, ?_, hjobs ▸ hjoined, ?_⟩
  · intro c j hj
    rw [hjobs] at hj
    have ho := h.ordered c j hj
    refine ⟨ho.sorted, fun x hx hne => ?_⟩
    rw [hborn x (h.sound.kept.away x ⟨c, j, hj, hx, hne⟩).1]
    exact ho.back x hx hne
  · intro c j hj
    rw [hjobs] at hj
    rw [hrev]
    exact h.listed c j hj

/-- Under no root of a revocation in progress. -/
def Free (s : Caps) (x : Nat) : Prop := ∀ c j, s.jobs c = some j → ¬Under s j.root x

theorem Whole.born_out (h : Whole s) {id : Nat} (hid : Out s.jobs id) :
    Out s.jobs (s.born id) ∨ Rooted s.jobs (s.born id) := by
  obtain ⟨c, j, hj, hmem, hne⟩ := hid
  have hback := (h.ordered c j hj).back id hmem hne
  by_cases hroot : s.born id = j.root
  · exact .inr ⟨c, j, hj, hroot.symm⟩
  · exact .inl ⟨c, j, hj, hback, hroot⟩

theorem Sound.out_under (h : Sound s) {id : Nat} (hid : Out s.jobs id) :
    ∃ c j, s.jobs c = some j ∧ Under s j.root id := by
  obtain ⟨c, j, hj, hmem, hne⟩ := hid
  obtain ⟨above, hstack, habove⟩ := h.stack c j hj
  rw [hstack, mem_append, mem_singleton] at hmem
  exact ⟨c, j, hj, habove id (hmem.resolve_right hne)⟩

theorem Whole.clear (h : Whole s) (hfree : Free s x) : Clear (Out s.jobs) (Rooted s.jobs) s x := by
  intro id hid _ hup
  refine (h.born_out hid).resolve_left ?_
  intro hout
  obtain ⟨c, j, hj, hunder⟩ := h.sound.out_under hout
  rcases hup with heq | hu
  · exact hfree c j hj (heq ▸ hunder)
  · exact hfree c j hj (hunder.trans hu)

theorem Sound.root_free (h : Sound s) (hj : s.jobs cpu = some j) : Free s j.root := by
  intro c j' hj' hu
  by_cases hc : c = cpu
  · rw [hc, hj] at hj'
    cases hj'
    exact Nat.lt_irrefl _ (hu.lt h.kept.younger)
  · exact (h.apart c cpu j' j hj' hj hc).2 hu

theorem Whole.move (h : Whole (s.setJob cpu (some j))) {o : Option Revocation} (revoking : List Nat)
    (hsound : Sound { t.setJob cpu o with revoking := revoking }) (hjobs : t.jobs = s.jobs) (hborn : t.born = s.born)
    (ho : ∀ j', o = some j' → j'.root = j.root ∧ Ordered j.root j'.stack t)
    (hjoined : Joined (Rooted (s.setJob cpu (some j)).jobs) t)
    (hgone : o = none → ∀ id e, t.index id = some e → e.parent ≠ 0 → e.parent ≠ j.root)
    (hrev : ∀ r ∈ s.revoking, o ≠ none ∨ r ≠ j.root → r ∈ revoking) :
    Whole { t.setJob cpu o with revoking := revoking } := by
  have hcpu : (s.setJob cpu (some j)).jobs cpu = some j := if_pos rfl
  have hold : ∀ c j', (t.setJob cpu o).jobs c = some j' → ∃ j₀, (s.setJob cpu (some j)).jobs c = some j₀ ∧
      j'.root = j₀.root ∧ (c ≠ cpu → j' = j₀) := fun c j' hj' => setJob_old hjobs (fun j' hj' => (ho j' hj').1) hj'
  refine ⟨hsound, ?_, ⟨hjoined.depth, ?_⟩, ?_⟩
  · intro c j' hj'
    obtain ⟨j₀, hj₀, -, hsame⟩ := hold c j' hj'
    by_cases hc : c = cpu
    · have hj'' : o = some j' := (show (t.setJob cpu o).jobs c = o from if_pos hc) ▸ hj'
      obtain ⟨hroot, hord⟩ := ho j' hj''
      rw [hroot]
      exact ⟨hord.sorted, hord.back⟩
    · rw [hsame hc]
      refine ⟨(h.ordered c j₀ hj₀).sorted, fun x hx hne => ?_⟩
      change t.born x ∈ j₀.stack
      rw [hborn]
      exact (h.ordered c j₀ hj₀).back x hx hne
  · intro id e he h0
    refine (hjoined.way id e he h0).imp_left ?_
    rintro ⟨c, j', hj', hpar⟩
    by_cases hc : c = cpu
    · rw [hc, hcpu] at hj'
      cases hj'
      cases hnew : o with
      | none => exact absurd hpar.symm (hgone hnew id e he h0)
      | some j'' => exact ⟨cpu, j'', if_pos rfl, (ho j'' hnew).1.trans hpar⟩
    · refine ⟨c, j', (if_neg hc).trans ?_, hpar⟩
      rw [hjobs]
      exact (if_neg hc).symm.trans hj'
  · intro c j' hj'
    obtain ⟨j₀, hj₀, hroot, -⟩ := hold c j' hj'
    rw [hroot]
    refine hrev _ (h.listed c j₀ hj₀) ?_
    by_cases hc : c = cpu
    · refine .inl fun hnone => ?_
      rw [show (t.setJob cpu o).jobs c = o from if_pos hc, hnone] at hj'
      cases hj'
    · exact .inr (h.sound.apart c cpu j₀ j hj₀ hcpu hc).1

theorem Whole.proceed (h : Whole (s.setJob cpu (some j))) : Whole (proceed cpu j s) := by
  have hcpu : (s.setJob cpu (some j)).jobs cpu = some j := if_pos rfl
  have hw := h.sound.walks
  have hclear : Clear (Out (s.setJob cpu none).jobs) (Rooted (s.setJob cpu (some j)).jobs) s j.root := by
    refine Clear.congr (fun id hid => h.clear (h.sound.root_free hcpu) id ?_) rfl
    exact (out_setJob s cpu j id).mpr (.inr hid)
  obtain ⟨ho, hjoined⟩ := walk_joined (j.stack.length + 2 * revokeStepNodes) revokeStepNodes hw
    ⟨(h.ordered cpu j hcpu).sorted, (h.ordered cpu j hcpu).back⟩ ⟨h.joined.depth, h.joined.way⟩ hclear
  have hw' := (walk_walks (j.stack.length + 2 * revokeStepNodes) revokeStepNodes hw).1
  obtain ⟨hroot, hborn, hrev, hjobs⟩ := walk_rest (j.stack.length + 2 * revokeStepNodes) revokeStepNodes j s
  change (s.revokeStep j).2.revoking = s.revoking at hrev
  change Walks _ (s.revokeStep j).1 (s.revokeStep j).2 at hw'
  have hsound := h.sound.proceed.1
  rw [Caps.proceed] at hsound ⊢
  split
  · rename_i hnil
    rw [if_pos hnil] at hsound
    refine h.move _ hsound hjobs hborn (fun _ hnone => by cases hnone) hjoined ?_ ?_
    · -- Nothing is left under the root of the revocation that has ended.
      intro _ id e he h0 hpar
      have hchild : (s.revokeStep j).2.born id = (s.revokeStep j).1.root := by
        rw [← hw'.kept.entry id e he, hpar]
        exact hroot.symm
      have hnone := hw'.done hnil id (.child hchild (by rw [← hchild, ← hw'.kept.entry id e he]; exact h0))
      change (s.revokeStep j).2.index id = some e at he
      rw [hnone] at he
      cases he
    · intro r hr hne
      rw [hrev]
      exact (mem_erase_of_ne (hne.resolve_left fun h => h rfl)).mpr hr
  · rename_i hsome
    rw [if_neg hsome] at hsound
    refine h.move (o := some (s.revokeStep j).1) (s.revokeStep j).2.revoking hsound hjobs hborn ?_ hjoined
      (fun hnone => by cases hnone) ?_
    · intro j' hj'
      cases hj'
      exact ⟨hroot, ho⟩
    · intro r hr _
      rw [hrev]
      exact hr

end Several

section Acts
variable {out : Nat → Prop} {s : Caps} {x : Nat} {e : Entry}

theorem letGoOf_stays (fuel : Nat) (h : ∀ e, s.index x = some e → s.Derived x e ∨ (e.ghost = false ∧ e.parent ≠ 0)) :
    letGoOf fuel x s = s := by
  cases fuel with
  | zero => rfl
  | succ fuel =>
    cases hx : s.index x with
    | none => simp only [letGoOf, hx]
    | some e =>
      rw [letGoOf_some hx]
      rcases h e hx with hd | ⟨hghost, hpar⟩
      · rw [if_pos hd]
      · rw [hghost, if_neg (show ¬(false = true) by decide), if_neg hpar, ite_self]

/-- Letting go of a node outside the tree under `r` leaves the entries of that tree as they are. -/
theorem Kept.letGoOf_index (hk : Kept out s) (fuel : Nat) {r d : Nat} (hx : ¬Under s r x) (hd : Under s r d) :
    (Caps.letGoOf fuel x s).index d = s.index d := by
  induction fuel generalizing x s with
  | zero => rfl
  | succ fuel ih =>
    have hne : d ≠ x := by
      rintro rfl
      exact hx hd
    cases he : s.index x with
    | none => simp only [Caps.letGoOf, he]
    | some e =>
      rw [letGoOf_some he]
      split
      · rfl
      rename_i hnot
      split
      · rename_i hghost
        have hborn : ((s.unlink x).put x none).born = s.born := (unlink_rest x s).born
        have hup : ∀ y, Under s r y → y ≠ e.parent := by
          rintro y hy rfl
          rw [hk.entry x e he] at hy
          exact hx (.step (Nat.ne_of_gt (Nat.zero_lt_of_lt (hy.lt hk.younger))) hy)
        rw [ih (hk.forgotten he hnot (hk.filed.held_ghost he hghost))
          (fun h => hup _ ((under_congr hborn).mp h) rfl) ((under_congr hborn).mpr hd)]
        refine (if_neg hne).trans ?_
        simp only [unlink, he, unlinkFrom]
        split
        · rfl
        · exact if_neg (hup d hd)
      split
      · exact if_neg hne
      · rfl

theorem Whole.letGoOf (h : Whole s) (hfree : Free s x) (fuel : Nat) : Whole (Caps.letGoOf fuel x s) := by
  have hsame := letGoOf_rest fuel x s
  refine h.keep ?_ hsame.jobs hsame.revoking (fun i _ => congrFun hsame.born i)
    (h.joined.letGoOf fuel h.sound.kept (h.clear hfree))
  exact h.sound.keep (h.sound.kept.letGoOf fuel x) hsame.jobs (Nat.le_of_eq hsame.next.symm)
    fun i _ => congrFun hsame.born i

theorem Whole.sweep (ids : List Nat) {s : Caps} (h : Whole s)
    (hids : ∀ c j, s.jobs c = some j → ∀ id ∈ ids, Under s j.root id → ∀ e, s.index id = some e → s.Derived id e) :
    Whole (ids.foldl (fun s id => Caps.letGoOf (id + 1) id s) s) := by
  induction ids generalizing s with
  | nil => exact h
  | cons id ids ih =>
    by_cases hfree : Free s id
    · refine ih (h.letGoOf hfree _) ?_
      have hsame := letGoOf_rest (id + 1) id s
      intro c j hj k hk hunder e he
      rw [hsame.jobs] at hj
      rw [under_congr hsame.born] at hunder
      rw [h.sound.kept.letGoOf_index (id + 1) (hfree c j hj) hunder] at he
      rw [Derived, hsame.mapped]
      exact hids c j hj k (mem_cons_of_mem _ hk) hunder e he
    · obtain ⟨c, j, hj, hunder⟩ : ∃ c j, s.jobs c = some j ∧ Under s j.root id := by
        by_contra hnone
        exact hfree fun c j hj hu => hnone ⟨c, j, hj, hu⟩
      have hstays : Caps.letGoOf (id + 1) id s = s :=
        letGoOf_stays _ fun e he => .inl (hids c j hj id mem_cons_self hunder e he)
      rw [foldl_cons, hstays]
      exact ih h fun c j hj k hk => hids c j hj k (mem_cons_of_mem _ hk)

theorem Whole.drop (h : Whole s) (hheld : s.held x = true)
    (hx : ∀ c j, s.jobs c = some j → Under s j.root (s.born x) → ¬s.KeptFor x) :
    Joined (Rooted s.jobs) (Caps.forget x (s.letGo x)) := by
  have hk := h.sound.kept.letGo x
  have hj : Joined (Rooted s.jobs) (s.letGo x) := ⟨h.joined.depth, h.joined.way⟩
  cases he : (s.letGo x).index x with
  | none =>
    rw [forget_none he]
    exact hj
  | some e =>
    rw [forget_some he]
    split
    · exact hj.grown (grown_ghost he)
    rename_i hnot
    have hd := drops_unlink hk.kids he
    have hborn := (unlink_rest x (s.letGo x)).born
    have hpar : e.parent = s.born x := hk.entry x e he
    have hkept := hk.forgotten he hnot fun hh => by rw [letGo_held] at hh; cases hh
    -- A node on a walk's stack is held by nobody.
    have hlast := hk.last (Rooted s.jobs) he (kids_nil_of_not_derived hnot) fun id hid _ hb => by
      rcases h.born_out hid with hout | hroot
      · rw [show s.born id = x from hb] at hout
        rw [(h.sound.kept.away x hout).2.1] at hheld
        cases hheld
      · exact hb ▸ hroot
    have hj' := hj.drops hd hlast
    by_cases hfree : Free s e.parent
    · exact hj'.letGoOf _ hkept ((h.clear hfree).congr hborn)
    · obtain ⟨c, j, hjob, hunder⟩ : ∃ c j, s.jobs c = some j ∧ Under s j.root e.parent := by
        by_contra hnone
        exact hfree fun c j hj hu => hnone ⟨c, j, hj, hu⟩
      rw [letGoOf_stays]
      · exact hj'
      intro p' hp'
      obtain ⟨-, p, hp, hcut⟩ := hd.before hp'
      have hp0 : p'.parent ≠ 0 := by
        rw [hcut.parent, h.sound.kept.entry _ p hp]
        exact hunder.born_ne
      by_cases hghost : p.ghost = true
      · refine .inl ?_
        rw [hpar] at hp hunder
        have hnot' := hx c j hjob hunder
        by_cases hmap : s.mapped (s.born x) = true
        · rw [hpar] at hp' ⊢
          exact .inr ⟨hp0, (congrFun (unlink_rest x (s.letGo x)).mapped _).trans hmap⟩
        · refine .inl fun hnil => hnot' ⟨p, hp, hghost, by simpa using hmap, fun k hk => ?_⟩
          by_contra hkx
          have := (hcut.kids k).mpr ⟨hk, hkx⟩
          rw [hnil] at this
          cases this
      · exact .inr ⟨by rw [hcut.ghost]; simpa using hghost, hp0⟩

theorem deriveRefused_none {src : Nat} (h : s.deriveRefused src true = none) :
    ((s.index src).map Entry.depth).getD 0 + 1 ≤ deriveDepthMax := by
  rw [deriveRefused] at h
  split at h
  · cases h
  · split at h
    · cases h
    · rename_i hlim
      exact Nat.not_lt.mp fun hlt => hlim ⟨rfl, hlt⟩

theorem Joined.bear {roots : Nat → Prop} {src : Nat} {p : Entry} (hj : Joined roots s) (hk : Kept out s)
    (hp : s.index src = some p) (hdepth : p.depth + 1 ≤ deriveDepthMax) : Joined roots (s.bear src) := by
  obtain ⟨hput, hback, hnew, hsrc⟩ := hk.filed.bear_entries hp
  refine hj.carry ?_ ?_
  · intro i q hq
    obtain ⟨-, q', hq', -, hd, -⟩ := hback i q hq
    exact ⟨q', hq', hd⟩
  · intro i q hq
    rcases hput i q hq with ⟨-, rfl⟩ | ⟨q₀, hq₀, hpar, hd, -⟩
    · exact .inr ⟨hdepth, fun _ => ⟨_, hsrc, Nat.lt_succ_self _⟩⟩
    · exact .inl ⟨q₀, hq₀, hpar, hd⟩

theorem Whole.derive (h : Whole s) {src : Nat} (hheld : s.held src = true) (hnone : s.deriveRefused src true = none) :
    Joined (Rooted s.jobs) ((s.enterSource src).bear src) := by
  have hdepth := deriveRefused_none hnone
  have hk := h.sound.kept
  obtain ⟨h0, hlt⟩ := hk.filed.held_lt hheld
  rcases hk.filed.enterSource_cases hheld with ⟨hp, hborn, henter⟩ | ⟨p, hp, henter⟩
  · rw [henter]
    exact (h.joined.grown (grown_root hp)).bear (hk.enterRoot hp hborn h0 hlt) (if_pos rfl) (by decide)
  · rw [henter]
    rw [hp] at hdepth
    exact h.joined.bear hk hp hdepth

theorem Whole.begin (h : Whole s) {root cpu : Nat} (hsound : Sound
    ({ s with revoking := root :: s.revoking }.setJob cpu (some ⟨root, [root]⟩))) (hcpu : s.jobs cpu = none) :
    Whole ({ s with revoking := root :: s.revoking }.setJob cpu (some ⟨root, [root]⟩)) := by
  have hjob : ∀ c j, ({ s with revoking := root :: s.revoking }.setJob cpu (some ⟨root, [root]⟩)).jobs c =
      some j → j = ⟨root, [root]⟩ ∨ s.jobs c = some j := by
    intro c j hj
    change (if c = cpu then _ else s.jobs c) = _ at hj
    split at hj
    · exact .inl (Option.some.inj hj).symm
    · exact .inr hj
  refine ⟨hsound, ?_, ⟨h.joined.depth, ?_⟩, ?_⟩
  · intro c j hj
    rcases hjob c j hj with rfl | hj
    · exact ⟨pairwise_singleton _ _, fun x hx hne => absurd (mem_singleton.mp hx) hne⟩
    · exact ⟨(h.ordered c j hj).sorted, (h.ordered c j hj).back⟩
  · intro id e he h0
    refine (h.joined.way id e he h0).imp_left ?_
    rintro ⟨c, j, hj, hpar⟩
    refine ⟨c, j, (if_neg ?_).trans hj, hpar⟩
    rintro rfl
    rw [hcpu] at hj
    cases hj
  · intro c j hj
    rcases hjob c j hj with rfl | hj
    · exact mem_cons_self
    · exact mem_cons_of_mem _ (h.listed c j hj)

theorem act_whole {a : Act} (h : Whole s) (ha : s.Gentle a) : Whole (s.act a) := by
  have hsound := act_sound h.sound ha.unnested
  cases a with
  | create =>
    exact h.keep hsound rfl rfl (fun i hi => if_neg (Nat.ne_of_lt hi)) ⟨h.joined.depth, h.joined.way⟩
  | derive src =>
    rw [act] at hsound ⊢
    split
    · rename_i hsrc
      rw [if_pos hsrc] at hsound
      obtain ⟨hjobs, hrev, -, hborn⟩ := derive_rest src s
      exact h.keep hsound hjobs hrev (fun i hi => (hborn i).trans (if_neg (Nat.ne_of_lt hi)))
        (h.derive hsrc.1 hsrc.2)
    · exact h
  | map id =>
    rw [act] at hsound ⊢
    split
    · rename_i hid
      rw [if_pos hid] at hsound
      exact h.keep hsound rfl rfl (fun _ _ => rfl) ⟨h.joined.depth, h.joined.way⟩
    · exact h
  | unmap id => exact h.keep hsound rfl rfl (fun _ _ => rfl) ⟨h.joined.depth, h.joined.way⟩
  | drop id =>
    rw [act] at hsound ⊢
    split
    · rename_i hid
      rw [if_pos hid] at hsound
      have hsame := forget_rest id (s.letGo id)
      exact h.keep hsound hsame.jobs hsame.revoking (fun i _ => congrFun hsame.born i) (h.drop hid ha)
    · exact h
  | sweep ids =>
    refine h.sweep _ fun c j hj id hid hunder e he => ?_
    obtain ⟨hmem, hghost⟩ := mem_filter.mp hid
    rw [isGhost, he] at hghost
    exact ha c j hj id hmem hunder e he hghost
  | revoke cpu root =>
    rw [act]
    split
    · rename_i hroot
      exact (h.begin (h.sound.begin hroot.1 hroot.2 ha) hroot.2).proceed
    · exact h
  | step cpu =>
    cases hj : s.jobs cpu with
    | none =>
      simp only [act, hj]
      exact h
    | some j =>
      simp only [act, hj]
      exact Whole.proceed ((setJob_self hj).symm ▸ h)

theorem new_whole : Whole new where
  sound := new_sound
  ordered := fun _ _ h => by cases h
  joined := ⟨fun _ _ h => (by cases h), fun _ _ h => (by cases h)⟩
  listed := fun _ _ h => by cases h

theorem reaches_whole (h : Reaches Gentle s) : Whole s := by
  induction h with
  | new => exact new_whole
  | act a _ ha ih => exact act_whole ih ha

end Acts

end MindCore.Kernel.Caps
