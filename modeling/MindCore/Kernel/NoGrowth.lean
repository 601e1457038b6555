import MindCore.Kernel.WholeTree
import Mathlib.Data.Set.Card

/-!
# Nothing grows under a revocation

From the first step of a revocation to its last, through drops, sweeps, derivations and the steps of
other revocations: what derives from its root is refused, nothing more comes to derive from it, and
its walk ends.
-/

namespace MindCore.Kernel.Caps

open List

section Growth
variable {s : Caps} {r : Nat}

theorem Whole.covered (h : Whole s) (hr : Rooted s.jobs r) (n : Nat) :
    ∀ d e, s.index d = some e → e.depth < n → Under s r d → s.covered n d = true := by
  induction n with
  | zero =>
    intro d e _ hlt
    exact absurd hlt (Nat.not_lt_zero _)
  | succ n ih =>
    intro d e he hlt hunder
    rw [Caps.covered]
    split
    · rfl
    have hpar := h.sound.kept.entry d e he
    have h0 : e.parent ≠ 0 := by
      rw [hpar]
      exact hunder.born_ne
    simp only [he, if_neg h0]
    have hroot : Rooted s.jobs e.parent → s.covered n e.parent = true := by
      rintro ⟨c, j, hj, hroot⟩
      have hpos := (h.joined.depth d e he).2 h0
      cases n with
      | zero => omega
      | succ n => rw [Caps.covered, if_pos (hroot ▸ h.listed c j hj)]
    rcases h.joined.way d e he h0 with hroot' | ⟨p, hp, hdepth⟩
    · exact hroot hroot'
    · cases hunder with
      | child hb _ =>
        refine hroot ?_
        rw [hpar, hb]
        exact hr
      | step _ hu =>
        rw [← hpar] at hu
        exact ih e.parent p hp (by omega) hu

theorem Whole.refused (h : Whole s) (hr : Rooted s.jobs r) {d : Nat} (hheld : s.held d = true)
    (hd : d = r ∨ Under s r d) (copy : Bool) : s.deriveRefused d copy = some .revoking := by
  have hcovered : s.covered (deriveDepthMax + 1) d = true := by
    rcases hd with rfl | hunder
    · obtain ⟨c, j, hj, hroot⟩ := hr
      rw [Caps.covered, if_pos (hroot ▸ h.listed c j hj)]
    · obtain ⟨e, he, -⟩ := h.sound.kept.held d hheld hunder.born_ne
      exact h.covered hr _ d e he (Nat.lt_succ_of_le (h.joined.depth d e he).1) hunder
  rw [deriveRefused, if_pos hcovered]

/-- In the list of children of some entry. -/
def Listed (s : Caps) (k : Nat) : Prop := ∃ q p, s.index q = some p ∧ k ∈ p.kids

variable {k : Nat}

theorem put_listed {id : Nat} {o : Option Entry} (ho : ∀ e, o = some e → k ∈ e.kids → s.Listed k)
    (h : (s.put id o).Listed k) : s.Listed k := by
  obtain ⟨q, p, hp, hk⟩ := h
  change (if q = id then o else s.index q) = some p at hp
  split at hp
  · exact ho p hp hk
  · exact ⟨q, p, hp, hk⟩

theorem put_none_listed {id : Nat} (h : (s.put id none).Listed k) : s.Listed k :=
  put_listed (fun _ ho => by cases ho) h

theorem put_root_listed {id parent depth : Nat} (h : (s.put id (some ⟨parent, depth, false, []⟩)).Listed k) :
    s.Listed k := by
  refine put_listed ?_ h
  intro e ho hk
  cases ho
  cases hk

theorem unlink_listed {id : Nat} (h : (s.unlink id).Listed k) : s.Listed k := by
  rw [unlink] at h
  split at h
  · exact h
  · rw [unlinkFrom] at h
    split at h
    · exact h
    · rename_i p hp
      refine put_listed ?_ h
      intro e ho hk
      cases ho
      exact ⟨_, p, hp, (mem_filter.mp hk).1⟩

theorem haunt_listed {id : Nat} {e : Entry} (he : s.index id = some e)
    (h : (s.put id (some { e with ghost := true })).Listed k) : s.Listed k := by
  refine put_listed ?_ h
  intro e' ho hk
  cases ho
  exact ⟨id, e, he, hk⟩

theorem letGoOf_listed (fuel id : Nat) (h : (letGoOf fuel id s).Listed k) : s.Listed k := by
  refine letGoOf_induct (P := fun t => t.Listed k → s.Listed k) ?_ ?_ (fun h => h) fuel id h
  · intro t x _ ih _ _ _ h
    exact ih (unlink_listed (put_none_listed h))
  · intro t x _ ih _ _ _ h
    exact ih (put_none_listed h)

theorem forget_listed {id : Nat} (h : (forget id s).Listed k) : s.Listed k := by
  rw [forget] at h
  split at h
  · exact h
  · rename_i e he
    split at h
    · exact haunt_listed he h
    · exact unlink_listed (put_none_listed (letGoOf_listed _ _ h))

theorem sweep_listed (ids : List Nat) {s : Caps}
    (h : (ids.foldl (fun s id => letGoOf (id + 1) id s) s).Listed k) : s.Listed k := by
  induction ids generalizing s with
  | nil => exact h
  | cons id ids ih => exact letGoOf_listed _ _ (ih h)

theorem enter_listed {id parent : Nat} (h : (s.enter id parent).Listed k) : s.Listed k ∨ k = id := by
  simp only [enter] at h
  split at h
  · exact .inl (put_root_listed h)
  · rw [link] at h
    split at h
    · exact .inl (put_root_listed h)
    · rename_i p hp
      by_cases hk : k = id
      · exact .inr hk
      · refine .inl (put_root_listed (put_listed ?_ h))
        intro e ho hmem
        cases ho
        exact ⟨_, p, hp, (mem_cons.mp hmem).resolve_left hk⟩

theorem leave_listed {root top : Nat} (h : (s.leave root top).Listed k) : s.Listed k := by
  rw [leave] at h
  split at h
  · exact letGoOf_listed _ _ h
  · exact put_none_listed h

theorem visit_listed {kid : Nat} (h : (s.visit kid).Listed k) : s.Listed k := by
  simp only [visit] at h
  split at h
  · exact unlink_listed h
  · rename_i e he
    exact unlink_listed (haunt_listed he h)

theorem walk_shrinks (fuel budget : Nat) (j : Revocation) (s : Caps) :
    (∀ k, (walk fuel budget j s).2.Listed k → s.Listed k) ∧
      ∀ d, (walk fuel budget j s).2.held d = true → s.held d = true := by
  induction fuel generalizing budget j s with
  | zero => exact ⟨fun _ h => h, fun _ h => h⟩
  | succ fuel ih =>
    rw [walk]
    split
    · exact ⟨fun _ h => h, fun _ h => h⟩
    cases hstack : j.stack with
    | nil => exact ⟨fun _ h => h, fun _ h => h⟩
    | cons top rest =>
      cases hkids : s.kidsOf top with
      | nil =>
        obtain ⟨hlisted, hheld⟩ := ih budget { j with stack := rest } (s.leave j.root top)
        simp only [hkids]
        exact ⟨fun k h => leave_listed (hlisted k h), fun d h => (leave_rest j.root top s).held ▸ hheld d h⟩
      | cons kid ks =>
        obtain ⟨hlisted, hheld⟩ := ih (budget - 1) { j with stack := kid :: top :: rest } (s.visit kid)
        simp only [hkids]
        refine ⟨fun k h => visit_listed (hlisted k h), fun d h => held_of_letGo (y := kid) ?_⟩
        rw [← (visit_rest kid s).1]
        exact hheld d h

/-- A step that does not end the walk takes a node out of its list. -/
theorem walk_visits (fuel budget : Nat) {others : Nat → Prop} {j : Revocation} {s : Caps} (h : Walks others j s)
    (hfuel : j.stack.length < fuel) (hbudget : budget ≠ 0) : (walk fuel budget j s).1.stack = [] ∨
      ∃ d, Under s j.root d ∧ s.Listed d ∧ ¬(walk fuel budget j s).2.Listed d := by
  induction fuel generalizing j s with
  | zero => omega
  | succ fuel ih =>
    rw [walk, if_neg hbudget]
    cases hstack : j.stack with
    | nil => exact .inl (by simp only [hstack])
    | cons top rest =>
      rw [hstack, length_cons] at hfuel
      cases hkids : s.kidsOf top with
      | nil =>
        simp only [hkids]
        refine (ih (h.leave hstack hkids) (show rest.length < fuel by omega)).imp_right ?_
        rintro ⟨d, hunder, hlisted, hnot⟩
        exact ⟨d, (under_congr (leave_rest _ _ s).born).mp hunder, leave_listed hlisted, hnot⟩
      | cons kid ks =>
        obtain ⟨p, hp, hmem⟩ := kidsOf_cons hkids
        obtain ⟨hunder, hwalks⟩ := h.visit hstack hkids
        have hne : kid ≠ j.root := Nat.ne_of_gt (hunder.lt h.kept.younger)
        simp only [hkids]
        refine .inr ⟨kid, hunder, ⟨top, p, hp, hmem⟩, fun hlisted => ?_⟩
        obtain ⟨q, p', hp', hmem'⟩ := (walk_shrinks _ _ _ _).1 kid hlisted
        exact (hwalks.kept.away kid (.inl ⟨mem_cons_self, hne⟩)).2.2.2 q p' hp' hmem'

theorem proceed_shrinks (cpu : Nat) (j : Revocation) (s : Caps) : (proceed cpu j s).born = s.born ∧
    (∀ k, (proceed cpu j s).Listed k → s.Listed k) ∧ ∀ d, (proceed cpu j s).held d = true → s.held d = true := by
  have hborn := (walk_rest (j.stack.length + 2 * revokeStepNodes) revokeStepNodes j s).2.1
  obtain ⟨hlisted, hheld⟩ := walk_shrinks (j.stack.length + 2 * revokeStepNodes) revokeStepNodes j s
  rw [proceed]
  split
  · exact ⟨hborn, hlisted, hheld⟩
  · exact ⟨hborn, hlisted, hheld⟩

/-- What one call adds: at most the node `next`, and only under a source that is not refused. -/
structure Grows (s t : Caps) : Prop where
  born : ∀ i, t.born i = s.born i ∨ (i = s.next ∧ (t.born i = 0 ∨
    (s.held (t.born i) = true ∧ s.deriveRefused (t.born i) true = none)))
  listed : ∀ k, t.Listed k → s.Listed k ∨ k = s.next
  held : ∀ d, t.held d = true → s.held d = true ∨ d = s.next

theorem Grows.shrunk {t : Caps} (hborn : t.born = s.born) (hlisted : ∀ k, t.Listed k → s.Listed k)
    (hheld : ∀ d, t.held d = true → s.held d = true) : Grows s t :=
  ⟨fun i => .inl (congrFun hborn i), fun k h => .inl (hlisted k h), fun d h => .inl (hheld d h)⟩

theorem act_grows (hf : Filed s) (a : Act) : Grows s (s.act a) := by
  have hsame : Grows s s := .shrunk rfl (fun _ h => h) (fun _ h => h)
  cases a with
  | create =>
    refine ⟨fun i => ?_, fun k h => .inl h, fun d h => ?_⟩
    · by_cases hi : i = s.next
      · exact .inr ⟨hi, .inl (if_pos hi)⟩
      · exact .inl (if_neg hi)
    · by_cases hd : d = s.next
      · exact .inr hd
      · exact .inl ((if_neg hd).symm.trans h)
  | derive src =>
    rw [act]
    split
    · rename_i hsrc
      have hborn := (derive_rest src s).2.2.2
      have hrest := enterSource_rest src s
      refine ⟨fun i => ?_, fun k h => ?_, fun d h => ?_⟩
      · rw [hborn i]
        split
        · exact .inr ⟨‹_›, .inr hsrc⟩
        · exact .inl rfl
      · rw [← hrest.next]
        refine (enter_listed (s := s.enterSource src) h).imp_left fun h => ?_
        rcases hf.enterSource_cases hsrc.1 with ⟨-, -, henter⟩ | ⟨-, -, henter⟩ <;> rw [henter] at h
        · exact put_root_listed h
        · exact h
      · rw [← hrest.held, ← hrest.next]
        by_cases hd : d = (s.enterSource src).next
        · exact .inr hd
        · exact .inl ((if_neg hd).symm.trans h)
    · exact hsame
  | map id =>
    rw [act]
    split
    · exact .shrunk rfl (fun _ h => h) (fun _ h => h)
    · exact hsame
  | unmap id => exact .shrunk rfl (fun _ h => h) (fun _ h => h)
  | drop id =>
    rw [act]
    split
    · have hrest := forget_rest id (s.letGo id)
      exact .shrunk hrest.born (fun k h => forget_listed (s := s.letGo id) h) (fun d h => held_of_letGo (hrest.held ▸ h))
    · exact hsame
  | sweep ids =>
    have hrest := sweep_rest (ids.filter s.isGhost) s
    exact .shrunk hrest.born (fun k h => sweep_listed _ h) (fun d h => hrest.held ▸ h)
  | revoke cpu root =>
    rw [act]
    split
    · obtain ⟨hborn, hlisted, hheld⟩ := proceed_shrinks cpu ⟨root, [root]⟩ { s with revoking := root :: s.revoking }
      exact .shrunk hborn hlisted hheld
    · exact hsame
  | step cpu =>
    cases hj : s.jobs cpu with
    | none =>
      simp only [act, hj]
      exact hsame
    | some j =>
      obtain ⟨hborn, hlisted, hheld⟩ := proceed_shrinks cpu j s
      simp only [act, hj]
      exact .shrunk hborn hlisted hheld

variable {c : Nat} {j : Revocation}

/-- Nothing comes to derive from the root of a revocation in progress. -/
theorem Whole.under (h : Whole s) (hr : Rooted s.jobs r) (a : Act) {d : Nat} (hd : Under (s.act a) r d) :
    Under s r d := by
  have hgrows := act_grows h.sound.kept.filed a
  induction hd with
  | @child d hb h0 =>
    rcases hgrows.born d with hsame | ⟨-, hzero | ⟨hheld, hnone⟩⟩
    · exact .child (hsame ▸ hb) h0
    · exact absurd (hb.symm.trans hzero) h0
    · rw [h.refused hr hheld (.inl hb) true] at hnone
      cases hnone
  | @step d h0 _ ih =>
    rcases hgrows.born d with hsame | ⟨-, hzero | ⟨hheld, hnone⟩⟩
    · rw [hsame] at h0 ih
      exact .step h0 ih
    · exact absurd hzero h0
    · rw [h.refused hr hheld (.inr ih) true] at hnone
      cases hnone

theorem proceed_jobs (cpu : Nat) (j : Revocation) (s : Caps) : (∀ c, c ≠ cpu → (proceed cpu j s).jobs c = s.jobs c) ∧
    ∀ j', (proceed cpu j s).jobs cpu = some j' → j'.root = j.root ∧ (s.revokeStep j).1.stack ≠ [] := by
  obtain ⟨hroot, -, -, hjobs⟩ := walk_rest (j.stack.length + 2 * revokeStepNodes) revokeStepNodes j s
  rw [proceed]
  split
  · refine ⟨fun c hc => (if_neg hc).trans (congrFun hjobs c), fun j' hj' => ?_⟩
    rw [show (setJob cpu none _).jobs cpu = none from if_pos rfl] at hj'
    cases hj'
  · rename_i hsome
    refine ⟨fun c hc => (if_neg hc).trans (congrFun hjobs c), fun j' hj' => ⟨?_, hsome⟩⟩
    rw [show (setJob cpu (some _) _).jobs cpu = some _ from if_pos rfl] at hj'
    cases hj'
    exact hroot

theorem act_job (a : Act) (hj : s.jobs c = some j) {j' : Revocation} (hj' : (s.act a).jobs c = some j') :
    j'.root = j.root := by
  have hsame : ∀ {t : Caps}, t.jobs = s.jobs → t.jobs c = some j' → j'.root = j.root := by
    intro t ht h
    rw [ht, hj] at h
    cases h
    rfl
  cases a with
  | create | unmap _ => exact hsame rfl hj'
  | derive src =>
    rw [act] at hj'
    split at hj'
    · exact hsame (derive_rest src s).1 hj'
    · exact hsame rfl hj'
  | map id =>
    rw [act] at hj'
    split at hj' <;> exact hsame rfl hj'
  | drop id =>
    rw [act] at hj'
    split at hj'
    · exact hsame (forget_rest id (s.letGo id)).jobs hj'
    · exact hsame rfl hj'
  | sweep ids => exact hsame (sweep_rest (ids.filter s.isGhost) s).jobs hj'
  | revoke cpu root =>
    rw [act] at hj'
    split at hj'
    · rename_i hroot
      have hc : c ≠ cpu := by
        rintro rfl
        rw [hroot.2] at hj
        cases hj
      rw [(proceed_jobs _ _ _).1 c hc] at hj'
      exact hsame rfl hj'
    · exact hsame rfl hj'
  | step cpu =>
    cases hcpu : s.jobs cpu with
    | none =>
      simp only [act, hcpu] at hj'
      exact hsame rfl hj'
    | some j₀ =>
      simp only [act, hcpu] at hj'
      by_cases hc : c = cpu
      · rw [hc] at hj hj'
        rw [hcpu] at hj
        cases hj
        exact ((proceed_jobs _ _ _).2 j' hj').1
      · rw [(proceed_jobs _ _ _).1 c hc] at hj'
        exact hsame rfl hj'

/-- What is left for the walk of a revocation: the nodes under its root in a list of children. -/
def left (s : Caps) (r : Nat) : Set Nat := { d | Under s r d ∧ s.Listed d }

theorem Whole.left_below (h : Whole s) : s.left r ⊆ Finset.range s.next :=
  fun _ hd => Finset.mem_coe.mpr (Finset.mem_range.mpr (h.sound.kept.lt_next_of_under hd.1))

theorem Whole.left_finite (h : Whole s) : (s.left r).Finite := (Finset.finite_toSet _).subset h.left_below

theorem Whole.left_subset (h : Whole s) (hr : Rooted s.jobs r) (a : Act) : (s.act a).left r ⊆ s.left r := by
  rintro d ⟨hunder, hlisted⟩
  have hd := h.under hr a hunder
  refine ⟨hd, ((act_grows h.sound.kept.filed a).listed d hlisted).resolve_right ?_⟩
  exact Nat.ne_of_lt (h.sound.kept.lt_next_of_under hd)

theorem Whole.left_step (h : Whole s) (hj : s.jobs c = some j) (hsome : (s.act (.step c)).jobs c ≠ none) :
    ((s.act (.step c)).left j.root).ncard < (s.left j.root).ncard := by
  have hr : Rooted s.jobs j.root := ⟨c, j, hj, rfl⟩
  refine Set.ncard_lt_ncard ⟨h.left_subset hr _, fun hsub => ?_⟩ h.left_finite
  have hact : s.act (.step c) = Caps.proceed c j s := by simp only [act, hj]
  obtain ⟨j', hj'⟩ := Option.ne_none_iff_exists'.mp hsome
  rw [hact] at hj'
  have hstack := ((proceed_jobs c j s).2 j' hj').2
  have hw := Sound.walks ((setJob_self hj).symm ▸ h.sound)
  rcases walk_visits (j.stack.length + 2 * revokeStepNodes) revokeStepNodes hw
      (by rw [revokeStepNodes]; omega) (by decide) with hnil | ⟨d, hunder, hlisted, hnot⟩
  · exact hstack hnil
  · have hleft := (hsub ⟨hunder, hlisted⟩).2
    rw [hact, Caps.proceed] at hleft
    split at hleft <;> exact hnot hleft

def isStep (c : Nat) : Act → Bool
  | .step c' => c' == c
  | _ => false

def run (acts : List Act) (s : Caps) : Caps := acts.foldl (fun s a => s.act a) s

/-- Each call of a run is admitted by `P` in the state it meets. -/
def Along (P : Caps → Act → Prop) : List Act → Caps → Prop
  | [], _ => True
  | a :: acts, s => P s a ∧ Along P acts (s.act a)

theorem Whole.ends {acts : List Act} (h : Whole s) (hj : s.jobs c = some j) (hacts : Along Gentle acts s)
    (hcount : (s.left j.root).ncard < acts.countP (isStep c)) : ∃ n, (run (acts.take n) s).jobs c = none := by
  induction acts generalizing s j with
  | nil => exact absurd hcount (Nat.not_lt_zero _)
  | cons a acts ih =>
    cases hj' : (s.act a).jobs c with
    | none => exact ⟨1, hj'⟩
    | some j' =>
      have hroot := act_job a hj hj'
      have hle := Set.ncard_le_ncard (h.left_subset ⟨c, j, hj, rfl⟩ a) h.left_finite
      obtain ⟨n, hn⟩ := ih (act_whole h hacts.1) hj' hacts.2 (by
        rw [hroot]
        rw [countP_cons] at hcount
        split at hcount
        · rename_i hstep
          cases a with
          | step c' =>
            rw [isStep, beq_iff_eq] at hstep
            rw [hstep] at hj' ⊢
            have := h.left_step hj (by rw [hj']; exact Option.some_ne_none _)
            omega
          | create | derive _ | map _ | unmap _ | drop _ | sweep _ | revoke _ _ => cases hstep
        · omega)
      exact ⟨n + 1, hn⟩

/-- While the revocation `j` of `c` is in progress, its root and whatever derives from it are refused
to every copy and move, a call adds nothing under the root, and with enough steps of its own the walk
ends whatever other calls come between them. -/
structure Refuses (s : Caps) (c : Nat) (j : Revocation) : Prop where
  refused : ∀ d, s.held d = true → d = j.root ∨ Under s j.root d →
    (∀ copy, s.deriveRefused d copy = some .revoking) ∧ s.act (.derive d) = s
  shrinks : ∀ a d, Under (s.act a) j.root d → Under s j.root d ∧ ((s.act a).held d = true → s.held d = true)
  ends : ∀ acts, Along Gentle acts s → s.next < acts.countP (isStep c) →
    ∃ n, (run (acts.take n) s).jobs c = none

theorem nothing_grows_under_a_revocation (h : Reaches Gentle s) (hj : s.jobs c = some j) : Refuses s c j := by
  have hw := reaches_whole h
  have hr : Rooted s.jobs j.root := ⟨c, j, hj, rfl⟩
  refine ⟨?_, ?_, ?_⟩
  · intro d hheld hd
    have hrefused := hw.refused hr hheld hd
    refine ⟨hrefused, ?_⟩
    rw [act, if_neg]
    rintro ⟨_, hnone⟩
    rw [hrefused] at hnone
    cases hnone
  · intro a d hd
    have hunder := hw.under hr a hd
    refine ⟨hunder, fun hheld => ((act_grows hw.sound.kept.filed a).held d hheld).resolve_right ?_⟩
    exact Nat.ne_of_lt (hw.sound.kept.lt_next_of_under hunder)
  · intro acts hacts hcount
    refine hw.ends hj hacts (Nat.lt_of_le_of_lt ?_ hcount)
    have hle := Set.ncard_le_ncard (hw.left_below (r := j.root)) (Finset.finite_toSet _)
    rwa [Set.ncard_coe_finset, Finset.card_range] at hle

end Growth

section Swept

theorem along_steps (n c : Nat) (s : Caps) : Along Gentle (replicate n (.step c)) s := by
  induction n generalizing s with
  | zero => trivial
  | succ n ih => exact ⟨trivial, ih _⟩

/-- A revocation in progress refuses what it has not reached yet, also after a sweep that met a ghost
on its stack, and ends. -/
theorem refused_below_the_walk : Reaches Gentle stopped ∧ stopped.isGhost 4 = true ∧
    (stopped.act (.sweep [4])).held 5 = true ∧ Under (stopped.act (.sweep [4])) 2 5 ∧
    (stopped.act (.sweep [4])).deriveRefused 5 true = some .revoking ∧
    ∃ n, (run (replicate n (.step 0)) (stopped.act (.sweep [4]))).jobs 0 = none := by
  have hgentle : stopped.Gentle (.sweep [4]) := by
    intro c j _ id hid _ e he _
    rw [mem_singleton.mp hid] at he
    cases he
    exact .inl (cons_ne_nil _ _)
  have hstays := nothing_grows_under_a_revocation (c := 0) (reaches_stopped.act _ hgentle) rfl
  have hunder : Under (stopped.act (.sweep [4])) 2 5 := .step (by decide) (.step (by decide) (.child rfl (by decide)))
  refine ⟨reaches_stopped, rfl, rfl, hunder, (hstays.refused 5 rfl (.inr hunder)).1 true, ?_⟩
  obtain ⟨n, hn⟩ := hstays.ends (replicate (260 + 1) (.step 0)) (along_steps _ 0 _) (by
    rw [countP_replicate]
    exact Nat.lt_succ_self _)
  exact ⟨_, by rw [take_replicate] at hn; exact hn⟩

/-- Between two steps the sweep forgets a ghost on the walk's stack, and what is under it may be
copied again though it derives from the root of the revocation. -/
theorem sweep_cuts_the_chain : ∃ s j, Reaches (fun _ _ => True) s ∧ s.jobs 0 = some j ∧ j.root = 2 ∧
    s.held 5 = true ∧ Under s 2 5 ∧ s.deriveRefused 5 true = none ∧ ¬Refuses s 0 j := by
  have hunder : Under (stopped.act (.sweep [3])) 2 5 := .step (by decide) (.step (by decide) (.child rfl (by decide)))
  have hnone : (stopped.act (.sweep [3])).deriveRefused 5 true = none := rfl
  refine ⟨stopped.act (.sweep [3]), _, (reaches_stopped.imp fun _ _ _ => trivial).act (.sweep [3]) trivial,
    rfl, rfl, rfl, hunder, hnone, ?_⟩
  intro hrefuses
  rw [(hrefuses.refused 5 rfl (.inr hunder)).1 true] at hnone
  cases hnone

end Swept

end MindCore.Kernel.Caps
