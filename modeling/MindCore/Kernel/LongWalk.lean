import MindCore.Kernel.CapEntries

/-!
# A revocation of many nodes

A run to a revocation that stops between two steps: a node with more children than one step visits,
the oldest of them with a chain of its own.
-/

namespace MindCore.Kernel.Caps

open List

def leaves : Nat → List Nat
  | 0 => []
  | n + 1 => (n + 6) :: leaves n

theorem lt_of_mem_leaves {i n : Nat} (h : i ∈ leaves n) : 6 ≤ i ∧ i < n + 6 := by
  induction n with
  | zero => cases h
  | succ n ih =>
    rcases mem_cons.mp h with rfl | h
    · omega
    · have := ih h
      omega

/-- A chain of five nodes, and `n` younger children of the second that are still there of those up to
`next`. -/
def laid (n next : Nat) (revoking : List Nat) : Caps where
  index i :=
    if i = 1 then some ⟨0, 0, false, [2]⟩
    else if i = 2 then some ⟨1, 1, false, leaves n ++ [3]⟩
    else if i = 3 then some ⟨2, 2, false, [4]⟩
    else if i = 4 then some ⟨3, 3, false, [5]⟩
    else if i = 5 then some ⟨4, 4, false, []⟩
    else if 6 ≤ i ∧ i < n + 6 then some ⟨2, 2, false, []⟩ else none
  held i := decide (0 < i ∧ i < n + 6)
  mapped _ := false
  born i := if i < 6 then i - 1 else if i < next then 2 else 0
  next := next
  revoking := revoking
  jobs _ := none

variable {n next : Nat} {revoking : List Nat}

theorem laid_more (n : Nat) : (laid n (n + 6) []).act (.derive 2) = laid (n + 1) (n + 7) [] := by
  have hact : (laid n (n + 6) []).act (.derive 2) = (laid n (n + 6) []).bear 2 := rfl
  rw [hact]
  have hrest := enter_rest (n + 6) 2 (laid n (n + 6) [])
  ext1
  · funext i
    rw [bear_index (p := ⟨1, 1, false, leaves n ++ [3]⟩) rfl (by decide) (by simp [laid])]
    simp only [laid, leaves, cons_append]
    grind
  · funext i
    simp only [bear, laid]
    grind
  · exact hrest.mapped
  · funext i
    simp only [bear, laid]
    grind
  · rfl
  · exact hrest.revoking
  · exact hrest.jobs

theorem reaches_laid (n : Nat) : Reaches Gentle (laid n (n + 6) []) := by
  induction n with
  | zero =>
    have hnew : ((((new.act .create).act (.derive 1)).act (.derive 2)).act (.derive 3)).act (.derive 4) =
        laid 0 6 [] := by
      ext1
      · funext i
        match i with
        | 0 | 1 | 2 | 3 | 4 | 5 => rfl
        | i + 6 => rfl
      · funext i
        match i with
        | 0 | 1 | 2 | 3 | 4 | 5 => rfl
        | i + 6 => rfl
      · rfl
      · funext i
        match i with
        | 0 | 1 | 2 | 3 | 4 | 5 => rfl
        | i + 6 => rfl
      all_goals rfl
    rw [← hnew]
    exact ((((Reaches.new.act .create trivial).act (.derive 1) trivial).act (.derive 2) trivial).act (.derive 3)
      trivial).act (.derive 4) trivial
  | succ n ih =>
    rw [← laid_more]
    exact ih.act (.derive 2) trivial

theorem laid_kids (n : Nat) : (leaves (n + 1) ++ [3]).filter (· ≠ n + 6) = leaves n ++ [3] := by
  rw [leaves, cons_append, filter_cons_of_neg (by simp)]
  refine filter_eq_self.mpr ?_
  intro i hi
  rcases mem_append.mp hi with hi | hi
  · have := lt_of_mem_leaves hi
    simp
    omega
  · simp [mem_singleton.mp hi]

/-- A leaf is visited and left. -/
theorem laid_less : ((laid (n + 1) next revoking).visit (n + 6)).leave 2 (n + 6) = laid n next revoking ∧
    ((laid (n + 1) next revoking).visit (n + 6)).kidsOf (n + 6) = [] := by
  have hleaf : (laid (n + 1) next revoking).index (n + 6) = some ⟨2, 2, false, []⟩ := by simp [laid]
  have hindex := visit_index hleaf rfl (p := ⟨1, 1, false, leaves (n + 1) ++ [3]⟩) rfl (by change n + 6 ≠ 2; omega)
  obtain ⟨hheld, hborn, hnext, hmapped, hrev, hjobs⟩ := visit_rest (n + 6) (laid (n + 1) next revoking)
  rw [laid_kids] at hindex
  refine ⟨?_, by rw [kidsOf, hindex, if_pos rfl]; rfl⟩
  rw [leave, if_neg (by omega)]
  ext1
  · funext i
    change (if i = n + 6 then none else ((laid (n + 1) next revoking).visit (n + 6)).index i) = _
    rw [hindex]
    simp only [laid]
    grind
  · funext i
    change ((laid (n + 1) next revoking).visit (n + 6)).held i = _
    rw [hheld]
    simp only [letGo, laid]
    grind
  · funext i
    change ((laid (n + 1) next revoking).visit (n + 6)).mapped i = _
    rw [hmapped]
    exact ite_self _
  · exact hborn
  · exact hnext
  · exact hrev
  · exact hjobs

theorem walk_leaves (n fuel budget : Nat) :
    walk (fuel + 2 * n) (budget + 1 + n) ⟨2, [2]⟩ (laid n next revoking) =
      walk fuel (budget + 1) ⟨2, [2]⟩ (laid 0 next revoking) := by
  induction n with
  | zero => rfl
  | succ n ih =>
    rw [← ih, show fuel + 2 * (n + 1) = fuel + 2 * n + 2 by omega, show budget + 1 + (n + 1) = budget + n + 2 by omega,
      show budget + 1 + n = budget + n + 1 by omega, walk, if_neg (Nat.succ_ne_zero _)]
    change walk (fuel + 2 * n + 1) (budget + n + 2 - 1) ⟨2, [n + 6, 2]⟩ _ = _
    rw [walk, if_neg (show ¬(budget + n + 2 - 1 = 0) by omega)]
    simp only [laid_less.2, laid_less.1]
    rfl

/-- The first step of a revocation of the second node stops with the fourth on its stack. -/
def stopped : Caps := (((laid 0 260 [2]).visit 3).visit 4).setJob 0 (some ⟨2, [4, 3, 2]⟩)

theorem reaches_stopped : Reaches Gentle stopped := by
  have hstep : revokeStep ⟨2, [2]⟩ (laid 254 260 [2]) = (⟨2, [4, 3, 2]⟩, ((laid 0 260 [2]).visit 3).visit 4) :=
    walk_leaves 254 5 1
  have hact : (laid 254 260 []).act (.revoke 0 2) = stopped := by
    have hbegun : { laid 254 260 [] with revoking := [2] } = laid 254 260 [2] := rfl
    rw [act, if_pos ⟨rfl, rfl⟩, show (laid 254 260 []).revoking = [] from rfl, hbegun, proceed, hstep, stopped]
    exact if_neg (cons_ne_nil _ _)
  rw [← hact]
  exact (reaches_laid 254).act _ fun c j hj => by cases hj

end MindCore.Kernel.Caps
