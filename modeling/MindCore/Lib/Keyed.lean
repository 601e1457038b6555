import Mathlib.Data.List.Basic

/-!
# Lists sorted by a key

A list whose elements go up by their keys holds each key once. Two such lists are joined by
going through both at once: every key of either one, in order, with the element each list has
under it.
-/

namespace MindCore.Keyed

open List

variable {α K : Type}

def Ascending [LT K] (key : α → K) (xs : List α) : Prop := xs.Pairwise fun a b => key a < key b

def find [DecidableEq K] (key : α → K) (k : K) (xs : List α) : Option α := xs.find? fun a => key a = k

variable {ys : List α}

section Find
variable [DecidableEq K] {key : α → K}

theorem find_cons (k : K) (x : α) (xs : List α) :
    find key k (x :: xs) = if key x = k then some x else find key k xs := by
  unfold find
  by_cases h : key x = k
  · simp [h]
  · simp [h]

theorem find_head (x : α) (xs : List α) : find key (key x) (x :: xs) = some x := by
  rw [find_cons, if_pos rfl]

variable {k : K} {x : α} {xs : List α}

theorem find_tail (h : k ≠ key x) (xs : List α) : find key k (x :: xs) = find key k xs := by
  rw [find_cons, if_neg (Ne.symm h)]

theorem mem_of_find (h : find key k xs = some x) : x ∈ xs := mem_of_find?_eq_some h

theorem key_of_find (h : find key k xs = some x) : key x = k := by
  simpa using find?_some h

theorem find_eq_none : find key k xs = none ↔ ∀ x ∈ xs, key x ≠ k := by
  simp [find, find?_eq_none]

theorem mem_join_cons {rest : List (K × Option α × Option α)} {xs' ys' : List α} {k' : K}
    {a b a' b' : Option α}
    (ih : (k, a, b) ∈ rest ↔ a = find key k xs' ∧ b = find key k ys' ∧ (a ≠ none ∨ b ≠ none))
    (hx : find key k' xs = a') (hy : find key k' ys = b') (hne : a' ≠ none ∨ b' ≠ none)
    (hx' : find key k' xs' = none) (hy' : find key k' ys' = none)
    (tx : k ≠ k' → find key k xs = find key k xs') (ty : k ≠ k' → find key k ys = find key k ys') :
    (k, a, b) ∈ (k', a', b') :: rest ↔
      a = find key k xs ∧ b = find key k ys ∧ (a ≠ none ∨ b ≠ none) := by
  rw [mem_cons, ih]
  by_cases hk : k = k'
  · subst hk
    rw [hx, hy, hx', hy', Prod.mk.injEq, Prod.mk.injEq]
    constructor
    · rintro (⟨-, rfl, rfl⟩ | ⟨rfl, rfl, h | h⟩)
      · exact ⟨rfl, rfl, hne⟩
      · exact absurd rfl h
      · exact absurd rfl h
    · rintro ⟨rfl, rfl, -⟩
      exact .inl ⟨rfl, rfl, rfl⟩
  · rw [tx hk, ty hk]
    constructor
    · rintro (h | h)
      · exact absurd (congrArg Prod.fst h) hk
      · exact h
    · exact .inr

end Find

section Ascending
variable [LT K] {key : α → K} {xs : List α}

@[simp] theorem ascending_nil : Ascending key [] := List.Pairwise.nil

theorem ascending_cons {x : α} : Ascending key (x :: xs) ↔ (∀ y ∈ xs, key x < key y) ∧ Ascending key xs :=
  pairwise_cons

theorem Ascending.tail {x : α} (h : Ascending key (x :: xs)) : Ascending key xs := (ascending_cons.mp h).2

end Ascending

section Order
variable [LE K] [LT K] [Std.IsLinearOrder K] [Std.LawfulOrderLT K] {key : α → K}

theorem lt_of_ne_of_not_lt {a b : K} (h : a ≠ b) (hn : ¬b < a) : a < b := by
  rcases Std.lt_trichotomy a b with hlt | he | hlt
  · exact hlt
  · exact absurd he h
  · exact absurd hlt hn

variable [DecidableEq K] {x : α} {xs : List α}

omit [Std.IsLinearOrder K] in
theorem find_of_mem (h : Ascending key xs) (hx : x ∈ xs) : find key (key x) xs = some x := by
  induction xs with
  | nil => exact absurd hx not_mem_nil
  | cons y ys ih =>
    rw [find_cons]
    rcases mem_cons.mp hx with rfl | hx
    · rw [if_pos rfl]
    · have hlt := (ascending_cons.mp h).1 x hx
      rw [if_neg (fun he => Std.lt_irrefl (he ▸ hlt)), ih h.tail hx]

omit [Std.IsLinearOrder K] in
theorem find_past (h : Ascending key (x :: xs)) : find key (key x) xs = none := by
  rw [find_eq_none]
  intro y hy he
  exact Std.lt_irrefl (he ▸ (ascending_cons.mp h).1 y hy)

theorem find_below (h : Ascending key (x :: xs)) {k : K} (hk : k < key x) : find key k (x :: xs) = none := by
  rw [find_eq_none]
  intro y hy he
  rcases mem_cons.mp hy with rfl | hy
  · exact Std.lt_irrefl (he ▸ hk)
  · exact Std.lt_irrefl (Std.lt_trans hk (he ▸ (ascending_cons.mp h).1 y hy))

end Order

/-! ## The join of two lists -/

section Join
variable [LT K] [DecidableEq K] [DecidableLT K]

/-- Every key of either list, in order, with what each list has under it. -/
def join (key : α → K) : List α → List α → List (K × Option α × Option α)
  | [], [] => []
  | x :: xs, [] => (key x, some x, none) :: join key xs []
  | [], y :: ys => (key y, none, some y) :: join key [] ys
  | x :: xs, y :: ys =>
    if key x = key y then (key x, some x, some y) :: join key xs ys
    else if key y < key x then (key y, none, some y) :: join key (x :: xs) ys
    else (key x, some x, none) :: join key xs (y :: ys)
termination_by xs ys => xs.length + ys.length

variable {key : α → K}

@[simp] theorem join_nil : join key [] [] = [] := by rw [join]

theorem join_left (x : α) (xs : List α) :
    join key (x :: xs) [] = (key x, some x, none) :: join key xs [] := by rw [join]

theorem join_right (y : α) (ys : List α) :
    join key [] (y :: ys) = (key y, none, some y) :: join key [] ys := by rw [join]

variable {x y : α}

theorem join_same (h : key x = key y) (xs ys : List α) :
    join key (x :: xs) (y :: ys) = (key x, some x, some y) :: join key xs ys := by
  rw [join, if_pos h]

theorem join_after (h : key x ≠ key y) (hlt : key y < key x) (xs ys : List α) :
    join key (x :: xs) (y :: ys) = (key y, none, some y) :: join key (x :: xs) ys := by
  rw [join, if_neg h, if_pos hlt]

theorem join_before (h : key x ≠ key y) (hlt : ¬key y < key x) (xs ys : List α) :
    join key (x :: xs) (y :: ys) = (key x, some x, none) :: join key xs (y :: ys) := by
  rw [join, if_neg h, if_neg hlt]

theorem key_of_mem_join {xs : List α} {t : K × Option α × Option α} (h : t ∈ join key xs ys) :
    (∃ x ∈ xs, key x = t.1) ∨ ∃ y ∈ ys, key y = t.1 := by
  fun_induction join key xs ys with
  | case1 => exact absurd h not_mem_nil
  | case2 x xs ih =>
    rw [exists_mem_cons_iff]
    rcases mem_cons.mp h with rfl | h
    · exact .inl (.inl rfl)
    · exact (ih h).imp_left .inr
  | case3 y ys ih =>
    rw [exists_mem_cons_iff]
    rcases mem_cons.mp h with rfl | h
    · exact .inr (.inl rfl)
    · exact (ih h).imp_right .inr
  | case4 x xs y ys he ih =>
    rw [exists_mem_cons_iff, exists_mem_cons_iff]
    rcases mem_cons.mp h with rfl | h
    · exact .inl (.inl rfl)
    · exact (ih h).imp .inr .inr
  | case5 x xs y ys he hlt ih =>
    rw [exists_mem_cons_iff _ y]
    rcases mem_cons.mp h with rfl | h
    · exact .inr (.inl rfl)
    · exact (ih h).imp_right .inr
  | case6 x xs y ys he hlt ih =>
    rw [exists_mem_cons_iff]
    rcases mem_cons.mp h with rfl | h
    · exact .inl (.inl rfl)
    · exact (ih h).imp_left .inr

end Join

section JoinOrder
variable [LE K] [LT K] [Std.IsLinearOrder K] [Std.LawfulOrderLT K] [DecidableEq K] [DecidableLT K]
  {key : α → K}

theorem mem_join {xs : List α} (hx : Ascending key xs) (hy : Ascending key ys) {k : K}
    {a b : Option α} : (k, a, b) ∈ join key xs ys ↔
      a = find key k xs ∧ b = find key k ys ∧ (a ≠ none ∨ b ≠ none) := by
  fun_induction join key xs ys with
  | case1 =>
    simp only [not_mem_nil, false_iff]
    rintro ⟨rfl, rfl, h | h⟩ <;> exact h rfl
  | case2 x xs ih =>
    exact mem_join_cons (ih hx.tail hy) (find_head x xs) rfl (.inl (by simp)) (find_past hx) rfl
      (fun h => find_tail h xs) fun _ => rfl
  | case3 y ys ih =>
    exact mem_join_cons (ih hx hy.tail) rfl (find_head y ys) (.inr (by simp)) rfl (find_past hy)
      (fun _ => rfl) fun h => find_tail h ys
  | case4 x xs y ys he ih =>
    refine mem_join_cons (ih hx.tail hy.tail) (find_head x xs) ?_ (.inl (by simp)) (find_past hx)
      ?_ (fun h => find_tail h xs) fun h => find_tail (he ▸ h) ys
    · rw [he, find_head]
    · rw [he, find_past hy]
  | case5 x xs y ys he hlt ih =>
    exact mem_join_cons (ih hx hy.tail) (find_below hx hlt) (find_head y ys) (.inr (by simp))
      (find_below hx hlt) (find_past hy) (fun _ => rfl) fun h => find_tail h ys
  | case6 x xs y ys he hlt ih =>
    have hlt := lt_of_ne_of_not_lt he hlt
    exact mem_join_cons (ih hx.tail hy) (find_head x xs) (find_below hy hlt) (.inl (by simp))
      (find_past hx) (find_below hy hlt) (fun h => find_tail h xs) fun _ => rfl

theorem join_ascending {xs : List α} (hx : Ascending key xs) (hy : Ascending key ys) :
    Ascending Prod.fst (join key xs ys) := by
  -- The head's key is below every key left in either list.
  have hcons : ∀ {k : K} {a b : Option α} {xs ys : List α}, (∀ x ∈ xs, k < key x) →
      (∀ y ∈ ys, k < key y) → Ascending Prod.fst (join key xs ys) →
      Ascending Prod.fst ((k, a, b) :: join key xs ys) := by
    intro k a b xs ys hxs hys h
    refine ascending_cons.mpr ⟨fun t ht => ?_, h⟩
    rcases key_of_mem_join ht with ⟨x, hx, he⟩ | ⟨y, hy, he⟩
    · exact he ▸ hxs x hx
    · exact he ▸ hys y hy
  have hall : ∀ {k : K} {y : α} {ys : List α}, Ascending key (y :: ys) → k < key y →
      ∀ z ∈ y :: ys, k < key z := by
    intro k y ys h hk z hz
    rcases mem_cons.mp hz with rfl | hz
    · exact hk
    · exact Std.lt_trans hk ((ascending_cons.mp h).1 z hz)
  fun_induction join key xs ys with
  | case1 => exact ascending_nil
  | case2 x xs ih => exact hcons (ascending_cons.mp hx).1 (by simp) (ih hx.tail hy)
  | case3 y ys ih => exact hcons (by simp) (ascending_cons.mp hy).1 (ih hx hy.tail)
  | case4 x xs y ys he ih =>
    exact hcons (ascending_cons.mp hx).1 (he ▸ (ascending_cons.mp hy).1) (ih hx.tail hy.tail)
  | case5 x xs y ys he hlt ih =>
    exact hcons (hall hx hlt) (ascending_cons.mp hy).1 (ih hx hy.tail)
  | case6 x xs y ys he hlt ih =>
    exact hcons (ascending_cons.mp hx).1 (hall hy (lt_of_ne_of_not_lt he hlt)) (ih hx.tail hy)

def turned (t : K × Option α × Option α) : K × Option α × Option α := (t.1, t.2.2, t.2.1)

theorem join_turned (xs ys : List α) : join key ys xs = (join key xs ys).map turned := by
  fun_induction join key xs ys with
  | case1 => rw [join_nil, map_nil]
  | case2 x xs ih => rw [join_right, ih, map_cons, turned]
  | case3 y ys ih => rw [join_left, ih, map_cons, turned]
  | case4 x xs y ys he ih => rw [join_same he.symm, ih, map_cons, turned, he]
  | case5 x xs y ys he hlt ih =>
    have hn : ¬key x < key y := fun h => Std.lt_irrefl (Std.lt_trans h hlt)
    rw [join_before (Ne.symm he) hn, ih, map_cons, turned]
  | case6 x xs y ys he hlt ih =>
    rw [join_after (Ne.symm he) (lt_of_ne_of_not_lt he hlt), ih, map_cons, turned]

end JoinOrder

end MindCore.Keyed
