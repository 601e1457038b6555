import Mathlib.Data.List.Basic
import Mathlib.Order.MinMax

/-!
# A list cut into pieces of one length

All pieces have `c` elements but the last, which has the rest.
-/

namespace MindCore

open List

universe u
variable {α : Type u}

def divCeil (a b : Nat) : Nat := (a + b - 1) / b

theorem divCeil_zero (b : Nat) : divCeil 0 b = 0 := by
  cases b with
  | zero => rfl
  | succ b => exact Nat.div_eq_of_lt (by omega)

variable {a b n c e : Nat} {d : List α}

theorem divCeil_le_iff (hb : 0 < b) : divCeil a b ≤ n ↔ a ≤ n * b := by
  unfold divCeil
  rw [Nat.le_iff_lt_add_one, Nat.div_lt_iff_lt_mul hb, Nat.add_mul, Nat.one_mul]
  omega

theorem lt_divCeil_iff (hb : 0 < b) : n < divCeil a b ↔ n * b < a := by
  have h := divCeil_le_iff (a := a) (n := n) hb
  omega

theorem divCeil_add_mul (hb : 0 < b) : divCeil (n * b + a) b = n + divCeil a b := by
  unfold divCeil
  rw [show n * b + a + b - 1 = a + b - 1 + n * b by omega, Nat.add_mul_div_right _ _ hb]
  omega

theorem divCeil_eq_one (ha : 0 < a) (hab : a ≤ b) : divCeil a b = 1 := by
  have h1 := (divCeil_le_iff (a := a) (n := 1) (by omega : 0 < b)).mpr (by omega)
  have h0 := (lt_divCeil_iff (a := a) (n := 0) (by omega : 0 < b)).mpr (by omega)
  omega

def piece (c i : Nat) (d : List α) : List α := (d.drop (i * c)).take c

def pieces (c : Nat) (d : List α) : List (List α) :=
  (List.range (divCeil d.length c)).map fun i => piece c i d

theorem length_piece (c i : Nat) (d : List α) : (piece c i d).length = min c (d.length - i * c) := by
  simp [piece]

@[simp] theorem length_pieces (c : Nat) (d : List α) : (pieces c d).length = divCeil d.length c := by
  simp [pieces]

@[simp] theorem pieces_nil (c : Nat) : pieces c ([] : List α) = [] := by
  simp [pieces, divCeil_zero]

theorem pieces_of_short (h0 : 0 < d.length) (h : d.length ≤ c) : pieces c d = [d] := by
  simp [pieces, divCeil_eq_one h0 h, piece, take_of_length_le h]

theorem mem_pieces {p : List α} : p ∈ pieces c d ↔ ∃ i, i < divCeil d.length c ∧ piece c i d = p := by
  simp [pieces]

theorem pieces_getD {β : Type u} (f : List α → β) {i : Nat} (b : β)
    (hi : i < divCeil d.length c) : ((pieces c d).map f).getD i b = f (piece c i d) := by
  simp [pieces, getD_eq_getElem?_getD, hi]

theorem pieces_append {xs ys : List α} (hc : 0 < c) (h : c ∣ xs.length) :
    pieces c (xs ++ ys) = pieces c xs ++ pieces c ys := by
  obtain ⟨n, hn⟩ := h
  have hx : divCeil xs.length c = n := by
    have := divCeil_add_mul (a := 0) (b := c) (n := n) hc
    rwa [Nat.add_zero, divCeil_zero, Nat.mul_comm, ← hn] at this
  have hxy : divCeil (xs ++ ys).length c = n + divCeil ys.length c := by
    rw [length_append, hn, Nat.mul_comm c n]
    exact divCeil_add_mul hc
  unfold pieces
  rw [hxy, hx, range_add, map_append, map_map]
  congr 1
  · apply map_congr_left
    intro i hi
    have hi' : (i + 1) * c ≤ n * c := Nat.mul_le_mul_right c (mem_range.mp hi)
    have hlen : i * c + c ≤ xs.length := by
      rw [hn, Nat.mul_comm c n]
      rw [Nat.add_mul, Nat.one_mul] at hi'
      exact hi'
    unfold piece
    rw [drop_append_of_le_length (by omega), take_append_of_le_length (by simp; omega)]
  · apply map_congr_left
    intro i _
    simp only [Function.comp_apply, piece]
    rw [drop_append, drop_eq_nil_of_le (by rw [hn, Nat.add_mul, Nat.mul_comm c n]; omega),
      nil_append]
    congr 2
    rw [hn, Nat.add_mul, Nat.mul_comm c n]
    omega

/-- What lies from place `w` on, as the rest of its piece and the pieces after it. -/
theorem drop_eq_piece_drop (hc : 0 < c) (d : List α) (w : Nat) :
    d.drop w = (piece c (w / c) d).drop (w % c) ++ d.drop ((w / c + 1) * c) := by
  have hw : w / c * c + w % c = w := Nat.div_add_mod' w c
  calc d.drop w = (d.drop (w / c * c)).drop (w % c) := by rw [drop_drop, hw]
    _ = ((d.drop (w / c * c)).take c ++ (d.drop (w / c * c)).drop c).drop (w % c) := by
      rw [take_append_drop]
    _ = _ := by
      have hm : w % c < c := Nat.mod_lt _ hc
      rw [drop_drop, show (w / c + 1) * c = w / c * c + c by rw [Nat.add_mul, Nat.one_mul]]
      by_cases hl : c ≤ (d.drop (w / c * c)).length
      · rw [drop_append_of_le_length (by rw [length_take]; omega)]
        rfl
      · have hnil : d.drop (w / c * c + c) = [] := by
          rw [length_drop] at hl
          exact drop_eq_nil_of_le (by omega)
        simp only [hnil, append_nil]
        rfl

theorem piece_piece {i j : Nat} (d : List α) (he : e = n * c) (hj : j < n) :
    piece c j (piece e i d) = piece c (i * n + j) d := by
  have hle : (j + 1) * c ≤ n * c := Nat.mul_le_mul_right c hj
  rw [Nat.add_mul, Nat.one_mul] at hle
  unfold piece
  rw [drop_take, drop_drop, take_take]
  congr 1
  · omega
  · congr 1
    rw [he, Nat.add_mul, Nat.mul_assoc]

theorem sub_div_mul (w c : Nat) : w - w / c * c = w % c := by
  have := Nat.div_add_mod' w c
  omega

/-- The piece over place `w`, found through a larger one. -/
theorem piece_mod (he : e = n * c) (hc : 0 < c) (h0 : 0 < e) (d : List α) (w : Nat) :
    piece c (w % e / c) (piece e (w / e) d) = piece c (w / c) d := by
  have hlt : w % e / c < n := by
    rw [Nat.div_lt_iff_lt_mul hc, ← he]
    exact Nat.mod_lt w h0
  have hw : w = w % e + w / e * n * c := by
    rw [Nat.mul_assoc, ← he]
    exact (Nat.mod_add_div' w e).symm
  rw [piece_piece d he hlt]
  congr 1
  conv_rhs => rw [hw, Nat.add_mul_div_right _ _ hc]
  omega

theorem length_piece_le (c i : Nat) (d : List α) : (piece c i d).length ≤ d.length := by
  rw [length_piece]
  omega

theorem length_piece_le_left (c i : Nat) (d : List α) : (piece c i d).length ≤ c := by
  rw [length_piece]
  omega

theorem mod_lt_length_piece {w : Nat} (hc : 0 < c) (hw : w < d.length) :
    w % c < (piece c (w / c) d).length := by
  have h1 := Nat.div_add_mod' w c
  have h2 := Nat.mod_lt w hc
  rw [length_piece]
  omega

theorem flatten_pieces (hc : 0 < c) (d : List α) : (pieces c d).flatten = d := by
  induction hn : d.length using Nat.strongRecOn generalizing d with
  | ind n ih =>
    by_cases hd : d.length ≤ c
    · by_cases h0 : d.length = 0
      · rw [length_eq_zero_iff.mp h0]
        simp
      · rw [pieces_of_short (by omega) hd]
        simp
    · have hlen : (d.take c).length = c := by rw [length_take]; omega
      have hsplit : pieces c d = pieces c (d.take c) ++ pieces c (d.drop c) := by
        rw [← pieces_append hc ⟨1, by omega⟩, take_append_drop]
      rw [hsplit, pieces_of_short (by omega) (by omega), flatten_append,
        ih _ (by rw [length_drop]; omega) _ rfl]
      simp

theorem divCeil_divCeil (hb : 0 < b) (hc : 0 < c) : divCeil (divCeil a b) c = divCeil a (c * b) := by
  refine eq_of_forall_ge_iff fun n => ?_
  rw [divCeil_le_iff hc, divCeil_le_iff hb, divCeil_le_iff (Nat.mul_pos hc hb), Nat.mul_assoc]

theorem zipIdx_map_range {β : Type u} (f : Nat → β) (n : Nat) :
    ((List.range n).map f).zipIdx = (List.range n).map fun i => (f i, i) := by
  apply ext_getElem <;> simp

theorem piece_range {u m : Nat} :
    piece n u (List.range m) = (List.range (min n (m - u * n))).map (u * n + ·) := by
  apply ext_getElem
  · simp [piece]
  · intro i h1 h2
    simp [piece]

/-- Counting by pieces of `n`. -/
theorem range_eq_flatMap (hn : 0 < n) (m : Nat) : List.range m = (List.range (divCeil m n)).flatMap fun u =>
      (List.range (min n (m - u * n))).map (u * n + ·) := by
  have h := flatten_pieces hn (List.range m)
  rw [pieces, length_range] at h
  simp only [piece_range] at h
  rw [flatMap_def, h]

theorem divCeil_length_piece (he : e = n * c) (hc : 0 < c) (d : List α) (u : Nat) :
    divCeil (piece e u d).length c = min n (divCeil d.length c - u * n) := by
  refine eq_of_forall_lt_iff fun j => ?_
  have h1 : j < divCeil d.length c - u * n ↔ j + u * n < divCeil d.length c := by omega
  rw [lt_divCeil_iff hc, length_piece, lt_min_iff, lt_min_iff, h1, lt_divCeil_iff hc, he,
    Nat.mul_lt_mul_right hc, Nat.add_mul, Nat.mul_assoc]
  omega

end MindCore
