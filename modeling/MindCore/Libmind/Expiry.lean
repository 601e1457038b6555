import Mathlib.Algebra.BigOperators.Intervals
import Mathlib.Algebra.Order.BigOperators.Group.Finset
import Mathlib.Data.List.Lex
import Mathlib.Tactic.IntervalCases
import MindCore.Libmind.ReleaseChannel

/-!
# Expiry times and the calendar

The seconds `expires_unix` gives for a channel's expiry, against the days of the years and months counted
one by one, and their order against the order of the texts.
-/

namespace MindCore.Release

open List

/-- `expires_unix`, in 64-bit signed numbers; only `y` can be negative. -/
def expiresUnix (expires : Fixed 20) : Nat :=
  let n (a b : Nat) : Int := fieldOf a b expires.1
  -- days from civil: the year begins in March
  let (y, m, d) := (n 0 4 - (if n 5 7 ≤ 2 then 1 else 0), n 5 7, n 8 10)
  let era := y / 400
  let yoe := y - era * 400
  let doy := (153 * (if 2 < m then m - 3 else m + 9) + 2) / 5 + d - 1
  let days := era * 146097 + yoe * 365 + yoe / 4 - yoe / 100 + doy - 719468
  (max (days * 86400 + n 11 13 * 3600 + n 14 16 * 60 + n 17 19) 0).toNat

/-! ### The calendar -/

/-- The days of `k` years from 1970 on. -/
def yearDays (k : Nat) : Nat := ∑ i ∈ Finset.range k, if leap (1970 + i) then 366 else 365

/-- The days of the first `k` months of a year. -/
def monthDays (year k : Nat) : Nat := ∑ i ∈ Finset.range k, (daysOf year (i + 1)).getD 0

/-- A moment of the Gregorian calendar. -/
structure Moment where
  year : Nat
  month : Nat
  day : Nat
  hour : Nat
  minute : Nat
  second : Nat
  month_ok : 1 ≤ month ∧ month ≤ 12
  day_ok : 1 ≤ day ∧ day ≤ (daysOf year month).getD 0
  clock_ok : hour < 24 ∧ minute < 60 ∧ second < 60

namespace Moment

/-- The days from 1970-01-01. -/
def days (t : Moment) : Nat := yearDays (t.year - 1970) + monthDays t.year (t.month - 1) + (t.day - 1)

def seconds (t : Moment) : Nat := t.days * 86400 + t.hour * 3600 + t.minute * 60 + t.second

def fields (t : Moment) : List Nat := [t.year, t.month, t.day, t.hour, t.minute, t.second]

end Moment

theorem yearDays_succ (k : Nat) : yearDays (k + 1) = yearDays k + if leap (1970 + k) then 366 else 365 :=
  Finset.sum_range_succ _ _

theorem monthDays_succ (year k : Nat) : monthDays year (k + 1) = monthDays year k + (daysOf year (k + 1)).getD 0 :=
  Finset.sum_range_succ _ _

theorem monthDays_mono (year : Nat) : Monotone (monthDays year) :=
  fun _ _ h => Finset.sum_le_sum_of_subset (Finset.range_subset_range.mpr h)

theorem yearDays_mono : Monotone yearDays :=
  fun _ _ h => Finset.sum_le_sum_of_subset (Finset.range_subset_range.mpr h)

theorem monthDays_year (year : Nat) : monthDays year 12 = if leap year then 366 else 365 := by
  simp only [monthDays, daysOf]
  cases leap year <;> rfl

section Moment
variable {s t : Moment}

theorem Moment.days_lt (hy : 1970 ≤ s.year) (h : s.year < t.year ∨ s.year = t.year ∧ (s.month < t.month ∨
    s.month = t.month ∧ s.day < t.day)) : s.days < t.days := by
  obtain ⟨hpos, hle⟩ := s.month_ok
  obtain ⟨hday, hs⟩ := s.day_ok
  have hmonth := monthDays_succ s.year (s.month - 1)
  rw [Nat.sub_add_cancel hpos] at hmonth
  simp only [days]
  rcases h with h | ⟨hyear, h | ⟨hmonth, h⟩⟩
  · have hrest := monthDays_mono s.year hle
    have hnext := yearDays_succ (s.year - 1970)
    rw [Nat.add_sub_cancel' hy, ← monthDays_year] at hnext
    have := yearDays_mono (show s.year - 1970 + 1 ≤ t.year - 1970 by omega)
    omega
  · have := monthDays_mono s.year (show s.month ≤ t.month - 1 by omega)
    rw [← hyear]
    omega
  · rw [← hyear, ← hmonth]
    omega

theorem Moment.seconds_lt (hy : 1970 ≤ s.year) (h : s.fields < t.fields) : s.seconds < t.seconds := by
  simp only [fields, cons_lt_cons_iff, not_lt_nil, and_false, or_false] at h
  have hs := s.clock_ok
  by_cases hday : s.year = t.year ∧ s.month = t.month ∧ s.day = t.day
  · obtain ⟨hyear, hmonth, hd⟩ := hday
    simp only [seconds, days, hyear, hmonth, hd]
    omega
  · have := days_lt (s := s) (t := t) hy (by omega)
    simp only [seconds]
    omega

/-! ### Days from civil -/

/-- The years counted, with the leap years among them in closed form. -/
theorem yearDays_eq (k : Nat) :
    yearDays k + 719162 = 365 * (1969 + k) + (1969 + k) / 4 - (1969 + k) / 100 + (1969 + k) / 400 := by
  induction k with
  | zero => rfl
  | succ k ih =>
    rw [yearDays_succ]
    simp only [leap, Bool.and_eq_true, Bool.or_eq_true, decide_eq_true_eq]
    split <;> omega

theorem monthDays_eq (year : Nat) {month : Nat} (h : 1 ≤ month ∧ month ≤ 12) :
    monthDays year (month - 1) = if month ≤ 2 then 31 * (month - 1) else
      (153 * (month - 3) + 2) / 5 + if leap year then 60 else 59 := by
  obtain ⟨hpos, hle⟩ := h
  simp only [monthDays, daysOf]
  cases leap year <;> interval_cases month <;> rfl

/-- The years of the era formula, in closed form. -/
theorem era_days (y : Int) : y / 400 * 146097 + (y - y / 400 * 400) * 365 + (y - y / 400 * 400) / 4 -
    (y - y / 400 * 400) / 100 = 365 * y + y / 4 - y / 100 + y / 400 := by
  omega

theorem daysOf_some {year month days : Nat} (h : daysOf year month = some days) :
    (1 ≤ month ∧ month ≤ 12) ∧ days ≤ 31 := by
  unfold daysOf at h
  split_ifs at h <;> simp_all <;> omega

def fieldsOf (text : Bytes) : List Nat :=
  [fieldOf 0 4 text, fieldOf 5 7 text, fieldOf 8 10 text, fieldOf 11 13 text, fieldOf 14 16 text, fieldOf 17 19 text]

/-- A day before 1970 counts as a negative number, so that such a text gives 0. -/
theorem expiresUnix_eq {expires : Fixed 20} (h : t.fields = fieldsOf expires.1) :
    expiresUnix expires = if 1970 ≤ t.year then t.seconds else 0 := by
  simp only [Moment.fields, fieldsOf, cons.injEq, and_true] at h
  obtain ⟨h1, h2, h3, h4, h5, h6⟩ := h
  have hmonth := t.month_ok
  have hday := t.day_ok
  have hclock := t.clock_ok
  simp only [expiresUnix, ← h1, ← h2, ← h3, ← h4, ← h5, ← h6, era_days]
  by_cases hy : 1970 ≤ t.year
  · have hyears := yearDays_eq (t.year - 1970)
    rw [show 1969 + (t.year - 1970) = t.year - 1 by omega] at hyears
    have hdiv : ∀ n : Nat, ((t.year - 1) / n : Nat) = ((t.year : Int) - 1) / n := fun n => by
      rw [Int.natCast_ediv, Nat.cast_sub (by omega), Nat.cast_one]
    have h4 := hdiv 4
    have h100 := hdiv 100
    have h400 := hdiv 400
    rw [if_pos hy, Moment.seconds, Moment.days, monthDays_eq t.year hmonth]
    simp only [leap, Bool.and_eq_true, Bool.or_eq_true, decide_eq_true_eq]
    split_ifs <;> omega
  · have h31 : (daysOf t.year t.month).getD 0 ≤ 31 := by
      cases h : daysOf t.year t.month with
      | none => exact Nat.zero_le _
      | some d => exact (daysOf_some h).2
    rw [if_neg hy]
    split_ifs <;> omega

end Moment

/-! ### The texts -/

section Texts
variable {text text' : Bytes} {t t' : Fixed 20}

theorem moment_of_timestamp (h : timestamp text = some t) : ∃ m : Moment, m.fields = fieldsOf t.1 := by
  obtain ⟨-, -, days, hdays, h1, h2, hclock⟩ := timestamp_some h
  have hday := daysOf_some hdays
  exact ⟨⟨fieldOf 0 4 t.1, _, _, _, _, _, hday.1, ⟨h1, by rw [hdays]; exact h2⟩, hclock⟩, rfl⟩

/-- The bytes of an accepted text: digits, and the marks between the fields. -/
theorem bytes_of_timestamp (h : timestamp text = some t) : ∃ b : Nat → UInt8, text = (range 20).map b ∧
    ∀ i ∈ range 20, if i = 4 ∨ i = 7 then b i = 0x2d else if i = 10 then b i = 0x54
      else if i = 13 ∨ i = 16 then b i = 0x3a else if i = 19 then b i = 0x5a
      else digit (b i) := by
  obtain ⟨rfl, hs, -⟩ := timestamp_some h
  refine ⟨fun i => t.1[i]?.getD 0, ext_getElem (by simp [t.2]) (by simp +contextual), ?_⟩
  intro i hi
  have hlt : i < t.1.length := t.2.symm ▸ mem_range.mp hi
  simpa only [getElem?_eq_getElem hlt, Option.getD_some] using hs i _ (getElem?_eq_getElem hlt)

theorem fieldsOf_lt (h : timestamp text = some t) (h' : timestamp text' = some t') (hlt : text < text') :
    fieldsOf text < fieldsOf text' := by
  obtain ⟨b, rfl, hb⟩ := bytes_of_timestamp h
  obtain ⟨c, rfl, hc⟩ := bytes_of_timestamp h'
  -- the marks agree, and the first digit that differs decides the order of its field
  simp only [range_succ, range_zero, nil_append, cons_append, map_cons, map_nil, forall_mem_cons, cons_lt_cons_iff,
    digit, Bool.and_eq_true, decide_eq_true_eq, UInt8.le_iff_toNat_le, UInt8.lt_iff_toNat_lt, ← UInt8.toNat_inj]
    at hb hc hlt
  simp [fieldsOf, fieldOf, Bytes.slice, range_succ, cons_lt_cons_iff] at hb hc hlt ⊢
  omega

/-- From 1970 on an accepted text counts as the seconds of the moment it names, every day of the years and
months before it counted. So the seconds follow the order of the texts, and from 1970 on differ where
the texts do. -/
theorem expiry_is_the_calendars (h : timestamp text = some t) : ∃ m : Moment, m.fields = fieldsOf text ∧
    (1970 ≤ m.year → expiresUnix t = m.seconds) ∧
    ∀ text' t', timestamp text' = some t' → (text ≤ text' → expiresUnix t ≤ expiresUnix t') ∧
      (1970 ≤ m.year → text < text' → expiresUnix t < expiresUnix t') := by
  obtain ⟨m, hm⟩ := moment_of_timestamp h
  refine ⟨m, (timestamp_some h).1 ▸ hm, fun hy => (expiresUnix_eq hm).trans (if_pos hy), ?_⟩
  intro text' t' h'
  obtain ⟨m', hm'⟩ := moment_of_timestamp h'
  have hstrict : 1970 ≤ m.year → text < text' → expiresUnix t < expiresUnix t' := by
    intro hy hlt
    have hfields := fieldsOf_lt h h' hlt
    rw [(timestamp_some h).1, (timestamp_some h').1, ← hm, ← hm'] at hfields
    have hy' : m.year ≤ m'.year := by
      simp only [Moment.fields, cons_lt_cons_iff] at hfields
      omega
    rw [expiresUnix_eq hm, expiresUnix_eq hm', if_pos hy, if_pos (hy.trans hy')]
    exact Moment.seconds_lt hy hfields
  refine ⟨?_, hstrict⟩
  intro hle
  by_cases hy : 1970 ≤ m.year
  · rcases List.le_iff_lt_or_eq.mp hle with hlt | rfl
    · exact (hstrict hy hlt).le
    · rw [Option.some.inj (h.symm.trans h')]
  · rw [expiresUnix_eq hm, if_neg hy]
    exact Nat.zero_le _

end Texts

/-- The last second of a leap day. -/
theorem expiry_of_a_leap_day : timestamp (ascii "2028-02-29T23:59:59Z") = some ⟨ascii "2028-02-29T23:59:59Z", by decide⟩ ∧
    ∃ m : Moment, m.fields = [2028, 2, 29, 23, 59, 59] ∧
      expiresUnix ⟨ascii "2028-02-29T23:59:59Z", by decide⟩ = m.seconds := by
  have h : timestamp (ascii "2028-02-29T23:59:59Z") = some ⟨ascii "2028-02-29T23:59:59Z", by decide⟩ := by decide
  obtain ⟨m, hm, hsec, -⟩ := expiry_is_the_calendars h
  refine ⟨h, m, hm, hsec ?_⟩
  have hyear : m.year = 2028 := (cons.inj hm).1
  omega

end MindCore.Release
