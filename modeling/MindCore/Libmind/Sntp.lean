import Mathlib.Data.List.Sort
import Mathlib.Data.Real.Basic
import Mathlib.Tactic.Linarith

/-!
# The time the servers agree on

The offset `timed` takes from its answers: one sample an answer, the largest set of samples that agree with
each other, the median of that set. Times are milliseconds; every value stays far within 64 bits.
-/

namespace MindCore.Libmind.Sntp

open List

def agreeMs : Int := 1000

def unixFromNtp : Nat := 2208988800

/-- Milliseconds since 1970 of an NTP timestamp: seconds that would fall before 1970 in era 0 are era 1's. -/
def unixMs (timestamp : UInt64) : Int :=
  let seconds := timestamp.toNat >>> 32
  let seconds := if unixFromNtp ≤ seconds then seconds - unixFromNtp else seconds + 2 ^ 32 - unixFromNtp
  (seconds * 1000 + (timestamp.toNat % 2 ^ 32 * 1000) >>> 32 : Nat)

structure Answer where
  stratum : UInt8
  receive : UInt64
  transmit : UInt64
  deriving DecidableEq, Repr

structure Sample where
  offsetMs : Int
  delayMs : Int
  deriving DecidableEq, Repr

def sample (answer : Answer) (sentMs cameMs : Int) : Sample :=
  let receive := unixMs answer.receive
  let transmit := unixMs answer.transmit
  ⟨((receive - sentMs) + (transmit - cameMs)).tdiv 2, max ((cameMs - sentMs) - (transmit - receive)) 0⟩

def agree (a b : Sample) : Bool :=
  decide (|a.offsetMs - b.offsetMs| ≤ agreeMs + (a.delayMs + b.delayMs).tdiv 2)

structure Choice where
  offsetMs : Int
  agreed : Nat
  deriving DecidableEq, Repr

inductive NoChoice where
  | tooFew
  | noneAgree
  | split
  deriving DecidableEq, Repr

def members (samples : List Sample) (set : Nat) : List Sample :=
  ((List.range (min samples.length 8)).filter set.testBit).filterMap (samples[·]?)

/-- The largest set found, its size, and whether another is as large. -/
structure Search where
  best : Nat
  size : Nat
  split : Bool
  deriving DecidableEq, Repr

def consider (samples : List Sample) (s : Search) (set : Nat) : Search :=
  let found := members samples set
  if found.length < 2 ∨ found.length < s.size then s
  else if !found.all fun a => found.all (agree a) then s
  else if s.size < found.length then ⟨set, found.length, false⟩
  else { s with split := true }

def median (offsets : List Int) : Int :=
  let l := offsets.insertionSort (· ≤ ·)
  let k := l.length
  if k % 2 = 1 then l.getD (k / 2) 0 else (l.getD (k / 2 - 1) 0 + l.getD (k / 2) 0).tdiv 2

def choose (samples : List Sample) : Except NoChoice Choice :=
  let n := min samples.length 8
  if n < 2 then .error .tooFew
  else
    let s := (List.range' 1 (2 ^ n - 1)).foldl (consider samples) ⟨0, 0, false⟩
    if s.size = 0 then .error .noneAgree
    else if s.split then .error .split
    else .ok ⟨median ((members samples s.best).map (·.offsetMs)), s.best⟩

def Agreed (l : List Sample) : Prop := 2 ≤ l.length ∧ ∀ a ∈ l, ∀ b ∈ l, agree a b = true

variable {samples : List Sample}

theorem consider_agreed {s : Search} (set : Nat) (h : s.size = 0 ∨ Agreed (members samples s.best)) :
    (consider samples s set).size = 0 ∨ Agreed (members samples (consider samples s set).best) := by
  unfold consider
  dsimp only
  split_ifs with hfew hall hmore
  · exact h
  · exact h
  · rw [not_or, not_lt] at hfew
    refine .inr ⟨hfew.1, ?_⟩
    simpa using hall
  · exact h

theorem choose_agreed {c : Choice} (h : choose samples = .ok c) :
    ∃ set, Agreed (members samples set) ∧ c.offsetMs = median ((members samples set).map (·.offsetMs)) := by
  have hs : ∀ s : Search, s.size = 0 ∨ Agreed (members samples s.best) → ∀ sets : List Nat,
      (sets.foldl (consider samples) s).size = 0 ∨
        Agreed (members samples (sets.foldl (consider samples) s).best) := by
    intro s h sets
    induction sets generalizing s with
    | nil => exact h
    | cons set sets ih => exact ih _ (consider_agreed set h)
  unfold choose at h
  dsimp only at h
  split_ifs at h with hfew hnone hsplit
  cases h
  exact ⟨_, (hs _ (.inl rfl) _).resolve_left hnone, rfl⟩

theorem members_pairwise {R : Sample → Sample → Prop} (h : samples.Pairwise R)
    (set : Nat) : (members samples set).Pairwise R := by
  refine (pairwise_lt_range.filter _).filterMap _ ?_
  intro i j hij a ha b hb
  obtain ⟨hi, rfl⟩ := List.getElem?_eq_some_iff.mp ha
  obtain ⟨hj, rfl⟩ := List.getElem?_eq_some_iff.mp hb
  exact pairwise_iff_getElem.mp h i j hi hj hij

theorem mem_of_mem_members {set : Nat} {a : Sample} (h : a ∈ members samples set) : a ∈ samples := by
  obtain ⟨i, -, hi⟩ := mem_filterMap.mp h
  exact mem_of_getElem? hi

/-! ### The median -/

def Near (θ : ℝ) (trip x : Int) : Prop := 2 * |x - θ| ≤ trip + 1

variable {θ : ℝ}

theorem Near.le {trip x : Int} (h : Near θ trip x) : |x - θ| ≤ (trip + 1) / 2 := by
  unfold Near at h
  linarith

theorem Near.trip {trip x : Int} (h : Near θ trip x) : -1 ≤ trip := by
  have h0 := (abs_nonneg _).trans h.le
  have h1 : (-1 : ℝ) ≤ trip := by linarith
  exact_mod_cast h1

theorem Near.mono {trip trip' x : Int} (h : Near θ trip x) (hle : trip ≤ trip') : Near θ trip' x := by
  have : (trip : ℝ) ≤ trip' := by exact_mod_cast hle
  unfold Near at *
  linarith

theorem Near.between {trip x y z : Int} (hx : Near θ trip x) (hz : Near θ trip z) (hxy : x ≤ y)
    (hyz : y ≤ z) : Near θ trip y := by
  have h1 : (x : ℝ) ≤ y := by exact_mod_cast hxy
  have h2 : (y : ℝ) ≤ z := by exact_mod_cast hyz
  have h3 := (abs_le.mp hx.le).1
  have h4 := (abs_le.mp hz.le).2
  have h5 : |(y : ℝ) - θ| ≤ (trip + 1) / 2 := abs_le.mpr ⟨by linarith, by linarith⟩
  unfold Near
  linarith

theorem two_tdiv (a : Int) : a - 1 ≤ 2 * a.tdiv 2 ∧ 2 * a.tdiv 2 ≤ a + 1 := by
  have h1 := Int.mul_tdiv_add_tmod a 2
  rcases Int.tmod_two_eq a with h | h | h <;> omega

theorem mean_near {θ a b : ℝ} {x y : Int} (hx : |x - θ| ≤ a) (hy : |y - θ| ≤ b) :
    |((x + y).tdiv 2 : Int) - θ| ≤ (a + b + 1) / 2 := by
  obtain ⟨h1, h2⟩ := two_tdiv (x + y)
  have h1 : ((x + y : Int) : ℝ) - 1 ≤ 2 * ((x + y).tdiv 2 : Int) := by exact_mod_cast h1
  have h2 : 2 * (((x + y).tdiv 2 : Int) : ℝ) ≤ (x + y : Int) + 1 := by exact_mod_cast h2
  push_cast at h1 h2
  rw [abs_le] at *
  constructor <;> linarith

/-- Of sorted offsets all but one of which are near, those between two others are near. -/
theorem near_inside {trip : Int} {l : List Int} (hs : l.Pairwise (· ≤ ·))
    (hn : l.Pairwise fun x y => Near θ trip x ∨ Near θ trip y) {i : Nat} (h0 : 0 < i) (hi : i + 1 < l.length) :
    Near θ trip (l.getD i 0) := by
  rw [getD_eq_getElem?_getD, getElem?_eq_getElem (show i < l.length by omega), Option.getD_some]
  rw [pairwise_iff_getElem] at hs hn
  rcases hn 0 i (by omega) (by omega) h0 with h | h
  · rcases hn i (i + 1) (by omega) hi (by omega) with h' | h'
    · exact h'
    · exact h.between h' (hs 0 i _ _ h0) (hs i (i + 1) _ _ (by omega))
  · exact h

theorem median_near {trip : Int} {l : List Int} (hl : 3 ≤ l.length)
    (hn : l.Pairwise fun x y => Near θ trip x ∨ Near θ trip y) : |(median l : ℝ) - θ| ≤ trip / 2 + 1 := by
  have hp := perm_insertionSort (· ≤ ·) l
  have hs := pairwise_insertionSort (· ≤ ·) l
  have hn := (hp.symm.pairwise_iff Or.symm).mp hn
  have hl := hp.length_eq ▸ hl
  unfold median
  generalize l.insertionSort (· ≤ ·) = l at hs hn hl
  dsimp only
  split_ifs with hodd
  · have h := (near_inside hs hn (i := l.length / 2) (by omega) (by omega)).le
    linarith
  · have h1 := (near_inside hs hn (i := l.length / 2 - 1) (by omega) (by omega)).le
    have h2 := (near_inside hs hn (i := l.length / 2) (by omega) (by omega)).le
    have h := mean_near h1 h2
    linarith

theorem median_pair (x y : Int) : median [x, y] = (x + y).tdiv 2 := by
  by_cases h : x ≤ y
  · simp [median, h]
  · simp [median, h, Int.add_comm y]

/-! ### One lying server -/

/-- An answer, and when its request left and it came, on the clock's base. -/
structure Exchange where
  answer : Answer
  sentMs : Int
  cameMs : Int
  deriving DecidableEq, Repr

def Exchange.sample (x : Exchange) : Sample := Sntp.sample x.answer x.sentMs x.cameMs

/-- The time between a request and its answer, and the offset of the answer. -/
def Exchange.told (x : Exchange) : Int × Int := (x.cameMs - x.sentMs, x.sample.offsetMs)

/-- By how much an answer says it left before its request came. -/
def Exchange.early (x : Exchange) : Int := unixMs x.answer.receive - unixMs x.answer.transmit

/-- Two to four answers, none later than `trip` after its request, of which at most one is dishonest:
the offsets of the others are within half of their own trips of the true one. -/
structure Answered (θ : ℝ) (trip : Int) (xs : List Exchange) : Prop where
  count : 2 ≤ xs.length ∧ xs.length ≤ 4
  trips : ∀ x ∈ xs, x.cameMs - x.sentMs ≤ trip
  honest : (xs.map (·.told)).Pairwise fun x y => Near θ x.1 x.2 ∨ Near θ y.1 y.2

/-- An offset taken from the answers is right but for the tolerance, a trip and a rounding. -/
def Bounded (θ : ℝ) (trip : Int) (xs : List Exchange) : Prop :=
  ∀ c, choose (xs.map (·.sample)) = .ok c → |(c.offsetMs : ℝ) - θ| ≤ agreeMs + trip + 1

theorem Answered.trip {trip : Int} {xs : List Exchange} (h : Answered θ trip xs) : -1 ≤ trip := by
  obtain ⟨hn, -⟩ := h.count
  rcases pairwise_iff_getElem.mp (pairwise_map.mp h.honest) 0 1 (by omega) (by omega) (by omega) with hx | hx
  · exact hx.trip.trans (h.trips _ (getElem_mem _))
  · exact hx.trip.trans (h.trips _ (getElem_mem _))

theorem pair_near {trip x y : Int} (hx : Near θ trip x) (hd : |x - y| ≤ 2 * agreeMs + trip) :
    |((x + y).tdiv 2 : Int) - θ| ≤ agreeMs + trip + 1 := by
  have hd : |(x : ℝ) - y| ≤ 2 * agreeMs + trip := by exact_mod_cast hd
  have hy : |(y : ℝ) - θ| ≤ 2 * agreeMs + trip + (trip + 1) / 2 :=
    calc |(y : ℝ) - θ| ≤ |(y : ℝ) - x| + |(x : ℝ) - θ| := abs_sub_le _ _ _
      _ ≤ _ := add_le_add (abs_sub_comm (y : ℝ) x ▸ hd) hx.le
  have h := mean_near hx.le hy
  linarith

theorem bounded_of_early {trip : Int} {xs : List Exchange} (h : Answered θ trip xs)
    (he : ∀ x ∈ xs, x.early ≤ agreeMs) : Bounded θ trip xs := by
  intro c hc
  obtain ⟨set, ⟨hlen, hagree⟩, hmed⟩ := choose_agreed hc
  have htrip := h.trip
  have hn : (xs.map (·.sample)).Pairwise fun a b => Near θ trip a.offsetMs ∨ Near θ trip b.offsetMs := by
    rw [pairwise_map]
    refine (pairwise_map.mp h.honest).imp_of_mem fun hx hy hxy => ?_
    exact hxy.imp (·.mono (h.trips _ hx)) (·.mono (h.trips _ hy))
  have hd : ∀ a ∈ members (xs.map (·.sample)) set, a.delayMs ≤ trip + agreeMs := by
    intro a ha
    obtain ⟨x, hx, rfl⟩ := mem_map.mp (mem_of_mem_members ha)
    have h1 := h.trips x hx
    have h2 := he x hx
    simp only [Exchange.early, Exchange.sample, sample, agreeMs] at h2 ⊢
    omega
  have hn := members_pairwise hn set
  rw [hmed]
  generalize members (xs.map (·.sample)) set = l at hn hd hlen hagree
  rcases hlen.eq_or_lt with h2 | h3
  · -- Two samples of which one is near: how far the other is off, the delays say.
    obtain ⟨a, b, rfl⟩ := length_eq_two.mp h2.symm
    have hab : |a.offsetMs - b.offsetMs| ≤ 2 * agreeMs + trip := by
      have hab := of_decide_eq_true (hagree a (by simp) b (by simp))
      have ha := hd a (by simp)
      have hb := hd b (by simp)
      have ht := two_tdiv (a.delayMs + b.delayMs)
      omega
    rw [map_cons, map_cons, map_nil, median_pair]
    rcases pairwise_pair.mp hn with ha | hb
    · exact pair_near ha hab
    · rw [Int.add_comm]
      exact pair_near hb (abs_sub_comm a.offsetMs _ ▸ hab)
  · have hm := median_near (l := l.map (·.offsetMs)) (by rwa [length_map]) (pairwise_map.mpr hn)
    have hA : (agreeMs : ℝ) = 1000 := by norm_num [agreeMs]
    have htrip : (-1 : ℝ) ≤ trip := by exact_mod_cast htrip
    linarith

def twoEarly : List Exchange :=
  [⟨⟨1, 0x83AA7E8100418938, 0x83AA7E8000000000⟩, 10000, 10000⟩,
    ⟨⟨1, 0x83AA7E830083126F, 0x83AA7E8200418938⟩, 10000, 10000⟩]

/-- One dishonest answer does not move the clock beyond the tolerance as long as no answer says that it left
more than the tolerance before its request came, and no longer. -/
theorem one_liar_iff (early : Int) :
    (∀ θ trip xs, Answered θ trip xs → (∀ x ∈ xs, x.early ≤ early) → Bounded θ trip xs) ↔ early ≤ agreeMs := by
  constructor
  · intro h
    by_contra hlt
    have ha : Answered (-9499.5) 0 twoEarly := by
      have ht : twoEarly.map (·.told) = [(0, -9499), (0, -7498)] := by decide
      refine ⟨by decide, by decide, ht ▸ pairwise_pair.mpr (.inl ?_)⟩
      norm_num [Near]
    have he : ∀ x ∈ twoEarly, x.early ≤ 1001 := by decide
    have hlt : (1001 : Int) ≤ early := Int.add_one_le_of_lt (not_le.mp hlt)
    have hb := h _ _ _ ha (fun x hx => (he x hx).trans hlt) ⟨-8498, 3⟩ (by decide)
    norm_num [agreeMs, abs_le] at hb
  · intro hle θ trip xs h he
    exact bounded_of_early h fun x hx => (he x hx).trans hle

/-- The answer of a server with the time of the clock, and one that says it left an hour before its request
came. -/
def anHourEarly : List Exchange :=
  [⟨⟨1, 0x83AA7E8100000000, 0x83AA7E8100000000⟩, 900, 1100⟩,
    ⟨⟨1, 0x83AA8C9000000000, 0x83AA7E8000000000⟩, 900, 1100⟩]

/-- The clock goes a quarter of an hour ahead. -/
theorem liar_moves_clock :
    Answered 0 200 anHourEarly ∧ choose (anHourEarly.map (·.sample)) = .ok ⟨899500, 3⟩ ∧
      ¬Bounded 0 200 anHourEarly := by
  have hc : choose (anHourEarly.map (·.sample)) = .ok ⟨899500, 3⟩ := by decide
  have ht : anHourEarly.map (·.told) = [(200, 0), (200, 1799000)] := by decide
  refine ⟨⟨by decide, by decide, ht ▸ pairwise_pair.mpr (.inl ?_)⟩, hc, ?_⟩
  · norm_num [Near]
  · intro h
    have h := h _ hc
    norm_num [agreeMs] at h

end MindCore.Libmind.Sntp
