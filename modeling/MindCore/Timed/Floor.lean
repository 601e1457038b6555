import MindCore.Libmind.ReleaseCodec
import MindCore.Libmind.Sntp

/-!
# The time floor

`read_floor`, `write_floor`, `round` and `main` of `timed`. The clock is set within bounds, and the latest time set
is kept in a file as the floor of the next start.
-/

namespace MindCore.Timed

open List Release Libmind.Sntp

def stepMs : Int := 24 * 3600 * 1000

def unix2000 : Int := 946684800

def lastDay : Int := 36524

def rtcMs (date seconds : Int) : Int := (unix2000 + date * 86400 + seconds) * 1000

/-- Rounded to the nearest second; none outside 2000 to 2099. -/
def rtcParts (unixMs : Int) : Option (Int × Int) :=
  let seconds := (unixMs + 500) / 1000 - unix2000
  if 0 ≤ seconds / 86400 ∧ seconds / 86400 ≤ lastDay then some (seconds / 86400, seconds % 86400) else none

inductive Decision where
  | set | beforeFloor | stepTooLarge | outOfRange
  deriving DecidableEq, Repr

def decide (clockMs newMs floorMs : Int) (first confirmed : Bool) : Decision :=
  if newMs < floorMs then .beforeFloor
  else if rtcParts newMs = none then .outOfRange
  else if stepMs < |newMs - clockMs| ∧ first = false ∧ confirmed = false then .stepTooLarge
  else .set

def parseFloor (text : Bytes) : Option Int :=
  let digits := if text.getLast? = some newline then text.dropLast else text
  if digits = [] ∨ 12 < digits.length ∨ digits.all digit = false then none else some (value 0 digits * 1000 : Nat)

def floorText (unixMs : Int) : Bytes := digitsOf 16 (max unixMs 0 / 1000).toNat [] ++ [newline]

inductive Path where
  | floor | floorNew
  deriving DecidableEq

abbrev Disk := Path → Option Bytes

/-- `answers` is whether the drive lets the file be read. -/
def readFloor (answers : Bool) (d : Disk) : Int :=
  if answers then ((d .floor).bind fun b => parseFloor (b.take 16)).getD 0 else 0

/-- How far a write of the floor comes: up to a failure or a stop before an operation or after `n` bytes. -/
inductive Reach where
  | create | write (n : Nat) | remove | rename | done
  deriving DecidableEq

def writeFloor (unixMs : Int) : Reach → Disk → Disk
  | .create, d => d
  | .write n, d => Function.update d .floorNew (some ((floorText unixMs).take n))
  | .remove, d => Function.update d .floorNew (some (floorText unixMs))
  | .rename, d => Function.update (Function.update d .floorNew (some (floorText unixMs))) .floor none
  | .done, d => Function.update (Function.update d .floorNew none) .floor (some (floorText unixMs))

/-- What a round meets: the answers, the clock when it decides, how long it sleeps then, and whether the clock
takes the time. -/
structure Round where
  samples : List Sample
  clock : Int
  slept : Nat
  accepted : Bool

def round (floor : Int) (first : Bool) (r : Round) : Option Int :=
  match choose r.samples with
  | .error _ => none
  | .ok c =>
    if decide r.clock (r.clock + c.offsetMs) floor first false = .set then
      match rtcParts (r.clock + r.slept + c.offsetMs) with
      | none => none
      | some (date, seconds) => if r.accepted then some (rtcMs date seconds) else none
    else none

def builtMs (text : Option Bytes) : Int :=
  match text with
  | none => 0
  | some t => if t.all digit && t.length ≤ 12 then (value 0 t * 1000 : Nat) else 0

/-- The files; the floor of the running `timed` and whether it has set nothing yet; the floors whose write came
to its end. -/
structure State where
  disk : Disk
  running : Option (Int × Bool)
  finished : List Int

inductive Act where
  | start (answers : Bool)
  | round (r : Round) (reach : Reach)

section
variable (text : Option Bytes)

def startFloor (answers : Bool) (d : Disk) : Int := max (builtMs text) (readFloor answers d)

/-- `main`: a start, whatever ran before, or a turn of its loop. -/
def step (s : State) : Act → State
  | .start answers => { s with running := some (startFloor text answers s.disk, true) }
  | .round r reach =>
    match s.running with
    | none => s
    | some (floor, first) =>
      match round floor first r with
      | none => s
      | some time =>
        if floor < time then
          ⟨writeFloor time reach s.disk, some (time, false), if reach = .done then time :: s.finished else s.finished⟩
        else { s with running := some (floor, false) }

/-- The file is read, and once a floor is kept no write ends between its remove and its rename. -/
def Fine (s : State) : Act → Prop
  | .start answers => answers = true
  | .round _ reach => reach = .rename → s.finished = []

inductive Reached : State → Prop
  | new : Reached ⟨fun _ => none, none, []⟩
  | step {s : State} {a : Act} (h : Reached s) (hf : Fine s a) : Reached (step text s a)

end

/-! ### Rounding and the file -/

variable {text : Option Bytes} {s : State} {x t floor : Int} {first : Bool} {r : Round}

theorem rtcMs_of_parts {date seconds : Int} (h : rtcParts x = some (date, seconds)) :
    rtcMs date seconds = (x + 500) / 1000 * 1000 ∧ 0 < rtcMs date seconds ∧ rtcMs date seconds < 10 ^ 15 := by
  unfold rtcParts at h
  dsimp only at h
  split at h
  · cases h
    unfold rtcMs unix2000 lastDay at *
    omega
  · cases h

def Whole (x : Int) : Prop := 1000 ∣ x ∧ 0 < x ∧ x < 10 ^ 15

theorem length_digitsOf_lt {j : Nat} (k n : Nat) (after : Bytes) (h : n < 10 ^ (j + 1)) :
    (digitsOf k n after).length ≤ j + 1 + after.length := by
  induction k generalizing n after j with
  | zero => exact Nat.le_add_left _ _
  | succ k ih =>
    rw [digitsOf]
    split
    · rw [length_cons]
      omega
    · cases j with
      | zero => omega
      | succ j =>
        have hlen := ih (j := j) (n / 10) (UInt8.ofNat (0x30 + n % 10) :: after) (by rw [Nat.pow_succ] at h; omega)
        rw [length_cons] at hlen
        omega

theorem parseFloor_floorText (h : Whole x) : parseFloor ((floorText x).take 16) = some x := by
  obtain ⟨hd, h0, hx⟩ := h
  obtain ⟨n, hn⟩ : ∃ n : Nat, max x 0 / 1000 = n := Int.eq_ofNat_of_zero_le (by omega)
  have hlen := length_digitsOf_lt (j := 11) 16 n [] (by omega)
  have hval : value 0 (digitsOf 16 n []) = n := value_digitsOf 15 n [] (by omega)
  have hne : digitsOf 16 n [] ≠ [] := by
    intro he
    rw [he, show value 0 [] = 0 from rfl] at hval
    omega
  rw [floorText, hn, Int.toNat_natCast, take_of_length_le (by rw [length_append]; simp at hlen ⊢; omega), parseFloor]
  simp only [getLast?_append, getLast?_singleton, Option.some_or, if_true, dropLast_concat]
  have hall : (digitsOf 16 n []).all digit = true := digitsOf_all 16 n rfl
  rw [if_neg (by simp [hne, hall]; simpa using hlen), hval]
  congr 1
  omega

theorem dvd_readFloor (answers : Bool) (d : Disk) : 1000 ∣ readFloor answers d := by
  unfold readFloor
  split
  · cases hp : (d .floor).bind fun b => parseFloor (b.take 16) with
    | none => exact Int.dvd_zero _
    | some y =>
      obtain ⟨b, -, hb⟩ := Option.bind_eq_some_iff.mp hp
      unfold parseFloor at hb
      dsimp only at hb
      split_ifs at hb
      all_goals
        cases hb
        rw [Option.getD_some]
        omega
  · exact Int.dvd_zero _

theorem dvd_builtMs (text : Option Bytes) : 1000 ∣ builtMs text := by
  unfold builtMs
  split
  · exact Int.dvd_zero _
  · split
    · omega
    · exact Int.dvd_zero _

/-! ### Rounds -/

def Round.offset (r : Round) : Int :=
  match choose r.samples with
  | .error _ => 0
  | .ok c => c.offsetMs

/-- Rounding to the second does not carry the step past the largest one. -/
def Round.Steps (r : Round) : Prop :=
  let past := (r.clock + r.slept + r.offset) % 1000
  if past < 500 then past ≤ stepMs + r.offset else 1000 - past ≤ stepMs - r.offset

theorem round_some (h : round floor first r = some t) :
    floor ≤ r.clock + r.offset ∧ (first = false → |r.offset| ≤ stepMs) ∧
      t = (r.clock + r.slept + r.offset + 500) / 1000 * 1000 ∧ Whole t := by
  unfold round at h
  unfold Round.offset
  split at h
  · cases h
  · split at h
    · rename_i hset
      split at h
      · cases h
      · rename_i date seconds hp
        split at h
        · cases h
          obtain ⟨ht, h0, hlt⟩ := rtcMs_of_parts hp
          refine ⟨?_, ?_, ht, by omega, h0, hlt⟩
          · by_contra hlow
            rw [decide, if_pos (by omega)] at hset
            cases hset
          · intro hfirst
            by_contra hbig
            unfold decide at hset
            split at hset
            · cases hset
            · split at hset
              · cases hset
              · rw [if_pos ⟨by rw [add_sub_cancel_left]; omega, hfirst, rfl⟩] at hset
                cases hset
        · cases h
    · cases h

theorem round_le (hd : 1000 ∣ floor) (h : round floor first r = some t) : floor ≤ t := by
  obtain ⟨hle, -, ht, -⟩ := round_some h
  omega

theorem steps_iff (hf : first = false) (h : round floor first r = some t) :
    |t - (r.clock + r.slept)| ≤ stepMs ↔ r.Steps := by
  obtain ⟨-, hstep, ht, -⟩ := round_some h
  have hstep := hstep hf
  unfold Round.Steps
  dsimp only
  rw [abs_le] at *
  split <;> omega

/-! ### Runs -/

structure Inv (text : Option Bytes) (s : State) : Prop where
  kept : s.finished = [] ∨ ∃ x, s.disk .floor = some (floorText x) ∧ Whole x ∧ ∀ f ∈ s.finished, f ≤ x
  running : ∀ floor first, s.running = some (floor, first) →
    1000 ∣ floor ∧ builtMs text ≤ floor ∧ ∀ f ∈ s.finished, f ≤ floor

theorem Inv.start (h : Inv text s) : ∀ f ∈ s.finished, f ≤ startFloor text true s.disk := by
  intro f hf
  rcases h.kept with hnil | ⟨x, hx, hw, hle⟩
  · rw [hnil] at hf
    cases hf
  · have hread : readFloor true s.disk = x := by
      rw [readFloor, if_pos rfl, hx, Option.bind_some, parseFloor_floorText hw, Option.getD_some]
    rw [startFloor, hread]
    exact (hle f hf).trans (le_max_right _ _)

theorem writeFloor_floor {reach : Reach} (d : Disk) (h : reach ≠ .rename) (h' : reach ≠ .done) :
    writeFloor x reach d .floor = d .floor := by
  cases reach with
  | rename => exact absurd rfl h
  | done => exact absurd rfl h'
  | create | write n | remove => rfl

theorem Inv.round (h : Inv text s) {reach : Reach} (hfine : Fine s (.round r reach))
    (hs : s.running = some (floor, first)) (ht : Timed.round floor first r = some t) (hlt : floor < t) :
    Inv text ⟨writeFloor t reach s.disk, some (t, false), if reach = .done then t :: s.finished else s.finished⟩ := by
  obtain ⟨hd, hb, hall⟩ := h.running floor first hs
  obtain ⟨-, -, -, hw⟩ := round_some ht
  have hle : ∀ f ∈ (if reach = .done then t :: s.finished else s.finished), f ≤ t := by
    intro f hf
    split at hf
    · rcases mem_cons.mp hf with rfl | hf
      · exact le_refl _
      · exact (hall f hf).trans hlt.le
    · exact (hall f hf).trans hlt.le
  refine ⟨?_, ?_⟩
  · by_cases hdone : reach = .done
    · subst hdone
      exact .inr ⟨t, rfl, hw, hle⟩
    · rw [if_neg hdone]
      by_cases hren : reach = .rename
      · exact .inl (hfine hren)
      · refine h.kept.imp_right fun ⟨x, hx, hwx, hlx⟩ => ⟨x, ?_, hwx, hlx⟩
        exact (writeFloor_floor s.disk hren hdone).trans hx
  · rintro _ _ ⟨⟩
    exact ⟨hw.1, hb.trans hlt.le, hle⟩

theorem Reached.inv (h : Reached text s) : Inv text s := by
  induction h with
  | new => exact ⟨.inl rfl, fun _ _ h => by cases h⟩
  | @step s a _ hf ih =>
    cases a with
    | start answers =>
      refine ⟨ih.kept, ?_⟩
      rintro _ _ ⟨⟩
      cases (show answers = true from hf)
      refine ⟨?_, le_max_left _ _, ih.start⟩
      rcases max_choice (builtMs text) (readFloor true s.disk) with hm | hm
      · rw [startFloor, hm]
        exact dvd_builtMs text
      · rw [startFloor, hm]
        exact dvd_readFloor true s.disk
    | round r reach =>
      unfold Timed.step
      split
      · rename_i hstep
        cases hstep
      · rename_i hact
        cases hact
        split
        · exact ih
        · rename_i floor first hs
          split
          · exact ih
          · rename_i t ht
            split
            · rename_i hlt
              exact ih.round hf hs ht hlt
            · refine ⟨ih.kept, ?_⟩
              rintro _ _ ⟨⟩
              exact ih.running floor first hs

/-- In a run in which no write ends between its remove and its rename once a floor is kept, a start reads a floor
not below any whose write came to its end, and no round sets a time before one of them or the build's; after the
first set a step is within the largest one exactly if rounding to the second does not carry it past. -/
theorem time_floor_kept (h : Reached text s) :
    (∀ f ∈ s.finished, f ≤ startFloor text true s.disk) ∧
    ∀ floor first, s.running = some (floor, first) → ∀ r t, round floor first r = some t →
      builtMs text ≤ t ∧ (∀ f ∈ s.finished, f ≤ t) ∧
      (first = false → (|t - (r.clock + r.slept)| ≤ stepMs ↔ r.Steps)) := by
  refine ⟨h.inv.start, ?_⟩
  intro floor first hs r t ht
  obtain ⟨hd, hb, hall⟩ := h.inv.running floor first hs
  have hle := round_le hd ht
  exact ⟨hb.trans hle, fun f hf => (hall f hf).trans hle, fun hf => steps_iff hf ht⟩

def agreed (clock offset : Int) (slept : Nat) : Round := ⟨[⟨offset, 0⟩, ⟨offset, 0⟩], clock, slept, true⟩

def written : State :=
  step none (step none ⟨fun _ => none, none, []⟩ (.start true)) (.round (agreed 1800000000000 0 1000) .done)

theorem time_floor_kept_written :
    written.finished = [1800000001000] ∧ ∀ f ∈ written.finished, f ≤ startFloor none true written.disk := by
  have hstart : Reached none (step none ⟨fun _ => none, none, []⟩ (.start true)) := .step .new rfl
  have h : Reached none written := .step hstart fun h => by cases h
  exact ⟨by decide, (time_floor_kept h).1⟩

/-- Six hours later the next write stops between its remove and its rename: the next start knows no floor, and sets
the clock to a time before the one that was kept. And a second set whose sleep is 600 ms late steps by more than a day. -/
theorem floor_lost :
    let s := step none written (.round (agreed 1800021600000 0 1000) .rename)
    s.finished = [1800000001000] ∧ startFloor none true s.disk = 0 ∧
      round 0 true (agreed 1790000000000 0 1000) = some 1790000001000 ∧
      written.running = some (1800000001000, false) ∧
      round 1800000001000 false (agreed 1800021600000 stepMs 1600) = some (1800021602000 + stepMs) ∧
      stepMs < |1800021602000 + stepMs - (1800021600000 + 1600)| := by
  decide

end MindCore.Timed
