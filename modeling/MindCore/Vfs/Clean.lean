import Mathlib.Tactic.Common

/-!
# The clean mark of a volume

`changing`, `mark_dirty`, `set_clean` and `flush` of a FAT16 or FAT32 volume, sector write by sector
write, over a device that carries what was written since its last flush to the medium in any order or
not at all. The power may be lost between any two steps, so what is asked holds in every state.
-/

namespace MindCore.Vfs.Clean

open Function

/-- The first sector of a FAT copy, which holds entry 1, the FSInfo sector, and every other one. -/
inductive Sector where
  | mark (copy : Nat)
  | info
  | other (lba : Nat)
  deriving DecidableEq, Repr

/-- A sector's bytes; of a first FAT sector the clean bit apart. -/
structure Data where
  clean : Bool
  rest : List UInt8
  deriving DecidableEq, Repr

/-- What a read gives, what the medium holds, and what was written since the device was flushed. -/
structure Disk where
  now : Sector → Data
  medium : Sector → Data
  written : Sector → List Data

def Disk.write (d : Disk) (s : Sector) (x : Data) : Disk where
  now := Function.update d.now s x
  medium := d.medium
  written := Function.update d.written s (x :: d.written s)

def Disk.flush (d : Disk) : Disk := ⟨d.now, d.now, fun _ => []⟩

def Disk.carry (d : Disk) (s : Sector) (x : Data) : Disk := { d with medium := Function.update d.medium s x }

/-- Where the volume is: between calls, or in `mark_dirty` or `set_clean(true)` before a write. -/
inductive At where
  | ready
  | marking (copy : Nat)
  | markInfo
  | markFlush
  | cleaning (copy : Nat)
  | cleanFlush
  deriving DecidableEq, Repr

/-- The volume: `fats` copies, `info` whether it has an FSInfo sector (FAT32). `ok` and `carried` are
the medium when a flush last returned `Ok`, or at the mount, and when one had carried every change;
`flushed` says that one returned `Ok` and no change was begun since. These three are not in the code. -/
structure Volume where
  fats : Nat
  info : Bool
  disk : Disk
  changed : Bool
  dirtied : Bool
  place : At
  ok : Sector → Data
  carried : Sector → Data
  flushed : Bool

/-- `changing` on a volume without a change. -/
def Volume.begin (v : Volume) : Volume := { v with changed := true, dirtied := true, place := .marking 0 }

/-- `mark_dirty` failed. -/
def Volume.fail (v : Volume) : Volume := { v with changed := false, place := .ready }

/-- `flush` after the clean mark failed: the volume is marked dirty again. -/
def Volume.unclean (v : Volume) : Volume := { v with changed := false }.begin

def Volume.write (v : Volume) (s : Sector) (x : Data) : Volume := { v with disk := v.disk.write s x }

def Volume.set (v : Volume) (copy : Nat) (clean : Bool) : Volume :=
  v.write (.mark copy) { v.disk.now (.mark copy) with clean }

inductive Step where
  /-- The first change of an operation since a flush. -/
  | change
  /-- A sector an operation writes, once the volume is marked. -/
  | write (s : Sector) (x : Data)
  /-- The next step of the call, or its failure. -/
  | go (ok : Bool) (x : Data)
  /-- A flush is asked for; the device's first flush succeeds or not. -/
  | flush (ok : Bool)
  /-- The device carries something written. -/
  | carry (s : Sector) (x : Data)
  /-- Another volume of the disk flushes it. -/
  | sync

def keepsMark (d : Disk) (s : Sector) (x : Data) : Bool :=
  match s with
  | .mark copy => x.clean == (d.now (.mark copy)).clean
  | _ => true

def step : Step → Volume → Option Volume
  | .change, v => if v.place = .ready ∧ v.changed = false then some { v.begin with flushed := false } else none
  | .write s x, v =>
    if v.place = .ready ∧ v.changed = true ∧ keepsMark v.disk s x = true then some (v.write s x) else none
  | .go ok x, v =>
    match v.place with
    | .ready => none
    | .marking copy =>
      if ok then
        let v := if copy < v.fats then v.set copy false else v
        some { v with place := if copy + 1 < v.fats then .marking (copy + 1) else .markInfo }
      else some v.fail
    | .markInfo =>
      if v.info then
        if ok then some { v.write .info x with place := .markFlush } else some v.fail
      else some { v with place := .markFlush }
    | .markFlush => if ok then some { v with disk := v.disk.flush, place := .ready } else some v.fail
    | .cleaning copy =>
      if ok then
        let v := if copy < v.fats then v.set copy true else v
        some { v with place := if copy + 1 < v.fats then .cleaning (copy + 1) else .cleanFlush }
      else some v.unclean
    | .cleanFlush =>
      if ok then
        some { v with
          disk := v.disk.flush, changed := false, dirtied := false, place := .ready, ok := v.disk.now
          flushed := true }
      else some v.unclean
  | .flush ok, v =>
    if v.place ≠ .ready then none
    else if v.dirtied = false then
      if ok then some { v with disk := v.disk.flush, changed := false, ok := v.disk.now, flushed := true }
      else some v
    else if ok then
      some { v with disk := v.disk.flush, changed := true, place := .cleaning 0, carried := v.disk.now }
    else some v
  | .carry s x, v => if x ∈ v.disk.written s then some { v with disk := v.disk.carry s x } else none
  | .sync, v => some { v with disk := v.disk.flush }

/-! ### What every state keeps -/

def Sector.marked : Sector → Bool
  | .mark _ => true
  | .info => true
  | .other _ => false

/-! ### The disk -/

/-- What was not written since the device was flushed is on the medium. -/
def Disk.Settled (d : Disk) : Prop := ∀ s, d.written s = [] → d.medium s = d.now s

theorem Disk.Settled.write {d : Disk} (h : d.Settled) (s : Sector) (x : Data) : (d.write s x).Settled := by
  intro s' hs'
  by_cases hs : s' = s
  · rw [hs] at hs'
    simp [Disk.write] at hs'
  · simp only [Disk.write, update_of_ne hs] at hs' ⊢
    exact h s' hs'

theorem Disk.Settled.flush {d : Disk} : d.flush.Settled := fun _ _ => rfl

variable {s : Sector} {x : Data}

theorem Disk.Settled.carry {d : Disk} (h : d.Settled) (hx : x ∈ d.written s) : (d.carry s x).Settled := by
  intro s' hs'
  by_cases hs : s' = s
  · rw [hs] at hs'
    rw [show (d.carry s x).written s = d.written s from rfl] at hs'
    rw [hs'] at hx
    cases hx
  · simp only [Disk.carry, update_of_ne hs]
    exact h s' hs'

/-- The unmarked sectors are on the medium as in `snapshot`, with nothing on its way. -/
def Disk.Still (d : Disk) (snapshot : Sector → Data) : Prop :=
  ∀ s, s.marked = false → d.written s = [] ∧ d.medium s = snapshot s

section Still
variable {d : Disk} {snapshot : Sector → Data}

theorem Disk.Still.write (h : d.Still snapshot) (hm : s.marked = true) (x : Data) :
    (d.write s x).Still snapshot := by
  intro s' hs'
  have hne : s' ≠ s := by
    rintro rfl
    rw [hm] at hs'
    cases hs'
  simp only [Disk.write, update_of_ne hne]
  exact h s' hs'

theorem Disk.Still.flush (h : d.Still snapshot) (hd : d.Settled) : d.flush.Still snapshot := by
  intro s hs
  obtain ⟨hw, hm⟩ := h s hs
  exact ⟨rfl, (hd s hw).symm.trans hm⟩

theorem Disk.Still.carry (h : d.Still snapshot) (hx : x ∈ d.written s) : (d.carry s x).Still snapshot := by
  intro s' hs'
  obtain ⟨hw, hm⟩ := h s' hs'
  have hne : s' ≠ s := by
    rintro rfl
    rw [hw] at hx
    cases hx
  refine ⟨hw, ?_⟩
  simp only [Disk.carry, update_of_ne hne]
  exact hm

end Still

/-- The first FAT is marked dirty, and nothing on its way says otherwise. -/
structure Disk.Dirty (d : Disk) : Prop where
  now : (d.now (.mark 0)).clean = false
  medium : (d.medium (.mark 0)).clean = false
  written : ∀ x ∈ d.written (.mark 0), x.clean = false

section Dirty
variable {d : Disk}

theorem Disk.Dirty.write (h : d.Dirty) (hk : keepsMark d s x = true) : (d.write s x).Dirty := by
  by_cases hs : Sector.mark 0 = s
  · rw [← hs] at hk ⊢
    have hx : x.clean = false := by
      rw [← h.now]
      simpa [keepsMark] using hk
    refine ⟨?_, h.medium, ?_⟩
    · simpa [Disk.write] using hx
    · intro y hy
      simp only [Disk.write, update_self, List.mem_cons] at hy
      rcases hy with rfl | hy
      · exact hx
      · exact h.written y hy
  · refine ⟨?_, h.medium, ?_⟩
    · simp only [Disk.write, update_of_ne hs]
      exact h.now
    · simp only [Disk.write, update_of_ne hs]
      exact h.written

theorem Disk.Dirty.of_flush (h : (d.now (.mark 0)).clean = false) : d.flush.Dirty :=
  ⟨h, h, by simp [Disk.flush]⟩

theorem Disk.Dirty.carry (h : d.Dirty) (hx : x ∈ d.written s) : (d.carry s x).Dirty := by
  refine ⟨h.now, ?_, h.written⟩
  by_cases hs : Sector.mark 0 = s
  · rw [← hs] at hx ⊢
    simpa [Disk.carry] using h.written x hx
  · simp only [Disk.carry, update_of_ne hs]
    exact h.medium

end Dirty

/-! ### The volume -/

/-- The medium is as a flush left it: when one last returned, or when one had carried every change. -/
def Quiet (v : Volume) : Prop := v.disk.Still v.ok ∨ v.disk.Still v.carried

def Holds (v : Volume) : At → Prop
  | .ready => if v.changed then v.disk.Dirty else Quiet v
  | .marking copy => Quiet v ∧ (0 < copy → (v.disk.now (.mark 0)).clean = false)
  | .markInfo => Quiet v ∧ (v.disk.now (.mark 0)).clean = false
  | .markFlush => Quiet v ∧ (v.disk.now (.mark 0)).clean = false
  | .cleaning copy => Quiet v ∧ (0 < copy → (v.disk.now (.mark 0)).clean = true)
  | .cleanFlush => Quiet v ∧ (v.disk.now (.mark 0)).clean = true

/-- While the volume is not to be cleaned the medium holds the clean mark. -/
def Fresh (v : Volume) : Prop :=
  v.place = .ready ∧ v.changed = false ∧ v.disk.written (.mark 0) = [] ∧
    (v.disk.medium (.mark 0)).clean = true

structure Inv (v : Volume) : Prop where
  copies : 0 < v.fats
  settled : v.disk.Settled
  holds : Holds v v.place
  fresh : v.dirtied = false → Fresh v
  flushed : v.flushed = true → v.dirtied = false

section Volume
variable {v v' : Volume} {s : Sector} {x : Data} {place : At}

theorem Quiet.write (h : Quiet v) (hm : s.marked = true) (x : Data) : Quiet (v.write s x) := by
  rcases h with h | h
  · exact .inl (h.write hm x)
  · exact .inr (h.write hm x)

theorem set_now (v : Volume) (copy : Nat) (clean : Bool) : ((v.set copy clean).disk.now (.mark 0)).clean =
      if copy = 0 then clean else (v.disk.now (.mark 0)).clean := by
  by_cases hc : copy = 0
  · rw [hc, if_pos rfl]
    simp [Volume.set, Volume.write, Disk.write]
  · have hne : Sector.mark 0 ≠ .mark copy := fun h => hc (Sector.mark.inj h).symm
    rw [if_neg hc]
    simp only [Volume.set, Volume.write, Disk.write, update_of_ne hne]

theorem set_now_of {copy : Nat} {clean : Bool} (h : 0 < copy → (v.disk.now (.mark 0)).clean = clean) :
    ((v.set copy clean).disk.now (.mark 0)).clean = clean := by
  rw [set_now]
  split
  · rfl
  · exact h (by omega)

theorem Inv.quiet (hi : Inv v) (hp : v.place ≠ .ready) : Quiet v := by
  have hh := hi.holds
  cases hpl : v.place with
  | ready => exact absurd hpl hp
  | marking copy => rw [hpl] at hh; exact hh.1
  | markInfo => rw [hpl] at hh; exact hh.1
  | markFlush => rw [hpl] at hh; exact hh.1
  | cleaning copy => rw [hpl] at hh; exact hh.1
  | cleanFlush => rw [hpl] at hh; exact hh.1

theorem Inv.dirtied (hi : Inv v) (hp : v.place ≠ .ready) : v.dirtied = true := by
  cases hd : v.dirtied with
  | true => rfl
  | false => exact absurd (hi.fresh hd).1 hp

/-- While the volume is dirtied no flush has returned since. -/
theorem Inv.unflushed (hi : Inv v) (hd : v.dirtied = true) : v.flushed = false := by
  cases hf : v.flushed with
  | false => rfl
  | true => exact absurd hd (by simp [hi.flushed hf])

theorem Inv.busy (hc : 0 < v.fats) (hs : v.disk.Settled) (hh : Holds v v.place) (hd : v.dirtied = true)
    (hf : v.flushed = false) : Inv v :=
  ⟨hc, hs, hh, by simp [hd], by simp [hf]⟩

theorem begin_inv (hc : 0 < v.fats) (hs : v.disk.Settled) (hq : Quiet v) (hf : v.flushed = false) : Inv v.begin :=
  Inv.busy hc hs ⟨hq, fun h => absurd h (Nat.lt_irrefl 0)⟩ rfl hf

theorem fail_inv (hi : Inv v) (hp : v.place ≠ .ready) : Inv v.fail :=
  Inv.busy (v := v.fail) hi.copies hi.settled (hi.quiet hp) (hi.dirtied hp) (hi.unflushed (hi.dirtied hp))

theorem unclean_inv (hi : Inv v) (hp : v.place ≠ .ready) : Inv v.unclean :=
  begin_inv (v := { v with changed := false }) hi.copies hi.settled (hi.quiet hp) (hi.unflushed (hi.dirtied hp))

theorem set_quiet (hq : Quiet v) (copy : Nat) (clean : Bool) : Quiet (v.set copy clean) := hq.write rfl _

theorem Quiet.carry (h : Quiet v) (hx : x ∈ v.disk.written s) :
    Quiet { v with disk := v.disk.carry s x } := by
  rcases h with h | h
  · exact .inl (h.carry hx)
  · exact .inr (h.carry hx)

theorem Quiet.sync (h : Quiet v) (hs : v.disk.Settled) : Quiet { v with disk := v.disk.flush } := by
  rcases h with h | h
  · exact .inl (h.flush hs)
  · exact .inr (h.flush hs)

theorem Holds.carry (h : Holds v place) (hx : x ∈ v.disk.written s) :
    Holds { v with disk := v.disk.carry s x } place := by
  cases place with
  | ready =>
    unfold Holds at h ⊢
    dsimp only at h ⊢
    split
    · rename_i hc
      rw [if_pos hc] at h
      exact h.carry hx
    · rename_i hc
      rw [if_neg hc] at h
      exact h.carry hx
  | marking | markInfo | markFlush | cleaning | cleanFlush => exact ⟨h.1.carry hx, h.2⟩

theorem Holds.sync (h : Holds v place) (hs : v.disk.Settled) :
    Holds { v with disk := v.disk.flush } place := by
  cases place with
  | ready =>
    unfold Holds at h ⊢
    dsimp only at h ⊢
    split
    · rename_i hc
      rw [if_pos hc] at h
      exact .of_flush h.now
    · rename_i hc
      rw [if_neg hc] at h
      exact h.sync hs
  | marking | markInfo | markFlush | cleaning | cleanFlush => exact ⟨h.1.sync hs, h.2⟩

theorem carry_inv (hi : Inv v) (hx : x ∈ v.disk.written s) : Inv { v with disk := v.disk.carry s x } := by
  refine ⟨hi.copies, hi.settled.carry hx, hi.holds.carry hx, ?_, hi.flushed⟩
  intro hd
  obtain ⟨hp, hc, hw, hm⟩ := hi.fresh hd
  refine ⟨hp, hc, hw, ?_⟩
  have hne : Sector.mark 0 ≠ s := by
    rintro rfl
    rw [hw] at hx
    cases hx
  simp only [Disk.carry, update_of_ne hne]
  exact hm

theorem sync_inv (hi : Inv v) : Inv { v with disk := v.disk.flush } := by
  refine ⟨hi.copies, .flush, hi.holds.sync hi.settled, ?_, hi.flushed⟩
  intro hd
  obtain ⟨hp, hc, hw, hm⟩ := hi.fresh hd
  refine ⟨hp, hc, rfl, ?_⟩
  rw [hi.settled _ hw] at hm
  exact hm

theorem set_inv (hi : Inv v) (hp : v.place ≠ .ready) (copy : Nat) (clean : Bool)
    (hh : Holds (v.set copy clean) place) : Inv { v.set copy clean with place } :=
  have hh' : Holds { v.set copy clean with place } place := by
    cases place <;> exact hh
  Inv.busy (v := { v.set copy clean with place }) hi.copies (hi.settled.write _ _) hh' (hi.dirtied hp)
    (hi.unflushed (hi.dirtied hp))

/-- A copy's mark is set, or the copies are past; then comes the next copy or what follows the last. -/
theorem copied_inv (hi : Inv v) (hne : v.place ≠ .ready) {copy : Nat} {clean : Bool} {next last : At} (hq : Quiet v)
    (hmark : 0 < copy → (v.disk.now (.mark 0)).clean = clean)
    (hto : ∀ w, Quiet w → (w.disk.now (.mark 0)).clean = clean → Holds w next ∧ Holds w last) :
    let w := if copy < v.fats then v.set copy clean else v
    Inv { w with place := if copy + 1 < w.fats then next else last } := by
  intro w
  by_cases hlt : copy < v.fats
  · simp only [w, if_pos hlt]
    have hto := hto _ (set_quiet hq copy clean) (set_now_of hmark)
    refine set_inv hi hne copy clean ?_
    split
    · exact hto.1
    · exact hto.2
  · -- past the copies only after the first
    have hpos : 0 < copy := by have := hi.copies; omega
    simp only [w, if_neg hlt, if_neg (show ¬copy + 1 < v.fats by omega)]
    exact Inv.busy hi.copies hi.settled (hto { v with place := last } hq (hmark hpos)).2 (hi.dirtied hne)
      (hi.unflushed (hi.dirtied hne))

theorem go_inv (hi : Inv v) {ok : Bool} (h : step (.go ok x) v = some v') : Inv v' := by
  have hh := hi.holds
  unfold step at h
  dsimp only at h
  cases hp : v.place with
  | ready =>
    rw [hp] at h
    cases h
  | marking copy =>
    have hne : v.place ≠ .ready := by simp [hp]
    rw [hp] at h hh
    cases ok with
    | false =>
      cases h
      exact fail_inv hi hne
    | true =>
      cases h
      exact copied_inv hi hne hh.1 hh.2 fun w hq hm => ⟨⟨hq, fun _ => hm⟩, hq, hm⟩
  | markInfo =>
    have hne : v.place ≠ .ready := by simp [hp]
    rw [hp] at h hh
    obtain ⟨hq, hfirst⟩ := hh
    dsimp only at h
    split at h
    · split at h
      · cases h
        refine Inv.busy hi.copies (hi.settled.write _ _) ?_ (hi.dirtied hne) (hi.unflushed (hi.dirtied hne))
        refine ⟨hq.write rfl x, ?_⟩
        exact hfirst
      · cases h
        exact fail_inv hi hne
    · cases h
      exact Inv.busy hi.copies hi.settled ⟨hq, hfirst⟩ (hi.dirtied hne) (hi.unflushed (hi.dirtied hne))
  | markFlush =>
    have hne : v.place ≠ .ready := by simp [hp]
    rw [hp] at h hh
    obtain ⟨hq, hfirst⟩ := hh
    dsimp only at h
    split at h
    · cases h
      refine Inv.busy hi.copies .flush ?_ (hi.dirtied hne) (hi.unflushed (hi.dirtied hne))
      unfold Holds
      dsimp only
      split
      · exact .of_flush hfirst
      · exact hq.sync hi.settled
    · cases h
      exact fail_inv hi hne
  | cleaning copy =>
    have hne : v.place ≠ .ready := by simp [hp]
    rw [hp] at h hh
    cases ok with
    | false =>
      cases h
      exact unclean_inv hi hne
    | true =>
      cases h
      exact copied_inv hi hne hh.1 hh.2 fun w hq hm => ⟨⟨hq, fun _ => hm⟩, hq, hm⟩
  | cleanFlush =>
    have hne : v.place ≠ .ready := by simp [hp]
    rw [hp] at h hh
    obtain ⟨-, hlast⟩ := hh
    dsimp only at h
    split at h
    · cases h
      refine ⟨hi.copies, .flush, ?_, fun _ => ⟨rfl, rfl, rfl, hlast⟩, fun _ => rfl⟩
      exact .inl fun s _ => ⟨rfl, rfl⟩
    · cases h
      exact unclean_inv hi hne

theorem step_inv (hi : Inv v) {st : Step} (h : step st v = some v') : Inv v' := by
  cases st with
  | change =>
    unfold step at h
    dsimp only at h
    split at h
    · rename_i hc
      cases h
      have hh := hi.holds
      rw [hc.1] at hh
      unfold Holds at hh
      rw [hc.2] at hh
      exact begin_inv (v := { v with flushed := false }) hi.copies hi.settled hh rfl
    · cases h
  | write s x =>
    unfold step at h
    dsimp only at h
    split at h
    · rename_i hc
      cases h
      have hh := hi.holds
      rw [hc.1] at hh
      unfold Holds at hh
      rw [hc.2.1, if_pos rfl] at hh
      have hd : v.dirtied = true := by
        cases hd : v.dirtied with
        | true => rfl
        | false =>
          have hf := (hi.fresh hd).2.1
          rw [hc.2.1] at hf
          cases hf
      refine Inv.busy hi.copies (hi.settled.write _ _) ?_ hd (hi.unflushed hd)
      rw [show (v.write s x).place = .ready from hc.1]
      unfold Holds
      rw [if_pos (show (v.write s x).changed = true from hc.2.1)]
      exact hh.write hc.2.2
    · cases h
  | go ok x => exact go_inv hi h
  | flush ok =>
    unfold step at h
    dsimp only at h
    split at h
    · cases h
    · rename_i hp
      rw [not_not] at hp
      split at h
      · rename_i hd
        cases ok with
        | false =>
          cases h
          exact hi
        | true =>
          cases h
          obtain ⟨-, -, hw, hm⟩ := hi.fresh hd
          have hclean : (v.disk.now (.mark 0)).clean = true := by
            rw [← hi.settled _ hw]
            exact hm
          refine ⟨hi.copies, .flush, ?_, fun _ => ⟨hp, rfl, rfl, hclean⟩, fun _ => hd⟩
          rw [hp]
          exact .inl fun s _ => ⟨rfl, rfl⟩
      · rename_i hd
        cases ok with
        | false =>
          cases h
          exact hi
        | true =>
          cases h
          have hd : v.dirtied = true := by simpa using hd
          refine Inv.busy hi.copies .flush ?_ hd (hi.unflushed hd)
          exact ⟨.inr fun s _ => ⟨rfl, rfl⟩, fun h => absurd h (Nat.lt_irrefl 0)⟩
  | carry s x =>
    unfold step at h
    dsimp only at h
    split at h
    · rename_i hx
      cases h
      exact carry_inv hi hx
    · cases h
  | sync =>
    cases h
    exact sync_inv hi

end Volume

/-! ### Runs -/

structure Mounted (v : Volume) : Prop where
  copies : 0 < v.fats
  written : v.disk.written = fun _ => []
  medium : v.disk.medium = v.disk.now
  clean : (v.disk.medium (.mark 0)).clean = true
  changed : v.changed = false
  dirtied : v.dirtied = false
  place : v.place = .ready
  ok : v.ok = v.disk.medium
  flushed : v.flushed = false

inductive Reached (start : Volume) : Volume → Prop
  | start : Reached start start
  | step {v v' : Volume} (st : Step) : Reached start v → step st v = some v' → Reached start v'

variable {v : Volume}

theorem Mounted.inv (h : Mounted v) : Inv v := by
  have hfresh : Fresh v := ⟨h.place, h.changed, by rw [h.written], h.clean⟩
  refine ⟨h.copies, fun s _ => by rw [h.medium], ?_, fun _ => hfresh, fun _ => h.dirtied⟩
  rw [h.place]
  unfold Holds
  rw [h.changed]
  refine .inl fun s _ => ⟨by rw [h.written], by rw [h.ok]⟩

theorem Reached.inv {start v : Volume} (hs : Inv start) (h : Reached start v) : Inv v := by
  induction h with
  | start => exact hs
  | step st _ ha ih => exact step_inv ih ha

/-- A clean mark on the medium means that every unmarked sector there is as a flush left it. -/
def CleanMeans (v : Volume) : Prop :=
  (v.disk.medium (.mark 0)).clean = true →
    (∀ s, s.marked = false → v.disk.medium s = v.ok s) ∨ ∀ s, s.marked = false → v.disk.medium s = v.carried s

theorem Quiet.means (h : Quiet v) : CleanMeans v := by
  intro _
  rcases h with h | h
  · exact .inl fun s hs => (h s hs).2
  · exact .inr fun s hs => (h s hs).2

theorem Inv.means (hi : Inv v) : CleanMeans v := by
  by_cases hp : v.place = .ready
  · have hh := hi.holds
    rw [hp] at hh
    unfold Holds at hh
    dsimp only at hh
    split at hh
    · intro hc
      rw [hh.medium] at hc
      cases hc
    · exact hh.means
  · exact (hi.quiet hp).means

/-- From a clean mount, whatever fails and whatever the device carries: the clean mark means a flushed
volume, and it is on the medium after a flush that returned `Ok` with no change since. -/
theorem clean_means_flushed {start v : Volume} (hs : Mounted start) (hr : Reached start v) :
    CleanMeans v ∧ (v.flushed = true → (v.disk.medium (.mark 0)).clean = true) := by
  have hi := hr.inv hs.inv
  exact ⟨hi.means, fun hf => (hi.fresh (hi.flushed hf)).2.2.2⟩

/-! ### A run, and the free count -/

def run (steps : List Step) (v : Volume) : Option Volume := steps.foldlM (fun v st => step st v) v

theorem reached_run {start v v' : Volume} (steps : List Step) (h : Reached start v)
    (hr : run steps v = some v') : Reached start v' := by
  induction steps generalizing v with
  | nil =>
    cases hr
    exact h
  | cons st rest ih =>
    unfold run at hr
    obtain ⟨t, ht, hr⟩ := Option.bind_eq_some_iff.mp hr
    exact ih (h.step st ht) hr

theorem run_getD {steps : List Step} (h : (run steps v).isSome = true) :
    run steps v = some ((run steps v).getD v) := by
  obtain ⟨v', hv'⟩ := Option.isSome_iff_exists.mp h
  rw [hv', Option.getD_some]

def blank : Sector → Data := fun _ => ⟨true, []⟩

def mounted : Volume where
  fats := 2
  info := true
  disk := ⟨blank, blank, fun _ => []⟩
  changed := false
  dirtied := false
  place := .ready
  ok := blank
  carried := blank
  flushed := false

theorem mounted_mounted : Mounted mounted := ⟨by decide, rfl, rfl, rfl, rfl, rfl, rfl, rfl, rfl⟩

def unknown : Data := ⟨true, [0xff]⟩

def written : Volume := (run [.change, .go true unknown, .go true unknown, .go true unknown,
  .go true unknown, .write (.other 9) ⟨true, [1]⟩, .flush true, .go true unknown, .go true unknown,
  .go true unknown] mounted).getD mounted

/-- The medium is marked clean with the sector on it. -/
theorem written_clean : CleanMeans written ∧ (written.disk.medium (.mark 0)).clean = true ∧
    written.disk.medium (.other 9) = ⟨true, [1]⟩ := by
  have hr : Reached mounted written := reached_run _ .start (run_getD (by decide))
  have hc := clean_means_flushed mounted_mounted hr
  exact ⟨hc.1, hc.2 (by decide), by decide⟩

def marking : Volume := (run [.change, .go true unknown, .go true unknown, .go true unknown,
  .carry .info unknown] mounted).getD mounted

/-- The device carries the FSInfo sector before the mark: the volume is clean on the medium and its free
count is not what it was. -/
theorem info_before_mark : Mounted mounted ∧ Reached mounted marking ∧
    (marking.disk.medium (.mark 0)).clean = true ∧ marking.disk.medium .info ≠ marking.ok .info ∧
    marking.disk.medium .info ≠ marking.carried .info :=
  ⟨mounted_mounted, reached_run _ .start (run_getD (by decide)), by decide, by decide, by decide⟩

end MindCore.Vfs.Clean
