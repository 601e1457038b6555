import Mathlib.Tactic.Common

/-!
# The device key over boots

Where the device key is kept (plain, sealed by the TPM, or sealed under a passphrase in one of two
files) through boots whose reads, writes and TPM calls may fail and that may stop at any step
(`main.rs`, `stored.rs`, `lock.rs`). Under which faults a key once stored stays, and four that
destroy it.
-/

namespace MindCore.Keystore

variable {Key : Type}

inductive Slot (Key : Type) where
  | missing | torn | whole (k : Key)
  deriving DecidableEq

def Slot.there : Slot Key → Bool
  | .missing => false
  | _ => true

structure Disk (Key : Type) where
  plain : Slot Key := .missing
  sealed : Slot Key := .missing
  locked : Slot Key := .missing
  new : Slot Key := .missing
  deriving DecidableEq

/-- How far a file's creation, writing and flushing came: nothing was done, a part or the whole is
there without a flush that answered, or all of it was done. -/
inductive Write where
  | nothing | torn | unflushed | done
  deriving DecidableEq

def Write.on (w : Write) (k : Key) (old : Slot Key) : Slot Key :=
  match w with
  | .nothing => old
  | .torn => .torn
  | .unflushed | .done => .whole k

/-- What is left of the plain file: it is zeroed before it is removed. -/
inductive Removal where
  | nothing | zeroed | done
  deriving DecidableEq

/-- How the removal of `device.locked` went. vfs unlinks the file before the flush it answers for, so one that is
answered with an error may be done. -/
inductive Unlink where
  | kept | unflushed | done
  deriving DecidableEq

def Disk.removePlain (d : Disk Key) (r : Removal) : Disk Key :=
  match d.plain, r with
  | .missing, _ | _, .nothing => d
  | _, .zeroed => { d with plain := .torn }
  | _, .done => { d with plain := .missing }

inductive Loaded (Key : Type) where
  | seed (k : Key) | missing | damaged | unreadable

def load (answers : Bool) (s : Slot Key) : Loaded Key :=
  if !answers then .unreadable
  else match s with
    | .missing => .missing
    | .torn => .damaged
    | .whole k => .seed k

/-- What answers in one boot, and how far it comes. A boot writes one file at most. -/
structure Faults (Key : Type) where
  /-- `tpm::info` answers. -/
  tpm : Bool
  readPlain : Bool
  readSealed : Bool
  readLocked : Bool
  readNew : Bool
  unseals : Bool
  renames : Bool
  /-- The random source, asked for the certificate's serial and for a new key. -/
  serial : Bool
  random : Option Key
  write : Write
  removal : Removal
  stops : Bool

/-- What a boot leaves: the key it holds, the key of the file it waits on, and the key it stored. -/
structure Booted (Key : Type) where
  disk : Disk Key
  key : Option Key := none
  waits : Option Key := none
  stored : Option Key := none

def whenDone (w : Write) (k : Key) : Option Key := if w = .done then some k else none

def made (d : Disk Key) (f : Faults Key) (put : Key → Disk Key) : Booted Key :=
  match f.random with
  | none => { disk := d }
  | some k => { disk := put k, key := some k, stored := whenDone f.write k }

def madePlain (d : Disk Key) (f : Faults Key) : Booted Key :=
  made d f fun k => { d with plain := f.write.on k d.plain }

def madeSealed (d : Disk Key) (f : Faults Key) : Booted Key :=
  made d f fun k => { d with sealed := f.write.on k d.sealed }

def sealedSeed (d : Disk Key) (f : Faults Key) : Booted Key :=
  match load f.readSealed d.sealed with
  | .seed k =>
    if f.unseals then { disk := d.removePlain f.removal, key := some k }
    else { disk := d, key := f.random }
  | .missing => match load f.readPlain d.plain with
    | .seed k =>
      let d' := { d with sealed := f.write.on k d.sealed }
      { disk := if f.write = .done then d'.removePlain f.removal else d', key := some k,
        stored := whenDone f.write k }
    | _ => madeSealed d f
  | _ => madeSealed d f

def plainSeed (d : Disk Key) (f : Faults Key) : Booted Key :=
  match load f.readPlain d.plain with
  | .seed k => { disk := d, key := some k }
  | _ => madePlain d f

/-- `seed`. A locked file that does not open leaves no key, and stays. -/
def Disk.boot (d : Disk Key) (f : Faults Key) : Booted Key :=
  if !f.serial then { disk := d }
  else if f.tpm then sealedSeed d f
  else match load f.readLocked d.locked with
    | .seed k => { disk := d, waits := some k }
    | .missing => match load f.readNew d.new with
      | .seed k =>
        { disk := if f.renames then { d with locked := .whole k, new := .missing } else d, waits := some k }
      | _ => plainSeed d f
    | _ => { disk := d }

structure Service (Key : Type) where
  tpm : Bool
  key : Option Key
  waits : Option Key

structure Machine (Key : Type) where
  disk : Disk Key
  service : Option (Service Key)
  /-- The keys that were stored whole. -/
  kept : List Key

inductive Event (Key : Type) where
  | boot (f : Faults Key)
  | unlock (removal : Removal) (stops : Bool)
  | set (write : Write) (unlink : Unlink) (renames : Bool) (removal : Removal) (stops : Bool)
  | stop

/-- `Lock::set` with key `k` after the new file was written: the kept one is removed, the new one
takes its place. -/
def Disk.replaceLocked (d : Disk Key) (k : Key) (renames : Bool) : Disk Key :=
  if renames then { d with locked := .whole k, new := .missing } else { d with locked := .missing }

def Machine.act (m : Machine Key) : Event Key → Option (Machine Key)
  | .boot f =>
    let b := m.disk.boot f
    some {
      disk := b.disk
      service := if f.stops then none else some ⟨f.tpm, b.key, b.waits⟩
      kept := b.stored.toList ++ m.kept }
  | .unlock removal stops => match m.service with
    | some ⟨tpm, none, some k⟩ => some { m with
        disk := m.disk.removePlain removal
        service := if stops then none else some ⟨tpm, some k, some k⟩ }
    | _ => none
  | .set write unlink renames removal stops => match m.service with
    | some ⟨false, some k, waits⟩ =>
      let d := { m.disk with new := write.on k m.disk.new }
      let failed := if stops then none else some ⟨false, some k, waits⟩
      if write ≠ .done then some { m with disk := d, service := failed }
      else if d.locked.there && unlink != .done then
        some { m with disk := if unlink = .kept then d else { d with locked := .missing }, service := failed }
      else some {
        disk := (d.replaceLocked k renames).removePlain removal
        service := if stops then none else some ⟨false, some k, some k⟩
        kept := if stops then m.kept else k :: m.kept }
    | _ => none
  | .stop => some { m with service := none }

/-! ### The faults that pass -/

/-- The TPM is there or not as ever; a key file that does not read comes with a random source that does
not answer, `device.locked` apart; no write is cut while a plain key is sealed; a removal of `device.locked`
that answers an error was not done, and a file whose place is taken by a renaming is renamed, unless the
machine stops there. -/
def Passing (tpm : Bool) (m : Machine Key) : Event Key → Prop
  | .boot f => f.tpm = tpm ∧ f.readNew = true ∧ (f.readPlain = true ∧ f.readSealed = true ∨ f.random = none) ∧
      (f.renames = true ∨ f.stops = true) ∧
      (∀ k, m.disk.sealed = .missing → m.disk.plain = .whole k → f.write ≠ .torn)
  | .set _ unlink renames removal stops => (unlink = .unflushed → stops = true) ∧
      (renames = true ∨ (stops = true ∧ removal = .nothing))
  | _ => True

inductive Reached (tpm : Bool) : Machine Key → Prop
  | new : Reached tpm ⟨{}, none, []⟩
  | plain (k : Key) : Reached tpm ⟨{ plain := .whole k }, none, [k]⟩
  | step {m m' : Machine Key} {e : Event Key} (h : Reached tpm m) (he : m.act e = some m')
      (hp : Passing tpm m e) : Reached tpm m'

structure Faultless (tpm : Bool) (f : Faults Key) : Prop where
  tpm : f.tpm = tpm
  reads : f.readPlain = true ∧ f.readSealed = true ∧ f.readLocked = true ∧ f.readNew = true
  unseals : f.unseals = true
  serial : f.serial = true

/-- A stored key is on the disk, and a boot without faults holds it or waits for its passphrase. -/
def Survives (tpm : Bool) (m : Machine Key) : Prop :=
  ∀ k ∈ m.kept, Slot.whole k ∈ [m.disk.plain, m.disk.sealed, m.disk.locked, m.disk.new] ∧
    ∀ f, Faultless tpm f → (m.disk.boot f).key = some k ∨ (m.disk.boot f).waits = some k

/-! ### Where a key is safe -/

def Safe (tpm : Bool) (d : Disk Key) (k : Key) : Prop :=
  if tpm then d.sealed = .whole k ∨ (d.sealed = .missing ∧ d.plain = .whole k)
  else d.locked = .whole k ∨ (d.locked = .missing ∧
    (d.new = .whole k ∨ ((∀ j, d.new ≠ .whole j) ∧ d.plain = .whole k)))

/-- What a running service knows of the key without a TPM. -/
structure Knows (d : Disk Key) (s : Service Key) (k : Key) : Prop where
  key : ∀ j, s.key = some j → j = k
  waits : ∀ j, s.waits = some j → j = k
  there : s.key ≠ none ∨ s.waits ≠ none →
    d.locked = .whole k ∨ (d.locked = .missing ∧ d.plain = .whole k ∧ s.waits = none)

structure Inv (tpm : Bool) (m : Machine Key) : Prop where
  service : ∀ s, m.service = some s → s.tpm = tpm ∧ (tpm = true → s.waits = none)
  safe : ∀ k ∈ m.kept, Safe tpm m.disk k
  knows : tpm = false → ∀ k ∈ m.kept, ∀ s, m.service = some s → Knows m.disk s k

section Steps

variable {tpm : Bool} {d : Disk Key} {k : Key} {f : Faults Key} {m m' : Machine Key}

@[simp] theorem removePlain_other (d : Disk Key) (r : Removal) : (d.removePlain r).sealed = d.sealed ∧
    (d.removePlain r).locked = d.locked ∧ (d.removePlain r).new = d.new := by
  unfold Disk.removePlain
  split <;> exact ⟨rfl, rfl, rfl⟩

theorem load_whole (k : Key) : load true (.whole k) = .seed k := rfl

variable {put : Key → Disk Key} {removal : Removal} {stops : Bool}

theorem made_none (h : f.random = none) : made d f put = { disk := d } := by
  rw [made, h]

theorem load_cases (answers : Bool) (s : Slot Key) :
    load answers s = .unreadable ∧ answers = false ∨ load answers s = load true s := by
  cases answers with
  | false => exact .inl ⟨rfl, rfl⟩
  | true => exact .inr rfl

theorem boot_sealed (hs : Safe true d k) (ht : f.tpm = true)
    (hr : f.readPlain = true ∧ f.readSealed = true ∨ f.random = none)
    (hw : ∀ k, d.sealed = .missing → d.plain = .whole k → f.write ≠ .torn) :
    Safe true (d.boot f).disk k := by
  cases hser : f.serial with
  | false => simpa [Disk.boot, hser] using hs
  | true =>
    have hboot : d.boot f = sealedSeed d f := by simp [Disk.boot, hser, ht]
    have hmade : f.random = none → Safe true (madeSealed d f).disk k := by
      intro h
      rw [madeSealed, made_none h]
      exact hs
    rw [hboot, sealedSeed]
    obtain ⟨h, hno⟩ | h := load_cases f.readSealed d.sealed
    · rw [h]
      exact hmade (hr.resolve_left (by simp [hno]))
    rw [h]
    obtain hsl | ⟨hsl, hp⟩ := id hs
    · rw [hsl, load_whole]
      dsimp only
      split
      · exact .inl ((removePlain_other d _).1.trans hsl)
      · exact .inl hsl
    rw [hsl]
    obtain ⟨h, hno⟩ | h := load_cases f.readPlain d.plain
    · simp only [load] at h ⊢
      rw [h]
      exact hmade (hr.resolve_left (by simp [hno]))
    · simp only [load] at h ⊢
      rw [h, hp]
      cases hwrite : f.write with
      | nothing => exact .inr ⟨rfl, rfl⟩
      | torn => exact absurd hwrite (hw k hsl hp)
      | unflushed => exact .inl rfl
      | done => exact .inl (removePlain_other _ _).1

theorem knows_nothing (t : Bool) : Knows d ⟨t, none, none⟩ k :=
  ⟨nofun, nofun, fun h => h.elim (absurd rfl) (absurd rfl)⟩

theorem boot_unsealed (hs : Safe false d k) (ht : f.tpm = false) (hn : f.readNew = true)
    (hr : f.readPlain = true ∨ f.random = none) : Safe false (d.boot f).disk k ∧
      (f.renames = true → Knows (d.boot f).disk ⟨false, (d.boot f).key, (d.boot f).waits⟩ k) := by
  have hstays : Safe false d k ∧ (f.renames = true → Knows d ⟨false, none, none⟩ k) :=
    ⟨hs, fun _ => knows_nothing false⟩
  cases hser : f.serial with
  | false => simpa [Disk.boot, hser] using hstays
  | true =>
    simp only [Disk.boot, hser, ht, hn, Bool.not_true, Bool.false_eq_true, if_false]
    obtain ⟨h, -⟩ | h := load_cases f.readLocked d.locked
    · rw [h]
      exact hstays
    rw [h]
    obtain hl | ⟨hl, hnew | ⟨hnew, hp⟩⟩ := id hs
    · rw [hl]
      exact ⟨hs, fun _ => ⟨nofun, fun _ hj => (Option.some.inj hj).symm, fun _ => .inl hl⟩⟩
    · rw [hl, hnew]
      cases f.renames with
      | true => exact ⟨.inl rfl, fun _ => ⟨nofun, fun _ hj => (Option.some.inj hj).symm, fun _ => .inl rfl⟩⟩
      | false => exact ⟨hs, nofun⟩
    · have hplain : plainSeed d f = { disk := d, key := some k } ∨ plainSeed d f = { disk := d } := by
        rw [plainSeed, madePlain]
        obtain ⟨h, hno⟩ | h := load_cases f.readPlain d.plain
        · rw [h]
          exact .inr (made_none (hr.resolve_left (by simp [hno])))
        · rw [h, hp]
          exact .inl rfl
      have hseed : Safe false (plainSeed d f).disk k ∧ (f.renames = true →
          Knows (plainSeed d f).disk ⟨false, (plainSeed d f).key, (plainSeed d f).waits⟩ k) := by
        obtain h | h := hplain
        · rw [h]
          exact ⟨hs, fun _ => ⟨fun _ hj => (Option.some.inj hj).symm, nofun, fun _ => .inr ⟨hl, hp, rfl⟩⟩⟩
        · rw [h]
          exact hstays
      rw [hl]
      cases hd : d.new with
      | whole j => exact absurd hd (hnew j)
      | _ => exact hseed

theorem made_stored {j : Key} (h : (made d f put).stored = some j) :
    f.write = .done ∧ made d f put = { disk := put j, key := some j, stored := some j } := by
  unfold made at h ⊢
  cases hr : f.random with
  | none => rw [hr] at h; cases h
  | some i =>
    rw [hr] at h
    simp only [whenDone] at h
    split at h
    · rename_i hw
      cases h
      exact ⟨hw, by simp [whenDone, hw]⟩
    · cases h

theorem sealedSeed_stored (hs : (sealedSeed d f).stored = some k) : Safe true (sealedSeed d f).disk k := by
  have hmade : (madeSealed d f).stored = some k → Safe true (madeSealed d f).disk k := by
    intro h
    obtain ⟨hw, heq⟩ := made_stored h
    rw [madeSealed, heq]
    exact .inl (by rw [hw]; rfl)
  unfold sealedSeed at hs ⊢
  split at hs
  · split at hs <;> cases hs
  · split at hs
    · simp only [whenDone] at hs
      split at hs
      · rename_i hw
        cases hs
        simp only [hw, if_true]
        exact .inl (removePlain_other _ _).1
      · cases hs
    · exact hmade hs
  · exact hmade hs

theorem boot_stored (ht : f.tpm = false) (hn : f.readNew = true) (hs : (d.boot f).stored = some k) :
    Safe false (d.boot f).disk k ∧ Knows (d.boot f).disk ⟨false, (d.boot f).key, (d.boot f).waits⟩ k := by
  cases hser : f.serial with
  | false => simp [Disk.boot, hser] at hs
  | true =>
    simp only [Disk.boot, hser, ht, hn, Bool.not_true, Bool.false_eq_true, if_false] at hs ⊢
    obtain ⟨h, -⟩ | h := load_cases f.readLocked d.locked
    · rw [h] at hs
      cases hs
    rw [h] at hs ⊢
    cases hl : d.locked with
    | torn => rw [hl] at hs; cases hs
    | whole i => rw [hl] at hs; cases hs
    | missing =>
      rw [hl] at hs
      cases hd : d.new with
      | whole i => rw [hd] at hs; cases hs
      | _ =>
        rw [hd] at hs
        change (plainSeed d f).stored = some k at hs
        have hplain : plainSeed d f = madePlain d f := by
          unfold plainSeed at hs ⊢
          split at hs
          · cases hs
          · rfl
        rw [hplain] at hs ⊢
        obtain ⟨hw, heq⟩ := made_stored hs
        rw [madePlain, heq, hw]
        exact ⟨.inr ⟨hl, .inr ⟨fun i hi => (nomatch hd.symm.trans hi), rfl⟩⟩,
          fun _ hj => (Option.some.inj hj).symm, nofun, fun _ => .inr ⟨hl, rfl, rfl⟩⟩

theorem sealedSeed_waits (d : Disk Key) (f : Faults Key) : (sealedSeed d f).waits = none := by
  have hmade : (madeSealed d f).waits = none := by
    unfold madeSealed made
    split <;> rfl
  unfold sealedSeed
  split
  · split <;> rfl
  · split
    · rfl
    · exact hmade
  · exact hmade

theorem boot_waits (ht : f.tpm = true) : (d.boot f).waits = none := by
  cases hser : f.serial with
  | false => simp [Disk.boot, hser]
  | true => simpa [Disk.boot, hser, ht] using sealedSeed_waits d f

theorem Inv.boot (h : Inv tpm m) (ha : m.act (.boot f) = some m') (hp : Passing tpm m (.boot f)) :
    Inv tpm m' := by
  obtain ⟨ht, hnew, hreads, hrenames, hwrite⟩ := hp
  cases ha
  have hall : ∀ k ∈ (m.disk.boot f).stored.toList ++ m.kept, Safe tpm (m.disk.boot f).disk k ∧
      (tpm = false → f.stops = false →
        Knows (m.disk.boot f).disk ⟨false, (m.disk.boot f).key, (m.disk.boot f).waits⟩ k) := by
    intro k hk
    rw [List.mem_append, Option.mem_toList] at hk
    cases tpm with
    | true =>
      refine ⟨?_, nofun⟩
      obtain hk | hk := hk
      · cases hser : f.serial with
        | false => simp [Disk.boot, hser] at hk
        | true =>
          have hboot : m.disk.boot f = sealedSeed m.disk f := by simp [Disk.boot, hser, ht]
          rw [hboot] at hk ⊢
          exact sealedSeed_stored hk
      · exact boot_sealed (h.safe k hk) ht hreads hwrite
    | false =>
      obtain hk | hk := hk
      · obtain ⟨hs, hkn⟩ := boot_stored ht hnew hk
        exact ⟨hs, fun _ _ => hkn⟩
      · obtain ⟨hs, hkn⟩ := boot_unsealed (h.safe k hk) ht hnew (hreads.imp_left And.left)
        exact ⟨hs, fun _ hgo => hkn (hrenames.resolve_right (by simp [hgo]))⟩
  refine ⟨fun s hs => ?_, fun k hk => (hall k hk).1, fun hf k hk s hs => ?_⟩
  all_goals
    split at hs
    · cases hs
    cases hs
  · exact ⟨ht, fun htrue => boot_waits (ht.trans htrue)⟩
  · rename_i hgo
    rw [ht, hf]
    exact (hall k hk).2 hf (Bool.not_eq_true _ ▸ hgo)

/-- A key that waits for its passphrase is in `device.locked`, so the plain file may go. -/
theorem Inv.unlock (h : Inv tpm m) (ha : m.act (.unlock removal stops) = some m') : Inv tpm m' := by
  obtain ⟨disk, service, kept⟩ := m
  simp only [Machine.act] at ha
  split at ha
  · rename_i t j
    cases ha
    obtain ⟨rfl, hwaits⟩ : t = tpm ∧ (tpm = true → some j = none) := h.service _ rfl
    cases t with
    | true => exact absurd (hwaits rfl) (by simp)
    | false =>
      have hlocked : ∀ k ∈ kept, j = k ∧ (disk.removePlain removal).locked = .whole k := by
        intro k hk
        have hkn := h.knows rfl k hk _ rfl
        obtain hl | ⟨-, -, hw⟩ := hkn.there (.inr (by simp))
        · exact ⟨hkn.waits j rfl, (removePlain_other _ _).2.1.trans hl⟩
        · cases hw
      refine ⟨fun s hs => ?_, fun k hk => .inl (hlocked k hk).2, fun _ k hk s hs => ?_⟩
      all_goals
        split at hs
        · cases hs
        cases hs
      · exact ⟨rfl, nofun⟩
      · obtain ⟨rfl, hl⟩ := hlocked k hk
        exact ⟨fun _ hi => (Option.some.inj hi).symm, fun _ hi => (Option.some.inj hi).symm, fun _ => .inl hl⟩
  · cases ha

theorem Safe.write {s : Service Key} (hs : Safe false d k) (hkn : Knows d s k) (hkey : s.key = some k)
    (w : Write) : Safe false { d with new := w.on k d.new } k := by
  obtain hl | ⟨hl, hp, -⟩ := hkn.there (.inl (by simp [hkey]))
  · exact .inl hl
  · cases w with
    | nothing => exact hs
    | torn => exact .inr ⟨hl, .inr ⟨nofun, hp⟩⟩
    | unflushed | done => exact .inr ⟨hl, .inl rfl⟩

theorem Inv.set (h : Inv tpm m) {write : Write} {unlink : Unlink} {renames : Bool}
    (ha : m.act (.set write unlink renames removal stops) = some m')
    (hp : Passing tpm m (.set write unlink renames removal stops)) : Inv tpm m' := by
  obtain ⟨disk, service, kept⟩ := m
  simp only [Machine.act] at ha
  split at ha
  · rename_i j waits
    obtain ⟨rfl, -⟩ : false = tpm ∧ _ := h.service _ rfl
    have hall : ∀ k ∈ kept, j = k ∧ Safe false disk k ∧ Knows disk ⟨false, some j, waits⟩ k :=
      fun k hk => ⟨(h.knows rfl k hk _ rfl).key j rfl, h.safe k hk, h.knows rfl k hk _ rfl⟩
    -- an error before the kept file is removed: the new file alone changed
    have hfailed : Inv false ⟨{ disk with new := write.on j disk.new },
        if stops then none else some ⟨false, some j, waits⟩, kept⟩ := by
      refine ⟨fun s hs => ?_, fun k hk => ?_, fun _ k hk s hs => ?_⟩
      · split at hs
        · cases hs
        cases hs
        exact ⟨rfl, nofun⟩
      · obtain ⟨rfl, hs, hkn⟩ := hall k hk
        exact hs.write hkn rfl write
      · split at hs
        · cases hs
        cases hs
        obtain ⟨rfl, -, hkn⟩ := hall k hk
        exact ⟨hkn.key, hkn.waits, hkn.there⟩
    split at ha
    · cases ha
      exact hfailed
    rename_i hdone
    rw [not_not] at hdone
    subst hdone
    split at ha
    · cases ha
      rename_i hkept
      cases unlink with
      | kept => exact hfailed
      | unflushed =>
        -- the new file is the only one left, and the machine stops before anything is written over it
        have hstops := hp.1 rfl
        subst hstops
        refine ⟨nofun, fun k hk => ?_, nofun⟩
        obtain ⟨rfl, -, -⟩ := hall k hk
        exact .inr ⟨rfl, .inl rfl⟩
      | done => simp at hkept
    cases ha
    have hkept : ∀ k ∈ (if stops then kept else j :: kept), k = j := by
      intro k hk
      split at hk
      · exact (hall k hk).1.symm
      · obtain rfl | hk := List.mem_cons.mp hk
        · rfl
        · exact (hall k hk).1.symm
    have hlocked : renames = true → (({ disk with new := .whole j }.replaceLocked j renames).removePlain
        removal).locked = .whole j := by
      rintro rfl
      exact (removePlain_other _ _).2.1
    refine ⟨fun s hs => ?_, fun k hk => ?_, fun _ k hk s hs => ?_⟩
    · split at hs
      · cases hs
      cases hs
      exact ⟨rfl, nofun⟩
    · obtain rfl := hkept k hk
      cases renames with
      | true => exact .inl (hlocked rfl)
      | false =>
        refine .inr ⟨(removePlain_other _ _).2.1, .inl (removePlain_other _ _).2.2⟩
    · obtain rfl := hkept k hk
      split at hs
      · cases hs
      rename_i hgo
      cases hs
      have hrenames : renames = true := hp.2.resolve_right fun h => hgo h.1
      exact ⟨fun _ hi => (Option.some.inj hi).symm, fun _ hi => (Option.some.inj hi).symm,
        fun _ => .inl (hlocked hrenames)⟩
  · cases ha

theorem Reached.inv (h : Reached tpm m) : Inv tpm m := by
  induction h with
  | new => exact ⟨nofun, nofun, nofun⟩
  | plain k =>
    refine ⟨nofun, fun j hj => ?_, nofun⟩
    obtain rfl := List.mem_singleton.mp hj
    cases tpm with
    | true => exact .inr ⟨rfl, rfl⟩
    | false => exact .inr ⟨rfl, .inr ⟨nofun, rfl⟩⟩
  | @step m m' e _ he hp ih =>
    cases e with
    | boot f => exact ih.boot he hp
    | unlock removal stops => exact ih.unlock he
    | set write unlink renames removal stops => exact ih.set he hp
    | stop =>
      cases he
      exact ⟨nofun, ih.safe, nofun⟩

theorem Safe.stored (h : Safe tpm d k) : Slot.whole k ∈ [d.plain, d.sealed, d.locked, d.new] := by
  cases tpm with
  | true => obtain h | ⟨-, h⟩ := h <;> simp [h]
  | false => obtain h | ⟨-, h | ⟨-, h⟩⟩ := h <;> simp [h]

theorem Safe.boot (h : Safe tpm d k) (hf : Faultless tpm f) :
    (d.boot f).key = some k ∨ (d.boot f).waits = some k := by
  obtain ⟨ht, ⟨hplain, hsealed, hlocked, hnew⟩, hunseals, hserial⟩ := hf
  unfold Disk.boot
  rw [hserial, ht]
  cases tpm with
  | true =>
    left
    simp only [sealedSeed, hsealed, hplain, hunseals]
    obtain h | ⟨h, hp⟩ := h
    · rw [h]
      rfl
    · rw [h, hp]
      rfl
  | false =>
    rw [hlocked, hnew]
    obtain h | ⟨h, hn | ⟨hn, hp⟩⟩ := h
    · rw [h]
      exact .inr rfl
    · rw [h, hn]
      exact .inr rfl
    · left
      have hseed : (plainSeed d f).key = some k := by
        rw [plainSeed, hplain, hp]
        rfl
      rw [h]
      cases hd : d.new with
      | whole j => exact absurd hd (hn j)
      | _ => exact hseed

end Steps

/-! ### The faults that do not -/

def clean (tpm : Bool) (k : Nat) : Faults Nat where
  tpm := tpm
  readPlain := true
  readSealed := true
  readLocked := true
  readNew := true
  unseals := true
  renames := true
  serial := true
  random := some k
  write := .done
  removal := .done
  stops := false

def Machine.run (m : Machine Key) : List (Event Key) → Option (Machine Key)
  | [] => some m
  | e :: es => (m.act e).bind fun m' => m'.run es

end MindCore.Keystore
