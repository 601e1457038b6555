import MindCore.Update.Boots
import MindCore.Update.Sector

/-!
# A trial ends after its tries

Boots with no write but the bootloader's own. The tries left are counted on the disk: a boot that
loads the slot on trial has written a record with one try fewer, one past the newer one. A record past
the last sequence is refused at the next boot, so the count goes on only while there is room for it.
-/

namespace MindCore.Update

/-- One boot: what each slot loads as, and whether the write of the try and of the spent record
succeeds. -/
structure Boot where
  slots : Slot → Option Content
  trying : Bool
  spending : Bool

def Written.of (ok : Bool) : Written := if ok then .whole else .lost

def Boot.faults (b : Boot) : Faults := ⟨.of b.trying, false, .of b.spending, false⟩

def Boot.load (b : Boot) (records : Records) : Machine × Outcome :=
  loadSlots { records, slots := b.slots, running := none } b.faults

def after : List Boot → Records → Records
  | [], records => records
  | b :: bs, records => after bs (b.load records).1.records

def Outcome.loads (slot : Slot) : Outcome → Nat
  | .loaded s _ => if s = slot then 1 else 0
  | _ => 0

def loads (slot : Slot) : List Boot → Records → Nat
  | [], _ => 0
  | b :: bs, records => (b.load records).2.loads slot + loads slot bs (b.load records).1.records

/-- The records a boot writes, in order, each with whether the write succeeds. -/
def Boot.writes (b : Boot) (records : Records) : List (Bool × Placed) :=
  match (plan records).write with
  | none => []
  | some w =>
    (b.trying, w) :: match b.trying, (plan records).order.1 with
      | true, some slot =>
        if (loadSet b.slots slot (plan records).floor).isNone then [(b.spending, spent w)] else []
      | _, _ => []

def puts (records : Records) (ws : List (Bool × Placed)) : Records :=
  ws.foldl (fun records x => put records (.of x.1) x.2) records

/-! ### The writes of a boot are what changes the records -/

section Load
variable {floor k : Nat} {written : Option Placed} {f : Faults} {order : List (Option Slot)} {m : Machine}

theorem loadOrder_still (h : k = 0 → written = none) :
    (loadOrder floor written f k order m).1.records = m.records := by
  induction order generalizing k with
  | nil => rfl
  | cons o rest ih =>
    have hrest := ih (k := k + 1) fun he => by cases he
    cases o with
    | none => exact hrest
    | some slot =>
      rw [loadOrder]
      · split
        · rfl
        · exact hrest
      · intro w ht hw
        simp only [Bool.and_eq_true, beq_iff_eq] at ht
        rw [h ht.1] at hw
        cases hw

theorem loadOrder_loads_none {slot : Slot} (h : some slot ∉ order) :
    (loadOrder floor written f k order m).2.loads slot = 0 := by
  induction order generalizing k m with
  | nil => rfl
  | cons o rest ih =>
    rw [List.mem_cons, not_or] at h
    cases o with
    | none => exact ih h.2
    | some s =>
      have hne : s ≠ slot := fun he => h.1 (he ▸ rfl)
      unfold loadOrder
      dsimp only
      split
      · exact if_neg hne
      · split
        · split
          · rfl
          · exact ih h.2
        · exact ih h.2

end Load

@[simp] theorem ok_of (ok : Bool) : (Written.of ok).ok = ok := by cases ok <;> rfl

theorem load_records (b : Boot) (records : Records) :
    (b.load records).1.records = puts records (b.writes records) := by
  rw [Boot.load, loadSlots, Boot.writes]
  cases hw : (plan records).write with
  | none =>
    rw [loadOrder_still fun _ => rfl]
    rfl
  | some w =>
    have hcut : b.faults.tryCut = false := rfl
    have htry : b.faults.trying = .of b.trying := rfl
    simp only [hcut, htry, ok_of, Bool.false_eq_true, if_false]
    cases ht : b.trying with
    | false =>
      simp only [Bool.false_eq_true, if_false]
      split <;> exact loadOrder_still fun _ => rfl
    | true =>
      simp only [if_true]
      cases ho : (plan records).order.1 with
      | none =>
        rw [loadOrder, loadOrder_still fun he => by cases he]
        rfl
      | some slot =>
        dsimp only
        cases hl : loadSet b.slots slot (plan records).floor with
        | some c =>
          rw [loadOrder_loads (m := { records := _, slots := b.slots, running := none }) hl]
          rfl
        | none =>
          rw [loadOrder_spends (m := { records := _, slots := b.slots, running := none }) hl]
          have hspend : b.faults.spendCut = false := rfl
          simp only [hspend, Bool.false_eq_true, if_false]
          rw [loadOrder_still fun he => by cases he]
          rfl

/-! ### One boot of a trial -/

structure OnTrial (r : Record) (fallback : Slot) : Prop where
  unconfirmed : r.confirmed = false
  falls : r.fallback = some fallback
  apart : fallback ≠ r.slot

def Record.tried (r : Record) : Record := { r with sequence := r.sequence + 1, tries := r.tries - 1 }

section Follow
variable {k : Fin 2} {r : Record} {fallback : Slot}

theorem follow_trying (h : OnTrial r fallback) (ht : 0 < r.tries) : Plan.follow k r =
      { chosen := some k, order := (some r.slot, some fallback), trial := true,
        write := some (1 - k, r.tried), floor := r.floor } := by
  have hne : some fallback ≠ some r.slot := fun he => h.apart (Option.some.inj he)
  rw [Plan.follow]
  simp [h.unconfirmed, ht, h.falls, hne, Record.tried]

theorem follow_ended (h : OnTrial r fallback) (ht : r.tries = 0) : Plan.follow k r =
      { chosen := some k, order := (some fallback, none), trial := false, write := none,
        floor := r.floor } := by
  have hne : some fallback ≠ some r.slot := fun he => h.apart (Option.some.inj he)
  rw [Plan.follow]
  simp [h.unconfirmed, ht, h.falls, hne]

end Follow

section Step
variable {records : Records} {k : Fin 2} {r : Record} {fallback : Slot} {b : Boot}

section
variable (hacc : Accepted records) (hn : newest records = some (k, r)) (h : OnTrial r fallback)
include hacc hn h

theorem load_ended (ht : r.tries = 0) :
    (b.load records).1.records = records ∧ (b.load records).2.loads r.slot = 0 ∧
      ∀ c, loadSet b.slots fallback r.floor = some c → (b.load records).2 = .loaded fallback false := by
  have hp : plan records = _ := (plan_eq hacc hn).trans (follow_ended h ht)
  have hload : b.load records =
      loadOrder r.floor none b.faults 0 [some fallback, none] ⟨records, b.slots, none⟩ := by
    rw [Boot.load, loadSlots, hp]
  rw [hload]
  cases hl : loadSet b.slots fallback r.floor with
  | some c =>
    rw [loadOrder_loads (m := ⟨records, b.slots, none⟩) hl]
    exact ⟨rfl, if_neg h.apart, fun _ _ => rfl⟩
  | none =>
    refine ⟨loadOrder_still fun _ => rfl, loadOrder_loads_none ?_, by simp⟩
    simp [Ne.symm h.apart]

theorem load_trying (ht : 0 < r.tries) :
    (b.load records).2.loads r.slot = 0 ∨
      b.writes records = [(true, (1 - k, r.tried))] ∧ (b.load records).2.loads r.slot = 1 := by
  have hp : plan records = _ := (plan_eq hacc hn).trans (follow_trying h ht)
  have hcut : b.faults.tryCut = false := rfl
  have htry : b.faults.trying = .of b.trying := rfl
  cases hb : b.trying with
  | false =>
    refine .inl ?_
    rw [Boot.load, loadSlots, hp]
    simp only [hcut, htry, ok_of, hb, Bool.false_eq_true, if_false]
    exact loadOrder_loads_none (by simp [Ne.symm h.apart])
  | true =>
    rw [Boot.load, loadSlots, hp, Boot.writes, hp]
    simp only [hcut, htry, ok_of, hb, Bool.false_eq_true, if_false, if_true]
    cases hl : loadSet b.slots r.slot r.floor with
    | some c =>
      rw [loadOrder_loads (m := { records := _, slots := b.slots, running := none }) hl]
      exact .inr ⟨rfl, if_pos rfl⟩
    | none =>
      rw [loadOrder_spends (m := { records := _, slots := b.slots, running := none }) hl]
      exact .inl (loadOrder_loads_none (by simp [Ne.symm h.apart]))

/-- What a boot of a trial writes: the try, and the spent record after it if the slot does not load. -/
theorem writes_trying (ht : 0 < r.tries) :
    b.writes records = [(b.trying, (1 - k, r.tried))] ∨
      b.trying = true ∧ (loadSet b.slots r.slot r.floor).isNone = true ∧
        b.writes records = [(true, (1 - k, r.tried)), (b.spending, spent (1 - k, r.tried))] := by
  have hp : plan records = _ := (plan_eq hacc hn).trans (follow_trying h ht)
  rw [Boot.writes, hp]
  cases hb : b.trying with
  | false => exact .inl rfl
  | true =>
    dsimp only
    split
    · exact .inr ⟨rfl, ‹_›, rfl⟩
    · exact .inl rfl

end

end Step

/-! ### The count over the boots -/

/-- The newer record is the trial's with some tries left, each of which `n` loads have not used, and
there is room for the records they need. -/
structure Counting (r : Record) (n : Nat) (records : Records) (k : Fin 2) (r' : Record) : Prop where
  accepted : Accepted records
  newer : newest records = some (k, r')
  same : Same r r'
  left : n + r'.tries ≤ r.tries
  room : r'.tries = 0 ∨ r'.sequence + r'.tries < sequenceLast

theorem OnTrial.same {r r' : Record} {fallback : Slot} (h : OnTrial r fallback) (hs : Same r r') :
    OnTrial r' fallback :=
  ⟨hs.confirmed.trans h.unconfirmed, hs.fallback.trans h.falls, hs.slot ▸ h.apart⟩

theorem Accepted.put {records : Records} (h : Accepted records) (w : Written) (x : Placed) :
    Accepted (put records w x) := by
  intro k r hr
  have hwhole : ∀ o : Option Record, (∀ q, o = some q → q.sequence ≤ sequenceLast) →
      Function.update records x.1 o k = some r → r.sequence ≤ sequenceLast := by
    intro o ho hr
    by_cases hk : k = x.1
    · rw [hk, Function.update_self] at hr
      exact ho r hr
    · rw [Function.update_of_ne hk] at hr
      exact h k r hr
  have hif : ∀ q, (if x.2.sequence ≤ sequenceLast then some x.2 else none) = some q →
      q.sequence ≤ sequenceLast := by
    intro q hq
    split at hq
    · cases hq; assumption
    · cases hq
  cases w with
  | whole => exact hwhole _ hif hr
  | unsaid => exact hwhole _ hif hr
  | torn => exact hwhole none (fun _ hq => nomatch hq) hr
  | lost => exact h k r hr

section Count
variable {r r' : Record} {n : Nat} {records : Records} {k : Fin 2} {fallback : Slot} {b : Boot}

theorem put_of {x : Placed} (ok : Bool) (hn : newest records = some (k, r'))
    (hx : x.1 = 1 - k) (hq : x.2.sequence = r'.sequence + 1) (hl : x.2.sequence ≤ sequenceLast) :
    newest (put records (.of ok) x) = if ok then some x else some (k, r') := by
  obtain ⟨file, q⟩ := x
  subst hx
  cases ok with
  | true => exact newest_put_ok hn hq hl
  | false => exact hn

theorem Counting.step (h : Counting r n records k r') (ht : OnTrial r fallback) (b : Boot) :
    ∃ k2 r2, Counting r (n + (b.load records).2.loads r.slot) (b.load records).1.records k2 r2 := by
  have ht' := ht.same h.same
  rcases Nat.eq_zero_or_pos r'.tries with h0 | h0
  · obtain ⟨hrec, hzero, -⟩ := load_ended (b := b) h.accepted h.newer ht' h0
    rw [h.same.slot] at hzero
    rw [hrec, hzero]
    exact ⟨k, r', h⟩
  · have hroom : r'.sequence + r'.tries < sequenceLast := h.room.resolve_left (by omega)
    have htried : r'.tried.sequence = r'.sequence + 1 := rfl
    have htries : r'.tried.tries = r'.tries - 1 := rfl
    have hsame : Same r r'.tried := ⟨h.same.slot, h.same.fallback, h.same.confirmed, h.same.floor⟩
    have hput := put_of (x := (1 - k, r'.tried)) b.trying h.newer rfl rfl
      (show r'.sequence + 1 ≤ sequenceLast by omega)
    have hacc := h.accepted.put (.of b.trying) (1 - k, r'.tried)
    have hleft := h.left
    rw [load_records]
    rcases load_trying (b := b) h.accepted h.newer ht' h0 with hzero | ⟨hw, hone⟩
    · rw [h.same.slot] at hzero
      rw [hzero]
      rcases writes_trying (b := b) h.accepted h.newer ht' h0 with hw | ⟨hb, -, hw⟩
      · rw [hw]
        cases hb : b.trying with
        | false => exact ⟨k, r', h⟩
        | true =>
          rw [hb] at hput hacc
          refine ⟨1 - k, r'.tried, hacc, hput, hsame, by omega, .inr ?_⟩
          omega
      · rw [hw]
        rw [hb] at hput hacc
        have hspent := put_of (x := spent (1 - k, r'.tried)) b.spending hput rfl rfl
          (show r'.sequence + 1 + 1 ≤ sequenceLast by omega)
        have hacc' := hacc.put (.of b.spending) (spent (1 - k, r'.tried))
        cases hs : b.spending with
        | false =>
          refine ⟨1 - k, r'.tried, hacc, hput, hsame, by omega, .inr ?_⟩
          omega
        | true =>
          rw [hs] at hspent hacc'
          exact ⟨_, _, hacc', hspent, ⟨h.same.slot, h.same.fallback, h.same.confirmed, h.same.floor⟩,
            by dsimp only [spent]; omega, .inl rfl⟩
    · rw [h.same.slot] at hone
      have hb : b.trying = true := by
        rcases writes_trying (b := b) h.accepted h.newer ht' h0 with hw' | ⟨hb, -, -⟩
        · rw [hw] at hw'
          simpa using hw'.symm
        · exact hb
      rw [hone, hw]
      rw [hb] at hput hacc
      refine ⟨1 - k, r'.tried, hacc, hput, hsame, by omega, .inr ?_⟩
      omega

theorem Counting.run (h : Counting r n records k r') (ht : OnTrial r fallback) (bs : List Boot) :
    ∃ k2 r2, Counting r (n + loads r.slot bs records) (after bs records) k2 r2 := by
  induction bs generalizing n records k r' with
  | nil => exact ⟨k, r', h⟩
  | cons b bs ih =>
    obtain ⟨k2, r2, h2⟩ := h.step ht b
    obtain ⟨k3, r3, h3⟩ := ih h2
    rw [loads, ← Nat.add_assoc]
    exact ⟨k3, r3, h3⟩

end Count

/-! ### The end of a trial -/

/-- In every sequence of boots the slot on trial is loaded at most as often as it has tries, and from
then on the fallback is the first that is tried; every record written on the way is one that is read
back and followed. -/
structure TrialEnds (records : Records) (r : Record) (fallback : Slot) : Prop where
  bounded : ∀ bs, loads r.slot bs records ≤ r.tries
  first : ∀ bs, loads r.slot bs records = r.tries → (plan (after bs records)).order.1 = some fallback
  later : ∀ bs (b : Boot) c, loads r.slot bs records = r.tries → loadSet b.slots fallback r.floor = some c →
    (b.load (after bs records)).2 = .loaded fallback false
  written : ∀ bs (b : Boot) pre ok x post, b.writes (after bs records) = pre ++ (ok, x) :: post →
    Record.parse x.2.encode = some x.2 ∧
      (ok = true → plan (put (puts (after bs records) pre) .whole x) = Plan.follow x.1 x.2)

section Ends
variable {records : Records} {k : Fin 2} {r r' : Record} {n : Nat} {fallback : Slot}

theorem parse_same {x : Record} (hf : r.Fits) (hs : Same r x) (ht : x.tries ≤ r.tries)
    (hq : x.sequence ≤ sequenceLast) : Record.parse x.encode = some x := by
  have hlast : sequenceLast = 2 ^ 64 - 1 - 2 := rfl
  have htries := hf.tries
  have hfloor := hf.floor
  rw [parse_encode ⟨by omega, by omega, by rw [hs.floor]; exact hfloor⟩, if_pos hq]

theorem Counting.written (h : Counting r n records k r') (ht : OnTrial r fallback) (hf : r.Fits)
    {b : Boot} {pre post : List (Bool × Placed)} {ok : Bool} {x : Placed}
    (hw : b.writes records = pre ++ (ok, x) :: post) :
    Record.parse x.2.encode = some x.2 ∧
      (ok = true → plan (put (puts records pre) .whole x) = Plan.follow x.1 x.2) := by
  have ht' := ht.same h.same
  rcases Nat.eq_zero_or_pos r'.tries with h0 | h0
  · have hp : plan records = _ := (plan_eq h.accepted h.newer).trans (follow_ended ht' h0)
    rw [Boot.writes, hp] at hw
    simp at hw
  · have hroom : r'.sequence + r'.tries < sequenceLast := h.room.resolve_left (by omega)
    have hleft := h.left
    have hsame : Same r r'.tried := ⟨h.same.slot, h.same.fallback, h.same.confirmed, h.same.floor⟩
    have hput := newest_put_ok h.newer (show r'.tried.sequence = r'.sequence + 1 from rfl)
      (show r'.sequence + 1 ≤ sequenceLast by omega)
    have hacc := h.accepted.put .whole (1 - k, r'.tried)
    have hfirst : Record.parse r'.tried.encode = some r'.tried ∧
        plan (put records .whole (1 - k, r'.tried)) = Plan.follow (1 - k) r'.tried :=
      ⟨parse_same hf hsame (show r'.tries - 1 ≤ r.tries by omega)
        (show r'.sequence + 1 ≤ sequenceLast by omega), plan_eq hacc hput⟩
    rcases writes_trying (b := b) h.accepted h.newer ht' h0 with hone | ⟨-, -, htwo⟩
    · rw [hone] at hw
      cases pre with
      | nil =>
        cases hw
        exact ⟨hfirst.1, fun _ => hfirst.2⟩
      | cons p pre => simp at hw
    · rw [htwo] at hw
      cases pre with
      | nil =>
        cases hw
        exact ⟨hfirst.1, fun _ => hfirst.2⟩
      | cons p pre =>
        cases pre with
        | nil =>
          cases hw
          have hspent := newest_put_ok hput
            (show (spent (1 - k, r'.tried)).2.sequence = r'.tried.sequence + 1 from rfl)
            (show r'.sequence + 1 + 1 ≤ sequenceLast by omega)
          refine ⟨parse_same hf ⟨h.same.slot, h.same.fallback, h.same.confirmed, h.same.floor⟩
            (Nat.zero_le _) (show r'.sequence + 1 + 1 ≤ sequenceLast by omega), ?_⟩
          intro _
          exact plan_eq (hacc.put .whole _) hspent
        | cons q pre => simp at hw

def loadingBoot (r : Record) : Boot where
  slots s := if s = r.slot then some { manifest := versionText r.floor, channel := none } else none
  trying := true
  spending := true

def failingBoot : Boot where
  slots _ := none
  trying := true
  spending := true

theorem loadingBoot_writes (hacc : Accepted records) (hn : newest records = some (k, r'))
    (ht : OnTrial r' fallback) (h0 : 0 < r'.tries) (hs : Same r r') (hf : r.Fits) :
    (loadingBoot r).writes records = [(true, (1 - k, r'.tried))] := by
  have hload : loadSet (loadingBoot r).slots r'.slot r'.floor =
      some { manifest := versionText r.floor, channel := none } := by
    refine loadSet_some.mpr ⟨if_pos hs.slot, ?_⟩
    rw [hs.floor]
    exact Nat.le_of_eq (version_versionText hf.floor).symm
  rcases writes_trying (b := loadingBoot r) hacc hn ht h0 with hw | ⟨-, hnone, -⟩
  · exact hw
  · rw [hload] at hnone
    cases hnone

theorem counted_down (hf : r.Fits) (ht : OnTrial r fallback) (j : Nat) (hacc : Accepted records)
    (hn : newest records = some (k, r')) (hs : Same r r') (hj : j ≤ r'.tries)
    (hq : r'.sequence + j ≤ sequenceLast) :
    Accepted (after (List.replicate j (loadingBoot r)) records) ∧
      ∃ k' x, newest (after (List.replicate j (loadingBoot r)) records) = some (k', x) ∧ Same r x ∧
        x.sequence = r'.sequence + j ∧ x.tries = r'.tries - j := by
  induction j generalizing records k r' with
  | zero => exact ⟨hacc, k, r', hn, hs, rfl, rfl⟩
  | succ j ih =>
    have hw := loadingBoot_writes hacc hn (ht.same hs) (show 0 < r'.tries by omega) hs hf
    have hrec : ((loadingBoot r).load records).1.records =
        put records .whole (1 - k, r'.tried) := by
      rw [load_records, hw]
      rfl
    have hput := newest_put_ok hn (show r'.tried.sequence = r'.sequence + 1 from rfl)
      (show r'.sequence + 1 ≤ sequenceLast by omega)
    have hnext := ih (hacc.put .whole (1 - k, r'.tried)) hput
      ⟨hs.slot, hs.fallback, hs.confirmed, hs.floor⟩ (show j ≤ r'.tries - 1 by omega)
      (show r'.sequence + 1 + j ≤ sequenceLast by omega)
    rw [List.replicate_succ, after, hrec]
    obtain ⟨hacc', k', x, hx, hsx, hxq, hxt⟩ := hnext
    have htried : r'.tried.sequence = r'.sequence + 1 ∧ r'.tried.tries = r'.tries - 1 := ⟨rfl, rfl⟩
    exact ⟨hacc', k', x, hx, hsx, by omega, by omega⟩

theorem TrialEnds.room (h : TrialEnds records r fallback) (hacc : Accepted records)
    (hn : newest records = some (k, r)) (ht : OnTrial r fallback) (hf : r.Fits) (h0 : 0 < r.tries) :
    r.sequence + r.tries < sequenceLast := by
  by_contra hlast
  have hle : r.sequence ≤ sequenceLast := hacc k r (newest_at hn)
  by_cases hcase : r.sequence + r.tries = sequenceLast
  · -- the slot fails to load at its last try: the spent record is past the last sequence
    obtain ⟨hacc', k', x, hx, hsx, hxq, hxt⟩ := counted_down hf ht (r.tries - 1) hacc hn
      ⟨rfl, rfl, rfl, rfl⟩ (by omega) (by omega)
    have hw : failingBoot.writes (after (List.replicate (r.tries - 1) (loadingBoot r)) records) =
        [(true, (1 - k', x.tried)), (true, spent (1 - k', x.tried))] := by
      have hp : plan _ = _ := (plan_eq hacc' hx).trans (follow_trying (ht.same hsx) (by omega))
      rw [Boot.writes, hp]
      rfl
    have hparse := (h.written _ failingBoot [(true, (1 - k', x.tried))] true _ [] hw).1
    have hseq := (parse_some hparse).2
    have hval : (spent (1 - k', x.tried)).2.sequence = x.sequence + 1 + 1 := rfl
    omega
  · obtain ⟨hacc', k', x, hx, hsx, hxq, hxt⟩ := counted_down hf ht (sequenceLast - r.sequence) hacc hn
      ⟨rfl, rfl, rfl, rfl⟩ (by omega) (by omega)
    have hw := loadingBoot_writes hacc' hx (ht.same hsx) (by omega) hsx hf
    have hparse := (h.written _ (loadingBoot r) [] true _ [] hw).1
    have hseq := (parse_some hparse).2
    have hval : ((1 - k', x.tried) : Placed).2.sequence = x.sequence + 1 := rfl
    omega

end Ends

/-- A trial ends after its tries exactly when it has none, or there is room below the last sequence
for one record a try and one more. -/
theorem trial_ends_iff {records : Records} {k : Fin 2} {r : Record} {fallback : Slot}
    (hparsed : ∀ k x, records k = some x → ∃ data, Record.parse data = some x)
    (hn : newest records = some (k, r)) (ht : OnTrial r fallback) :
    TrialEnds records r fallback ↔ r.tries = 0 ∨ r.sequence + r.tries < sequenceLast := by
  have hacc : Accepted records := by
    intro k x hx
    obtain ⟨data, hd⟩ := hparsed k x hx
    exact (parse_some hd).2
  have hf : r.Fits := by
    obtain ⟨data, hd⟩ := hparsed k r (newest_at hn)
    exact (parse_some hd).1
  constructor
  · intro h
    rcases Nat.eq_zero_or_pos r.tries with h0 | h0
    · exact .inl h0
    · exact .inr (h.room hacc hn ht hf h0)
  · intro hroom
    have hstart : Counting r 0 records k r := ⟨hacc, hn, ⟨rfl, rfl, rfl, rfl⟩, by omega, hroom⟩
    have hended : ∀ bs, loads r.slot bs records = r.tries → ∃ k' r', Accepted (after bs records) ∧
        newest (after bs records) = some (k', r') ∧ Same r r' ∧ r'.tries = 0 := by
      intro bs hall
      obtain ⟨k', r', h⟩ := hstart.run ht bs
      have hleft := h.left
      exact ⟨k', r', h.accepted, h.newer, h.same, by omega⟩
    refine ⟨?_, ?_, ?_, ?_⟩
    · intro bs
      obtain ⟨k', r', h⟩ := hstart.run ht bs
      have hleft := h.left
      omega
    · intro bs hall
      obtain ⟨k', r', hacc', hn', hs', h0⟩ := hended bs hall
      rw [plan_eq hacc' hn', follow_ended (ht.same hs') h0]
    · intro bs b c hall hc
      obtain ⟨k', r', hacc', hn', hs', h0⟩ := hended bs hall
      rw [← hs'.floor] at hc
      exact (load_ended hacc' hn' (ht.same hs') h0).2.2 c hc
    · intro bs b pre ok x post hw
      obtain ⟨k', r', h⟩ := hstart.run ht bs
      exact h.written ht hf hw

def earlyTrial : Record where
  sequence := 1
  slot := .B
  fallback := some .A
  tries := 2
  confirmed := false
  floor := 0

def lastTrial : Record := { earlyTrial with sequence := sequenceLast, tries := 1 }

def only (r : Record) : Records := fun k => if k.val = 0 then some r else none

theorem only_parsed {r : Record} (h : Record.parse r.encode = some r) :
    ∀ k x, only r k = some x → ∃ data, Record.parse data = some x := by
  intro k x hx
  unfold only at hx
  split at hx
  · cases hx
    exact ⟨_, h⟩
  · cases hx

theorem early_trial_ends : TrialEnds (only earlyTrial) earlyTrial .A :=
  (trial_ends_iff (k := 0) (only_parsed (by
    rw [parse_encode ⟨by decide, by decide, by decide⟩]
    decide)) rfl ⟨rfl, rfl, by decide⟩).mpr (.inr (by decide))

/-- At the last sequence the record of the try is refused at the next boot: the slot with one try is
loaded at every boot. And when it does not load, both records are lost, and with them the floor. -/
theorem last_trial_repeats : Record.parse lastTrial.encode = some lastTrial ∧
      loads .B (List.replicate 3 (loadingBoot lastTrial)) (only lastTrial) = 3 ∧
      newest (after [failingBoot] (only lastTrial)) = none := by
  refine ⟨?_, by decide, by decide⟩
  rw [parse_encode ⟨by decide, by decide, by decide⟩]
  decide

end MindCore.Update
