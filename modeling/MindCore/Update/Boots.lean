import MindCore.Update.Slots

/-!
# Every boot loads a slot that verifies

The newer record always names a way home: the slot it confirms, or the other slot while it is on
trial. What the bootloader writes keeps that record's slots and floor, what the updater writes goes to
the file the newer record is not in, and the home slot is never written: it is the running one, or the
running slot is on trial and may not stage.
-/

namespace MindCore.Update

@[simp] theorem other_ne (s : Slot) : other s ≠ s := by cases s <;> decide

@[simp] theorem other_other (s : Slot) : other (other s) = s := by cases s <;> rfl

/-! ### Writes -/

section Writes
variable {records : Records} {k : Fin 2} {r r' : Record}

theorem newest_at (hn : newest records = some (k, r)) : records k = some r := by
  unfold newest at hn
  split at hn
  · split at hn <;> cases hn <;> assumption
  · cases hn; assumption
  · cases hn; assumption
  · cases hn

theorem newest_erase (hn : newest records = some (k, r)) :
    newest (Function.update records (1 - k) none) = some (k, r) := by
  have hk := newest_at hn
  obtain rfl | rfl : k = 0 ∨ k = 1 := by omega
  · simp [newest, hk]
  · simp [newest, hk]

theorem newest_insert (hn : newest records = some (k, r)) (hq : r'.sequence = r.sequence + 1) :
    newest (Function.update records (1 - k) (some r')) = some (1 - k, r') := by
  have hk := newest_at hn
  have hlt : r.sequence < r'.sequence := by omega
  have hle : ¬ r'.sequence < r.sequence := by omega
  obtain rfl | rfl : k = 0 ∨ k = 1 := by omega
  · simp [newest, hk, hlt]
  · simp [newest, hk, hle]

theorem newest_put (w : Written) (hn : newest records = some (k, r)) (hq : r'.sequence = r.sequence + 1) :
    newest (put records w (1 - k, r')) = some (1 - k, r') ∨
      newest (put records w (1 - k, r')) = some (k, r) := by
  have hwritten : newest (Function.update records (1 - k)
        (if r'.sequence ≤ sequenceLast then some r' else none)) = some (1 - k, r') ∨
      newest (Function.update records (1 - k)
        (if r'.sequence ≤ sequenceLast then some r' else none)) = some (k, r) := by
    split
    · exact .inl (newest_insert hn hq)
    · exact .inr (newest_erase hn)
  cases w with
  | whole => exact hwritten
  | unsaid => exact hwritten
  | torn => exact .inr (newest_erase hn)
  | lost => exact .inr hn

theorem newest_put_ok (hn : newest records = some (k, r)) (hq : r'.sequence = r.sequence + 1)
    (hl : r'.sequence ≤ sequenceLast) :
    newest (put records .whole (1 - k, r')) = some (1 - k, r') := by
  rw [put, if_pos hl]
  exact newest_insert hn hq

variable {x : Placed} {running : Slot}

theorem next_eq {record : Record} (hn : newest records = some (k, r)) (h : next records record = some x) :
    r.sequence + 1 ≤ sequenceLast - 2 ∧ x = (1 - k,
      { record with sequence := r.sequence + 1, floor := max r.floor record.floor }) := by
  simp only [next, hn, floor] at h
  split at h
  · exact ⟨‹_›, (Option.some.inj h).symm⟩
  · cases h

theorem raise_eq {minimum version : Nat}
    (hn : newest records = some (k, r)) (h : raise records running minimum version = some x) :
    r.slot = running ∧ r.confirmed = true ∧ r.floor < minimum ∧ minimum ≤ version ∧ x = (1 - k,
      { r with sequence := r.sequence + 1, floor := max r.floor minimum }) := by
  simp only [raise, hn] at h
  split at h
  · rename_i hcond
    obtain ⟨hmin, ⟨hslot, hconf⟩, hver⟩ := hcond
    simp only [floor, hn] at hmin
    exact ⟨hslot, hconf, hmin, hver, (next_eq hn h).2⟩
  · cases h

theorem confirm_eq (hn : newest records = some (k, r)) (h : confirm records running = some x) :
    r.slot = running ∧ r.confirmed = false ∧ x = (1 - k,
      { slot := running, fallback := r.fallback, tries := 0, confirmed := true,
        sequence := r.sequence + 1, floor := max r.floor 0 }) := by
  simp only [confirm, hn] at h
  split at h
  · cases h
  · rename_i hcond
    rw [not_or, not_not, Bool.not_eq_true] at hcond
    exact ⟨hcond.1, hcond.2, (next_eq hn h).2⟩

end Writes

/-! ### The way home -/

def Record.home (r : Record) : Slot := if r.confirmed then r.slot else other r.slot

def Stands (slots : Slot → Option Content) (floor : Nat) (slot : Slot) : Prop :=
  ∃ c, slots slot = some c ∧ floor ≤ c.version

/-- The running slot is the newer record's home, or its slot on trial. -/
def Placing (r : Record) (u : Running) : Prop :=
  u.slot = r.home ∨ u.trial = true ∧ u.slot = r.slot ∧ r.confirmed = false

structure Safe (slots : Slot → Option Content) (running : Option Running) (r : Record) : Prop where
  fallback : r.confirmed = false → r.fallback = some (other r.slot)
  home : Stands slots r.floor r.home
  placed : ∀ u, running = some u → Placing r u ∧ Stands slots r.floor u.slot

/-- In no slot's manifest does the updater read a higher version than the bootloader. -/
def Alike (slots : Slot → Option Content) : Prop := ∀ s c, slots s = some c → c.manifestVersion ≤ c.version

def Inv (m : Machine) : Prop := ∃ k r, newest m.records = some (k, r) ∧ Safe m.slots m.running r

variable {m : Machine} {k : Fin 2}

theorem Inv.put {r r' : Record} (w : Written)
    (hn : newest m.records = some (k, r)) (hq : r'.sequence = r.sequence + 1)
    (hs : Safe m.slots m.running r) (hs' : Safe m.slots m.running r') :
    Inv { m with records := put m.records w (1 - k, r') } := by
  rcases newest_put w hn hq with h | h
  · exact ⟨_, _, h, hs'⟩
  · exact ⟨_, _, h, hs⟩

structure Same (r r' : Record) : Prop where
  slot : r'.slot = r.slot
  fallback : r'.fallback = r.fallback
  confirmed : r'.confirmed = r.confirmed
  floor : r'.floor = r.floor

theorem Same.home {r r' : Record} (h : Same r r') : r'.home = r.home := by
  rw [Record.home, Record.home, h.confirmed, h.slot]

/-! ### A boot -/

@[simp] theorem Plan.follow_floor (k : Fin 2) (r : Record) : (Plan.follow k r).floor = r.floor := by
  simp only [Plan.follow, apply_ite Plan.floor, ite_self]

def Accepted (records : Records) : Prop := ∀ k r, records k = some r → r.sequence ≤ sequenceLast

theorem Low.accepted (h : Low m) : Accepted m.records := fun k r hr => Nat.le_of_lt (h k r hr)

theorem filter_accepted {records : Records} (h : Accepted records) (k : Fin 2) :
    (records k).filter (fun r => r.sequence ≤ sequenceLast) = records k := by
  cases hr : records k with
  | none => rfl
  | some r => simp [Option.filter, h k r hr]

theorem plan_eq {records : Records} {r : Record} (h : Accepted records)
    (hn : newest records = some (k, r)) : plan records = Plan.follow k r := by
  unfold plan
  simp only [filter_accepted h]
  unfold newest at hn
  split at hn
  · split at hn
    · cases hn
      exact if_pos ‹_›
    · cases hn
      exact if_neg ‹_›
  · cases hn
    rfl
  · cases hn
    rfl
  · cases hn

section Order
variable {floor k : Nat} {written : Option Placed} {f : Faults} {slot : Slot}
variable {rest : List (Option Slot)} {m : Machine}

variable {c : Content}

theorem loadSet_some {slots : Slot → Option Content} :
    loadSet slots slot floor = some c ↔ slots slot = some c ∧ floor ≤ c.version := by
  simp [loadSet, Option.filter_eq_some_iff]

theorem loadOrder_loads (hl : loadSet m.slots slot floor = some c) :
    loadOrder floor written f k (some slot :: rest) m =
      ({ m with running := some (started slot (k == 0 && written.isSome) c) },
        .loaded slot (k == 0 && written.isSome)) := by
  unfold loadOrder
  simp only [hl]

theorem loadOrder_spends {w : Placed} (hl : loadSet m.slots slot floor = none) :
    loadOrder floor (some w) f 0 (some slot :: rest) m =
      if f.spendCut then ({ m with records := put m.records f.spending (spent w) }, .cut)
      else loadOrder floor (some w) f 1 rest
        { m with records := put m.records f.spending (spent w) } := by
  have ht : (0 == 0 && (some w).isSome) = true := rfl
  conv_lhs => unfold loadOrder
  simp only [hl, ht]

end Order

/-- What a boot does from a safe record: it is cut, or it loads the home slot, or it loads the slot on
trial; the record it leaves the newer one is the one it found but for its tries. -/
structure Boots (m : Machine) (r : Record) (res : Machine × Outcome) : Prop where
  slots : res.1.slots = m.slots
  same : ∃ k' r', newest res.1.records = some (k', r') ∧ Same r r'
  ends : res.2 = .cut ∧ res.1.running = none ∨
    ∃ s t c, res.2 = .loaded s t ∧ res.1.running = some (started s t c) ∧
      loadSet m.slots s r.floor = some c ∧
      (s = r.home ∧ t = false ∨ s = r.slot ∧ t = true ∧ r.confirmed = false)

section Boot
variable {m : Machine} {k : Fin 2} {r : Record} {f : Faults} {c : Content}

theorem boots_home (hn : newest m.records = some (k, r)) (hw : (plan m.records).write = none)
    (ho : (plan m.records).order.1 = some r.home) (hf : (plan m.records).floor = r.floor)
    (hc : loadSet m.slots r.home r.floor = some c) : Boots m r (loadSlots m f) := by
  have hres : loadSlots m f = ({ m with running := some (started r.home false c) },
      .loaded r.home false) := by
    simp only [loadSlots, hw, ho, hf]
    rw [loadOrder_loads (m := { m with running := none }) hc]
    rfl
  rw [hres]
  exact ⟨rfl, ⟨k, r, hn, ⟨rfl, rfl, rfl, rfl⟩⟩, .inr ⟨_, _, c, rfl, rfl, hc, .inl ⟨rfl, rfl⟩⟩⟩

theorem boots_trial (hn : newest m.records = some (k, r)) (hconf : r.confirmed = false)
    (hlt : r.sequence < sequenceLast) (hp : plan m.records = Plan.follow k r) (ht : 0 < r.tries)
    (hfall : r.fallback = some (other r.slot)) (hc : loadSet m.slots r.home r.floor = some c) :
    Boots m r (loadSlots m f) := by
  have hhome : r.home = other r.slot := by simp [Record.home, hconf]
  rw [hhome] at hc
  let w : Record := { r with sequence := r.sequence + 1, tries := r.tries - 1 }
  have hfollow : Plan.follow k r =
      { chosen := some k, order := (some r.slot, some (other r.slot)), trial := true,
        write := some (1 - k, w), floor := r.floor } := by
    simp [Plan.follow, hconf, ht, hfall, w]
  have hnew : ∃ k' r', newest (put m.records f.trying (1 - k, w)) = some (k', r') ∧ Same r r' := by
    rcases newest_put f.trying hn (show w.sequence = r.sequence + 1 from rfl) with h | h
    · exact ⟨_, _, h, ⟨rfl, rfl, rfl, rfl⟩⟩
    · exact ⟨_, _, h, ⟨rfl, rfl, rfl, rfl⟩⟩
  simp only [loadSlots, hp, hfollow]
  cases hcut : f.tryCut with
  | true =>
    exact ⟨rfl, hnew, .inl ⟨rfl, rfl⟩⟩
  | false =>
    cases hok : f.trying.ok with
    | false =>
      rw [loadOrder_loads (m := { m with running := none, records := _ }) hc]
      exact ⟨rfl, hnew, .inr ⟨_, _, c, rfl, rfl, hhome ▸ hc, .inl ⟨hhome.symm, rfl⟩⟩⟩
    | true =>
      cases hl : loadSet m.slots r.slot r.floor with
      | some c' =>
        rw [loadOrder_loads (m := { m with running := none, records := _ }) hl]
        exact ⟨rfl, hnew, .inr ⟨_, _, c', rfl, rfl, hl, .inr ⟨rfl, rfl, hconf⟩⟩⟩
      | none =>
        have hwhole : f.trying = .whole := by simpa [Written.ok] using hok
        rw [loadOrder_spends (m := { m with running := none, records := _ }) hl]
        have hspent : ∃ k' r', newest (put (put m.records f.trying (1 - k, w)) f.spending
            (spent (1 - k, w))) = some (k', r') ∧ Same r r' := by
          have hwn := newest_put_ok hn (show w.sequence = r.sequence + 1 from rfl) hlt
          rw [hwhole]
          rcases newest_put f.spending hwn
            (show (spent (1 - k, w)).2.sequence = w.sequence + 1 from rfl) with h | h
          · exact ⟨_, _, h, ⟨rfl, rfl, rfl, rfl⟩⟩
          · exact ⟨_, _, h, ⟨rfl, rfl, rfl, rfl⟩⟩
        cases hsc : f.spendCut with
        | true =>
          exact ⟨rfl, hspent, .inl ⟨rfl, rfl⟩⟩
        | false =>
          rw [loadOrder_loads (m := { m with running := none, records := _ }) hc]
          exact ⟨rfl, hspent, .inr ⟨_, _, c, rfl, rfl, hhome ▸ hc, .inl ⟨hhome.symm, rfl⟩⟩⟩

theorem loadSlots_boots (hlow : Low m) (hn : newest m.records = some (k, r))
    (hs : Safe m.slots m.running r) (f : Faults) : Boots m r (loadSlots m f) := by
  obtain ⟨c, hc, hf⟩ := hs.home
  have hc : loadSet m.slots r.home r.floor = some c := loadSet_some.mpr ⟨hc, hf⟩
  have hp := plan_eq hlow.accepted hn
  cases hconf : r.confirmed with
  | true =>
    have hhome : r.home = r.slot := by simp [Record.home, hconf]
    refine boots_home hn ?_ ?_ ?_ hc
    · rw [hp]; simp [Plan.follow, hconf]
    · rw [hp]; simp [Plan.follow, hconf, hhome]
    · rw [hp]; simp [Plan.follow, hconf]
  | false =>
    have hhome : r.home = other r.slot := by simp [Record.home, hconf]
    have hfall := hs.fallback hconf
    by_cases ht : 0 < r.tries
    · exact boots_trial hn hconf (hlow k r (newest_at hn)) hp ht hfall hc
    · refine boots_home hn ?_ ?_ ?_ hc
      · rw [hp]; simp [Plan.follow, hconf, ht, hfall]
      · rw [hp]; simp [Plan.follow, hconf, ht, hfall, hhome]
      · rw [hp]; simp [Plan.follow, hconf, ht, hfall]

@[simp] theorem started_slot (slot : Slot) (trial : Bool) (c : Content) :
    (started slot trial c).slot = slot ∧ (started slot trial c).trial = trial := by
  unfold started
  split <;> exact ⟨rfl, rfl⟩

theorem boot_inv (hlow : Low m) (hi : Inv m) (f : Faults) : Inv (loadSlots m f).1 := by
  obtain ⟨k, r, hn, hs⟩ := hi
  obtain ⟨hslots, ⟨k', r', hn', hsame⟩, hends⟩ := loadSlots_boots hlow hn hs f
  refine ⟨k', r', hn', ?_, ?_, ?_⟩
  · rw [hsame.confirmed, hsame.fallback, hsame.slot]
    exact hs.fallback
  · rw [hslots, hsame.home, hsame.floor]
    exact hs.home
  · intro u hu
    rcases hends with ⟨-, hoff⟩ | ⟨s, t, c, -, hrun, hload, hwhere⟩
    · rw [hoff] at hu
      cases hu
    · rw [hrun] at hu
      cases hu
      obtain ⟨hslot, htrial⟩ := started_slot s t c
      rw [hslots, hsame.floor, hslot]
      refine ⟨?_, c, loadSet_some.mp hload⟩
      rw [Placing, hslot, htrial, hsame.home, hsame.slot, hsame.confirmed]
      rcases hwhere with ⟨h, -⟩ | ⟨h, ht, hconf⟩
      · exact .inl h
      · exact .inr ⟨ht, h, hconf⟩

end Boot

/-! ### The updater's steps -/

variable {step : Running → Machine → Machine}

section Steps
variable {m : Machine} {u : Running}

theorem home_of_mayStage {r : Record} (hn : newest m.records = some (k, r))
    (hp : Placing r u) (h : mayStage m.records u.slot u.trial = true) : u.slot = r.home := by
  rcases hp with hh | ⟨ht, -, hconf⟩
  · exact hh
  · simp [mayStage, ht, hn, hconf] at h

theorem raiseFloor_inv (ha : Alike m.slots) (hi : Inv m)
    (hu : ∀ v, m.running = some v → v.slot = u.slot) (readable : Bool) (w : Written) :
    Inv (raiseFloor readable w u m) := by
  unfold raiseFloor
  dsimp only
  split
  · exact hi
  · rename_i x hx
    obtain ⟨k, r, hn, hs⟩ := hi
    obtain ⟨hslot, hconf, hmin, hver, rfl⟩ := raise_eq hn hx
    have hhome : r.home = u.slot := by simp [Record.home, hconf, hslot]
    obtain ⟨c, hc, hf⟩ := hs.home
    have hfloor : max r.floor u.minimum ≤ c.version := by
      rw [hhome] at hc
      cases readable with
      | true =>
        simp only [if_true, hc, Option.map_some, Option.getD_some] at hver
        have hread := ha u.slot c hc
        omega
      | false =>
        simp only [Bool.false_eq_true, if_false] at hver
        omega
    refine Inv.put w hn rfl hs ⟨hs.fallback, ⟨c, hc, hfloor⟩, ?_⟩
    intro v hv
    refine ⟨.inl ((hu v hv).trans hhome.symm), c, ?_, hfloor⟩
    rw [hu v hv, ← hhome]
    exact hc

theorem raiseFloor_mayStage {slot : Slot} {trial : Bool} (readable : Bool) (w : Written)
    (h : mayStage m.records slot trial = true) :
    mayStage (raiseFloor readable w u m).records slot trial = true := by
  unfold raiseFloor
  dsimp only
  split
  · exact h
  · rename_i x hx
    cases hn : newest m.records with
    | none => simp [raise, hn] at hx
    | some kr =>
      obtain ⟨k, r⟩ := kr
      obtain ⟨-, -, -, -, rfl⟩ := raise_eq hn hx
      rw [mayStage, hn] at h
      rw [mayStage]
      let raised : Record := { r with sequence := r.sequence + 1, floor := max r.floor u.minimum }
      rcases newest_put w hn (show raised.sequence = r.sequence + 1 from rfl) with h' | h'
      · rw [h']; exact h
      · rw [h']; exact h

@[simp] theorem raiseFloor_slots (readable : Bool) (w : Written) :
    (raiseFloor readable w u m).slots = m.slots ∧ (raiseFloor readable w u m).running = m.running := by
  unfold raiseFloor
  dsimp only
  split <;> exact ⟨rfl, rfl⟩

theorem readChannel_inv (ha : Alike m.slots) (hi : Inv m) (hu : m.running = some u) (minimum : Nat)
    (readable : Bool) (w : Written) : Inv (readChannel minimum readable w u m) := by
  refine raiseFloor_inv (m := { m with running := some _ }) ha ?_ ?_ readable w
  · obtain ⟨k, r, hn, hs⟩ := hi
    refine ⟨k, r, hn, hs.fallback, hs.home, ?_⟩
    intro v hv
    cases hv
    obtain ⟨hp, hst⟩ := hs.placed u hu
    exact ⟨hp, hst⟩
  · intro v hv
    cases hv
    rfl

theorem trial_inv (hi : Inv m) (hu : m.running = some u) {tries : Nat} {x : Placed}
    (hx : trialOfOther m.records u.slot tries = some x) (w : Written) :
    Inv { m with records := put m.records w x } := by
  obtain ⟨k, r, hn, hs⟩ := hi
  obtain ⟨hp, c, hc, hf⟩ := hs.placed u hu
  obtain ⟨-, rfl⟩ := next_eq hn hx
  refine Inv.put w hn rfl hs ⟨?_, ?_, ?_⟩
  · intro _
    simp
  · refine ⟨c, ?_, ?_⟩
    · simpa [Record.home] using hc
    · simpa using hf
  · intro v hv
    rw [hu] at hv
    cases hv
    refine ⟨.inl ?_, c, hc, by simpa using hf⟩
    simp [Record.home]

theorem stage_inv (ha : Alike m.slots) (hi : Inv m) (hu : m.running = some u) (channel : Channel)
    (readable : Bool) (w : Written) (content : Option Content) :
    Inv (stage channel readable w content u m) := by
  unfold stage
  split
  · rename_i hmay
    have hi' := readChannel_inv ha hi hu channel.minimum readable w
    split
    · exact hi'
    split
    · exact hi'
    · let v : Running := { u with minimum := max u.minimum channel.minimum }
      have hmay' : mayStage (readChannel channel.minimum readable w u m).records v.slot v.trial = true :=
        raiseFloor_mayStage readable w hmay
      have hrun : (readChannel channel.minimum readable w u m).running = some v :=
        (raiseFloor_slots readable w).2
      obtain ⟨k, r, hn, hs⟩ := hi'
      have hhome : v.slot = r.home := home_of_mayStage hn (hs.placed v hrun).1 hmay'
      have hkeep : ∀ s, s = r.home → Function.update (readChannel channel.minimum readable w u m).slots
          (other u.slot) content s = (readChannel channel.minimum readable w u m).slots s := by
        intro s hs
        refine Function.update_of_ne ?_ _ _
        rw [hs, ← hhome]
        exact (other_ne u.slot).symm
      obtain ⟨c, hc, hf⟩ := hs.home
      have hstands : Stands (Function.update (readChannel channel.minimum readable w u m).slots
          (other u.slot) content) r.floor r.home := ⟨c, (hkeep _ rfl).trans hc, hf⟩
      refine ⟨k, r, hn, hs.fallback, hstands, ?_⟩
      intro x hx
      have hxv : x = v := Option.some.inj (hx.symm.trans hrun)
      have hxs : x.slot = r.home := by rw [hxv]; exact hhome
      exact ⟨.inl hxs, hxs ▸ hstands⟩
  · exact hi

theorem apply_inv (hi : Inv m) (hu : m.running = some u) (tries : Nat) (expired : Bool) (w : Written) :
    Inv (apply tries expired w u m) := by
  unfold apply
  split
  · split
    · exact hi
    · split
      · exact hi
      · split
        · exact hi
        · exact trial_inv hi hu ‹_› w
  · exact hi

theorem rollback_inv (hi : Inv m) (hu : m.running = some u) (w : Written) : Inv (rollback w u m) := by
  unfold rollback
  split
  · split
    · exact hi
    · split
      · exact hi
      · split
        · exact hi
        · exact trial_inv hi hu ‹_› w
  · exact hi

theorem confirmTrial_inv (ha : Alike m.slots) (hi : Inv m) (hu : m.running = some u) (w : Written)
    (readable : Bool) (raised : Written) : Inv (confirmTrial w readable raised u m) := by
  unfold confirmTrial
  split
  · split
    · exact hi
    · rename_i x hx
      have hput : Inv { m with records := put m.records w x } := by
        obtain ⟨k, r, hn, hs⟩ := hi
        obtain ⟨hslot, -, rfl⟩ := confirm_eq hn hx
        obtain ⟨c, hc, hf⟩ := (hs.placed u hu).2
        have hf : max r.floor 0 ≤ c.version := by omega
        refine Inv.put w hn rfl hs ⟨?_, ⟨c, hc, hf⟩, ?_⟩
        · nofun
        · intro v hv
          rw [hu] at hv
          cases hv
          exact ⟨.inl rfl, c, hc, hf⟩
      split
      · refine raiseFloor_inv (m := { m with records := put m.records w x }) ha hput ?_ readable
          raised
        intro v hv
        exact congrArg Running.slot (Option.some.inj (hv.symm.trans hu))
      · exact hput
  · exact hi

theorem inSlot_inv (hi : Inv m) (h : ∀ u, m.running = some u → Inv (step u m)) : Inv (m.inSlot step) := by
  unfold Machine.inSlot
  split
  · exact hi
  · exact h _ ‹_›

end Steps

/-! ### Runs -/

theorem act_inv (hlow : Low m) (ha : Alike m.slots) (hi : Inv m) (a : Act) : Inv (act a m) := by
  cases a with
  | boot f => exact boot_inv hlow hi f
  | check minimum readable w =>
    exact inSlot_inv hi fun u hu => readChannel_inv ha hi hu minimum readable w
  | stage channel readable w content =>
    exact inSlot_inv hi fun u hu => stage_inv ha hi hu channel readable w content
  | apply tries expired w => exact inSlot_inv hi fun u hu => apply_inv hi hu tries expired w
  | rollback w => exact inSlot_inv hi fun u hu => rollback_inv hi hu w
  | confirm w readable raised =>
    exact inSlot_inv hi fun u hu => confirmTrial_inv ha hi hu w readable raised

theorem inSlot_slots (h : ∀ u, (step u m).slots = m.slots) : (m.inSlot step).slots = m.slots := by
  unfold Machine.inSlot
  split
  · rfl
  · exact h _

theorem apply_slots (tries : Nat) (expired : Bool) (w : Written) (u : Running) :
    (apply tries expired w u m).slots = m.slots := by
  unfold apply
  repeat' split
  all_goals rfl

theorem rollback_slots (w : Written) (u : Running) : (rollback w u m).slots = m.slots := by
  unfold rollback
  repeat' split
  all_goals rfl

theorem confirmTrial_slots (w : Written) (readable : Bool) (raised : Written)
    (u : Running) : (confirmTrial w readable raised u m).slots = m.slots := by
  unfold confirmTrial
  split
  · split
    · rfl
    · split
      · exact (raiseFloor_slots readable raised).1
      · rfl
  · rfl

theorem stage_alike {u : Running} (ha : Alike m.slots) (channel : Channel)
    (readable : Bool) (w : Written) (content : Option Content) :
    Alike (stage channel readable w content u m).slots := by
  have hread : (readChannel channel.minimum readable w u m).slots = m.slots := (raiseFloor_slots readable w).1
  unfold stage
  split
  · split
    · rw [hread]
      exact ha
    split
    · rw [hread]
      exact ha
    · rename_i hparse
      intro s c hc
      dsimp only at hc
      rw [hread] at hc
      by_cases hs : s = other u.slot
      · rw [hs, Function.update_self] at hc
        rw [hc, Option.any_some, Option.isNone_iff_eq_none] at hparse
        obtain ⟨parsed, hp⟩ := Option.ne_none_iff_exists'.mp hparse
        exact manifestVersion_le hp
      · rw [Function.update_of_ne hs] at hc
        exact ha s c hc
  · exact ha

theorem act_alike (hlow : Low m) (ha : Alike m.slots) (hi : Inv m) (a : Act) : Alike (act a m).slots := by
  cases a with
  | boot f =>
    obtain ⟨k, r, hn, hs⟩ := hi
    rw [act, (loadSlots_boots hlow hn hs f).slots]
    exact ha
  | check minimum readable w =>
    have hslots : ∀ u, (readChannel minimum readable w u m).slots = m.slots :=
      fun u => (raiseFloor_slots readable w).1
    rw [act, inSlot_slots hslots]
    exact ha
  | stage channel readable w content =>
    rw [act, Machine.inSlot]
    split
    · exact ha
    · exact stage_alike ha channel readable w content
  | apply tries expired w =>
    rw [act, inSlot_slots (apply_slots tries expired w)]
    exact ha
  | rollback w =>
    rw [act, inSlot_slots (rollback_slots w)]
    exact ha
  | confirm w readable raised =>
    rw [act, inSlot_slots (confirmTrial_slots w readable raised)]
    exact ha

theorem Fresh.inv (h : Fresh m) : Inv m := by
  obtain ⟨k, r, c, hr, hnone, hconf, hc, hf⟩ := h.one
  refine ⟨k, r, ?_, ?_, ?_, ?_⟩
  · obtain rfl | rfl : k = 0 ∨ k = 1 := by omega
    · simp at hnone
      simp [newest, hr, hnone]
    · simp at hnone
      simp [newest, hr, hnone]
  · simp [hconf]
  · exact ⟨c, by simpa [Record.home, hconf] using hc, hf⟩
  · intro u hu
    rw [h.off] at hu
    cases hu

theorem reaches_inv {start m : Machine} (hl : Low start) (ha : Alike start.slots) (hi : Inv start)
    (hr : Reaches start m) : Low m ∧ Alike m.slots ∧ Inv m := by
  induction hr with
  | start => exact ⟨hl, ha, hi⟩
  | step a _ hlow ih => exact ⟨hlow, act_alike ih.1 ih.2.1 ih.2.2 a, act_inv ih.1 ih.2.1 ih.2.2 a⟩

/-- In every run of boots and updates, with any write failing or cut, from slots in whose manifests
the two readers agree, a boot that is not itself cut loads a slot that verifies at or above the floor
of the record it follows; a slot that record does not confirm is loaded on trial or not at all. -/
theorem boots_a_verified_slot {start m : Machine} (hs : Fresh start) (ha : Alike start.slots)
    (hr : Reaches start m) (f : Faults) :
    (loadSlots m f).2 ≠ .noSlot ∧ ∀ s t, (loadSlots m f).2 = .loaded s t →
      (∃ c, m.slots s = some c ∧ (plan m.records).floor ≤ c.version) ∧
      ∀ k r, newest m.records = some (k, r) → r.confirmed = false → s = r.slot → t = true := by
  obtain ⟨hlow, -, k, r, hn, hsafe⟩ := reaches_inv hs.low ha hs.inv hr
  have hfloor : (plan m.records).floor = r.floor := by
    rw [plan_eq hlow.accepted hn, Plan.follow_floor]
  obtain ⟨-, -, hends⟩ := loadSlots_boots hlow hn hsafe f
  rcases hends with ⟨hcut, -⟩ | ⟨s, t, c, hload, -, hset, hwhere⟩
  · rw [hcut]
    exact ⟨by simp, by simp⟩
  · rw [hload]
    refine ⟨by simp, ?_⟩
    intro s' t' h
    cases h
    refine ⟨⟨c, hfloor ▸ loadSet_some.mp hset⟩, ?_⟩
    intro k' r' hn' hconf hslot
    rw [hn] at hn'
    cases hn'
    rcases hwhere with ⟨hh, -⟩ | ⟨-, ht, -⟩
    · rw [hslot] at hh
      simp [Record.home, hconf] at hh
      exact absurd hh.symm (other_ne _)
    · exact ht

theorem low_of_all (h : ∀ k, (m.records k).all (fun r => r.sequence < sequenceLast) = true) : Low m := by
  intro k r hr
  simpa [hr] using h k

def manifestOf (n : Nat) : Content where
  manifest := versionText n
  channel := some { version := n, minimum := 1 }

def installed : Machine where
  records k := if k.val = 0 then
    some { sequence := 1, slot := .A, fallback := none, tries := 0, confirmed := true, floor := 1 }
  else none
  slots
    | .A => some (manifestOf 1)
    | .B => none
  running := none

def applied : Machine :=
  act (.apply 2 false .whole) (act (.stage { version := 2, minimum := 1 } true .whole
    (some (manifestOf 2))) (act (.boot ⟨.whole, false, .whole, false⟩) installed))

theorem installed_fresh : Fresh installed :=
  ⟨low_of_all (by decide), rfl, 0, _, _, rfl, rfl, rfl, rfl, by decide⟩

theorem installed_alike : Alike installed.slots := by
  intro s c hc
  cases s with
  | A =>
    cases hc
    decide
  | B => cases hc

/-- The staged slot is loaded on trial. -/
theorem applied_boots_on_trial : (loadSlots applied ⟨.whole, false, .lost, false⟩).2 = .loaded .B true ∧
      (loadSlots applied ⟨.whole, false, .lost, false⟩).2 ≠ .noSlot := by
  have hreach : Reaches installed applied := by
    refine .step _ (.step _ (.step _ .start ?_) ?_) ?_
    · exact low_of_all (by decide)
    · exact low_of_all (by decide +kernel)
    · exact low_of_all (by decide +kernel)
  exact ⟨by decide +kernel, (boots_a_verified_slot installed_fresh installed_alike hreach _).1⟩

/-- Slot A confirmed, its manifest with a `version` line without a value before the one of version 7;
the channel kept with it asks for version 5 at least. -/
def misread : Machine where
  records k := if k.val = 0 then
    some { sequence := 1, slot := .A, fallback := none, tries := 0, confirmed := true, floor := 0 }
  else none
  slots
    | .A => some { manifest := twoVersions, channel := some { version := 7, minimum := 5 } }
    | .B => none
  running := none

def misreadRaised : Machine := act (.check 5 true .whole) (act (.boot ⟨.whole, false, .whole, false⟩) misread)

/-- The updater raises the floor to 5 over the version 7 it reads; the bootloader, which reads none,
then boots no slot. -/
theorem misread_version_boots_nothing : Fresh misread ∧ Reaches misread misreadRaised ∧
      (loadSlots misreadRaised ⟨.whole, false, .whole, false⟩).2 = .noSlot := by
  refine ⟨⟨low_of_all (by decide), rfl, 0, _, _, rfl, rfl, rfl, rfl, by decide⟩, ?_, by decide⟩
  refine .step _ (.step _ .start ?_) ?_
  · exact low_of_all (by decide)
  · exact low_of_all (by decide)

end MindCore.Update
