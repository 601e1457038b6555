import MindCore.Update.Boots

/-!
# The version floor never falls

What the bootloader writes carries the newer record's floor on, what the updater writes carries it or
a higher one, and a torn or failed write leaves the newer record. A floor is raised only over the
running slot, confirmed, and at most to the version the updater reads in its manifest.
-/

namespace MindCore.Update

def floorAt (m : Machine) : Nat := (plan m.records).floor

def raisedBy (readable : Bool) (w : Written) (u : Running) (m : Machine) : Option Nat :=
  let version := if readable then ((m.slots u.slot).map Content.manifestVersion).getD 0 else 0
  if w.ok then (raise m.records u.slot u.minimum version).map fun x => x.2.floor else none

def raisedIn : Act → Machine → Option Nat
  | .check minimum readable w, m => m.running.bind fun u =>
    raisedBy readable w { u with minimum := max u.minimum minimum } m
  | .stage channel readable w _, m => m.running.bind fun u =>
    if mayStage m.records u.slot u.trial then
      raisedBy readable w { u with minimum := max u.minimum channel.minimum } m
    else none
  | .confirm w readable raised, m => m.running.bind fun u =>
    if u.trial then (confirm m.records u.slot).bind fun x =>
      if w.ok then raisedBy readable raised u { m with records := put m.records w x } else none
    else none
  | _, _ => none

/-! ### What one step does to the floor -/

variable {k : Fin 2} {r : Record} {m : Machine}

theorem floorAt_eq (hlow : Low m) (hn : newest m.records = some (k, r)) : floorAt m = r.floor := by
  rw [floorAt, plan_eq hlow.accepted hn, Plan.follow_floor]

/-- The newer record stays or gives way to one with a floor as high; where the floor grows the newer
record confirms the running slot, which stands at it. -/
structure Carries (m m' : Machine) : Prop where
  newer : ∀ k r, newest m.records = some (k, r) → ∃ k' r', newest m'.records = some (k', r') ∧
    r.floor ≤ r'.floor ∧ (r.floor < r'.floor → r'.confirmed = true ∧
      ∃ u, m.running = some u ∧ r'.slot = u.slot)

theorem Carries.refl (m : Machine) : Carries m m :=
  ⟨fun k r hn => ⟨k, r, hn, Nat.le_refl _, fun h => absurd h (Nat.lt_irrefl _)⟩⟩

variable {records : Records} {x : Record} {n : Nat} {readable : Bool} {w : Written}

theorem newest_put_floor (w : Written)
    (hn : newest records = some (k, r)) (hq : x.sequence = r.sequence + 1) (hf : x.floor = r.floor) :
    ∃ k' r', newest (put records w (1 - k, x)) = some (k', r') ∧ r'.floor = r.floor := by
  rcases newest_put w hn hq with h | h
  · exact ⟨_, _, h, hf⟩
  · exact ⟨_, _, h, rfl⟩

theorem Carries.put (w : Written)
    (hn : newest m.records = some (k, r)) (hq : x.sequence = r.sequence + 1) (hf : x.floor = r.floor) :
    Carries m { m with records := put m.records w (1 - k, x) } := by
  refine ⟨fun k' r' hn' => ?_⟩
  rw [hn] at hn'
  cases hn'
  obtain ⟨k2, r2, h2, hfloor⟩ := newest_put_floor w hn hq hf
  exact ⟨k2, r2, h2, Nat.le_of_eq hfloor.symm, fun hlt => absurd hlt (by omega)⟩

section Steps
variable {m : Machine} {u : Running}

theorem raiseFloor_carries (hu : ∃ v, m.running = some v ∧ v.slot = u.slot) (readable : Bool)
    (w : Written) : Carries m (raiseFloor readable w u m) := by
  unfold raiseFloor
  dsimp only
  split
  · exact .refl m
  · rename_i x hx
    refine ⟨fun k r hn => ?_⟩
    obtain ⟨hslot, hconf, hmin, -, rfl⟩ := raise_eq hn hx
    let raised : Record := { r with sequence := r.sequence + 1, floor := max r.floor u.minimum }
    rcases newest_put w hn (show raised.sequence = r.sequence + 1 from rfl) with h | h
    · refine ⟨_, _, h, Nat.le_max_left _ _, fun _ => ⟨hconf, ?_⟩⟩
      obtain ⟨v, hv, hvs⟩ := hu
      exact ⟨v, hv, hslot.trans hvs.symm⟩
    · exact ⟨_, _, h, Nat.le_refl _, fun hlt => absurd hlt (Nat.lt_irrefl _)⟩

theorem Carries.trans_same {m m' m'' : Machine} (h : Carries m m')
    (hr : m''.records = m'.records) : Carries m m'' :=
  ⟨fun k r hn => by rw [hr]; exact h.newer k r hn⟩

theorem trialOfOther_carries {tries : Nat} {x : Placed} (hx : trialOfOther m.records u.slot tries = some x)
    (w : Written) : Carries m { m with records := put m.records w x } := by
  cases hn : newest m.records with
  | none => exact ⟨fun k r hn' => by rw [hn] at hn'; cases hn'⟩
  | some kr =>
    obtain ⟨-, rfl⟩ := next_eq hn hx
    exact Carries.put w hn rfl (Nat.max_zero _)

theorem readChannel_carries (hu : m.running = some u) (minimum : Nat) (readable : Bool) (w : Written) :
    Carries m (readChannel minimum readable w u m) := by
  have h := raiseFloor_carries (m := { m with running := some { u with minimum := max u.minimum minimum } })
    (u := { u with minimum := max u.minimum minimum }) ⟨_, rfl, rfl⟩ readable w
  refine ⟨fun k r hn => ?_⟩
  obtain ⟨k', r', hn', hle, hup⟩ := h.newer k r hn
  refine ⟨k', r', hn', hle, fun hlt => ?_⟩
  obtain ⟨hconf, v, hv, hs⟩ := hup hlt
  cases hv
  exact ⟨hconf, u, hu, hs⟩

theorem stage_carries (hu : m.running = some u) (channel : Channel) (readable : Bool) (w : Written)
    (content : Option Content) : Carries m (stage channel readable w content u m) := by
  have h := readChannel_carries hu channel.minimum readable w
  unfold stage
  split
  · split
    · exact h
    split
    · exact h
    · exact h.trans_same rfl
  · exact .refl m

theorem apply_carries (tries : Nat) (expired : Bool) (w : Written) :
    Carries m (apply tries expired w u m) := by
  unfold apply
  split
  · split
    · exact .refl m
    split
    · exact .refl m
    split
    · exact .refl m
    · exact trialOfOther_carries ‹_› w
  · exact .refl m

theorem rollback_carries (w : Written) : Carries m (rollback w u m) := by
  unfold rollback
  split
  · split
    · exact .refl m
    split
    · exact .refl m
    split
    · exact .refl m
    · exact trialOfOther_carries ‹_› w
  · exact .refl m

theorem confirmTrial_carries (hu : m.running = some u) (w : Written) (readable : Bool)
    (raised : Written) : Carries m (confirmTrial w readable raised u m) := by
  unfold confirmTrial
  split
  · split
    · exact .refl m
    · rename_i x hx
      cases hn : newest m.records with
      | none => exact ⟨fun k r hn' => by rw [hn] at hn'; cases hn'⟩
      | some kr =>
        obtain ⟨k, r⟩ := kr
        obtain ⟨-, -, rfl⟩ := confirm_eq hn hx
        split
        · refine ⟨fun k0 r0 hn0 => ?_⟩
          rw [hn] at hn0
          cases hn0
          let confirmed : Record := { slot := u.slot, fallback := r.fallback, tries := 0,
                                      confirmed := true, sequence := r.sequence + 1,
                                      floor := max r.floor 0 }
          obtain ⟨k1, r1, hn1, hfloor⟩ := newest_put_floor (x := confirmed) w hn rfl (Nat.max_zero _)
          have hraise := raiseFloor_carries (m := { m with records := put m.records w (1 - k, confirmed) })
            (u := u) ⟨u, hu, rfl⟩ readable raised
          have hraised := hraise.newer k1 r1 hn1
          rw [hfloor] at hraised
          exact hraised
        · exact Carries.put w hn rfl (Nat.max_zero _)
  · exact .refl m

theorem inSlot_carries {step : Running → Machine → Machine}
    (h : ∀ u, m.running = some u → Carries m (step u m)) : Carries m (m.inSlot step) := by
  unfold Machine.inSlot
  split
  · exact .refl m
  · exact h _ ‹_›

end Steps

theorem act_carries (hlow : Low m) (hi : Inv m) (a : Act) : Carries m (act a m) := by
  cases a with
  | boot f =>
    obtain ⟨k, r, hn, hs⟩ := hi
    refine ⟨fun k0 r0 hn0 => ?_⟩
    rw [hn] at hn0
    cases hn0
    obtain ⟨k', r', hn', hsame⟩ := (loadSlots_boots hlow hn hs f).same
    exact ⟨k', r', hn', Nat.le_of_eq hsame.floor.symm, fun hlt => absurd hlt (by
      rw [hsame.floor]
      exact Nat.lt_irrefl _)⟩
  | check minimum readable w => exact inSlot_carries fun u hu => readChannel_carries hu minimum readable w
  | stage channel readable w content =>
    exact inSlot_carries fun u hu => stage_carries hu channel readable w content
  | apply tries expired w => exact inSlot_carries fun u _ => apply_carries tries expired w
  | rollback w => exact inSlot_carries fun u _ => rollback_carries w
  | confirm w readable raised =>
    exact inSlot_carries fun u hu => confirmTrial_carries hu w readable raised

/-! ### What a raise writes -/

theorem raise_le {running : Slot} {minimum version : Nat} {x : Placed} (hn : newest records = some (k, r))
    (h : raise records running minimum version = some x) : x.2.sequence ≤ sequenceLast := by
  simp only [raise, hn] at h
  split at h
  · obtain ⟨hle, rfl⟩ := next_eq hn h
    exact Nat.le_trans hle (Nat.sub_le _ _)
  · cases h

theorem raisedBy_newest {u : Running}
    (hi : ∃ k r, newest m.records = some (k, r)) (h : raisedBy readable w u m = some n) :
    ∃ k r, newest (raiseFloor readable w u m).records = some (k, r) ∧ r.floor = n := by
  obtain ⟨k, r, hn⟩ := hi
  unfold raisedBy at h
  dsimp only at h
  split at h
  · rename_i hok
    have hw : w = .whole := by simpa [Written.ok] using hok
    obtain ⟨x, hx, rfl⟩ := Option.map_eq_some_iff.mp h
    have hle := raise_le hn hx
    have hrec : (raiseFloor readable w u m).records = put m.records w x := by
      unfold raiseFloor
      simp only [hx]
    obtain ⟨-, -, -, -, rfl⟩ := raise_eq hn hx
    rw [hrec, hw]
    exact ⟨_, _, newest_put_ok hn rfl hle, rfl⟩
  · cases h

theorem stage_records {u : Running} {channel : Channel}
    {content : Option Content} (h : mayStage m.records u.slot u.trial = true) :
    (stage channel readable w content u m).records =
      (readChannel channel.minimum readable w u m).records := by
  unfold stage
  rw [if_pos h]
  split
  · rfl
  split
  · rfl
  · rfl

theorem raisedIn_newest (hi : ∃ k r, newest m.records = some (k, r)) {a : Act}
    (h : raisedIn a m = some n) : ∃ k r, newest (act a m).records = some (k, r) ∧ r.floor = n := by
  cases a with
  | boot | apply | rollback => cases h
  | check minimum readable w =>
    obtain ⟨u, hu, h⟩ := Option.bind_eq_some_iff.mp h
    rw [act, Machine.inSlot, hu]
    exact raisedBy_newest (m := { m with running := some _ }) hi h
  | stage channel readable w content =>
    obtain ⟨u, hu, h⟩ := Option.bind_eq_some_iff.mp h
    split at h
    · rename_i hmay
      rw [act, Machine.inSlot, hu]
      rw [stage_records hmay]
      exact raisedBy_newest (m := { m with running := some _ }) hi h
    · cases h
  | confirm w readable raised =>
    obtain ⟨u, hu, h⟩ := Option.bind_eq_some_iff.mp h
    rw [act, Machine.inSlot, hu]
    split at h
    · rename_i ht
      obtain ⟨x, hx, h⟩ := Option.bind_eq_some_iff.mp h
      split at h
      · rename_i hok
        obtain ⟨k, r, hn⟩ := hi
        have hput : ∃ k r, newest (put m.records w x) = some (k, r) := by
          obtain ⟨-, -, hplace⟩ := confirm_eq hn hx
          have hq : x.2.sequence = r.sequence + 1 := by rw [hplace]
          have hfile : x = (1 - k, x.2) := by rw [hplace]
          rw [hfile]
          rcases newest_put w hn hq with h' | h'
          · exact ⟨_, _, h'⟩
          · exact ⟨_, _, h'⟩
        dsimp only
        rw [confirmTrial, if_pos ht]
        simp only [hx, if_pos hok]
        exact raisedBy_newest (m := { m with records := put m.records w x }) hput h
      · cases h
    · cases h

/-! ### Runs -/

section Runs
variable {m m' : Machine}

theorem Carries.le (hlow : Low m) (hlow' : Low m') (hi : Inv m) (h : Carries m m') :
    floorAt m ≤ floorAt m' := by
  obtain ⟨k, r, hn, -⟩ := hi
  obtain ⟨k', r', hn', hle, -⟩ := h.newer k r hn
  rw [floorAt_eq hlow hn, floorAt_eq hlow' hn']
  exact hle

theorem reaches_le (hl : Low m) (ha : Alike m.slots) (hi : Inv m) (hr : Reaches m m') :
    floorAt m ≤ floorAt m' := by
  induction hr with
  | start => exact Nat.le_refl _
  | step a hr hlow ih =>
    obtain ⟨hl', ha', hi'⟩ := reaches_inv hl ha hi hr
    exact Nat.le_trans ih ((act_carries hl' hi' a).le hl' hlow hi')

theorem loads_confirmed {c : Content} (hacc : Accepted m.records)
    (hn : newest m.records = some (k, r)) (hconf : r.confirmed = true)
    (hc : loadSet m.slots r.slot r.floor = some c) (f : Faults) :
    (loadSlots m f).2 = .loaded r.slot false := by
  have hp : plan m.records = Plan.follow k r := plan_eq hacc hn
  have hw : (plan m.records).write = none := by rw [hp]; simp [Plan.follow, hconf]
  have ho : (plan m.records).order.1 = some r.slot := by rw [hp]; simp [Plan.follow, hconf]
  have hf : (plan m.records).floor = r.floor := by rw [hp, Plan.follow_floor]
  simp only [loadSlots, hw, ho, hf]
  rw [loadOrder_loads (m := { m with running := none }) hc]
  rfl

end Runs

/-- In every run from slots in whose manifests the two readers agree: the floor applied at a boot is at
least that of every earlier boot and of every raise that was read back; no slot whose manifest names a
lower version is loaded; and where a step raises the floor, the running slot stands at it and is the
one the next boot loads. -/
theorem floor_never_falls {start m : Machine} (hs : Fresh start) (ha : Alike start.slots)
    (hr : Reaches start m) :
    (∀ f s t, (loadSlots m f).2 = .loaded s t → ∃ c, m.slots s = some c ∧ floorAt m ≤ c.version) ∧
    ∀ a, Low (act a m) →
      (∀ m', Reaches (act a m) m' → floorAt m ≤ floorAt m' ∧ ∀ n, raisedIn a m = some n → n ≤ floorAt m') ∧
      (floorAt m < floorAt (act a m) → ∃ u c, m.running = some u ∧ (act a m).slots u.slot = some c ∧
        floorAt (act a m) ≤ c.version ∧ ∀ f, (loadSlots (act a m) f).2 = .loaded u.slot false) := by
  obtain ⟨hl, ha', hi⟩ := reaches_inv hs.low ha hs.inv hr
  obtain ⟨k, r, hn, hsafe⟩ := id hi
  refine ⟨?_, ?_⟩
  · intro f s t hload
    obtain ⟨-, -, hends⟩ := loadSlots_boots hl hn hsafe f
    rcases hends with ⟨hcut, -⟩ | ⟨s', t', c, hl', -, hset, -⟩
    · rw [hcut] at hload
      cases hload
    · rw [hl'] at hload
      cases hload
      obtain ⟨hc, hf⟩ := loadSet_some.mp hset
      exact ⟨c, hc, by rw [floorAt_eq hl hn]; exact hf⟩
  · intro a hlow
    have hcarries := act_carries hl hi a
    have hact := act_inv hl ha' hi a
    have halike := act_alike hl ha' hi a
    obtain ⟨k1, r1, hn1, hsafe1⟩ := id hact
    refine ⟨?_, ?_⟩
    · intro m' hr'
      have hle := reaches_le hlow halike hact hr'
      refine ⟨Nat.le_trans (hcarries.le hl hlow hi) hle, ?_⟩
      intro n hraised
      obtain ⟨k2, r2, hn2, rfl⟩ := raisedIn_newest ⟨k, r, hn⟩ hraised
      rw [← floorAt_eq hlow hn2]
      exact hle
    · intro hlt
      obtain ⟨k2, r2, hn2, -, hup⟩ := hcarries.newer k r hn
      rw [hn1] at hn2
      cases hn2
      rw [floorAt_eq hl hn, floorAt_eq hlow hn1] at hlt
      obtain ⟨hconf, u, hu, hslot⟩ := hup hlt
      obtain ⟨c, hc, hf⟩ := hsafe1.home
      have hhome : r1.home = r1.slot := by simp [Record.home, hconf]
      rw [hhome] at hc
      refine ⟨u, c, hu, hslot ▸ hc, by rw [floorAt_eq hlow hn1]; exact hf, ?_⟩
      intro f
      rw [← hslot]
      exact loads_confirmed hlow.accepted hn1 hconf (loadSet_some.mpr ⟨hc, hf⟩) f

/-- After the boot of version 1 the floor it applied holds on. -/
theorem installed_floor_holds : floorAt installed ≤ floorAt (act (.check 1 true .whole)
      (act (.boot ⟨.whole, false, .whole, false⟩) installed)) := by
  have hlow : Low (act (.boot ⟨.whole, false, .whole, false⟩) installed) := low_of_all (by decide)
  refine (((floor_never_falls installed_fresh installed_alike .start).2
    (.boot ⟨.whole, false, .whole, false⟩) hlow).1 _ (.step _ .start ?_)).1
  exact low_of_all (by decide)

/-- Over a manifest that the two readers read otherwise the floor is raised above the version the
bootloader reads in the running slot. -/
theorem misread_floor_above : Fresh misread ∧ Reaches misread misreadRaised ∧ floorAt misreadRaised = 5 ∧
      (misreadRaised.running.bind fun u => misreadRaised.slots u.slot).map Content.version = some 0 := by
  refine ⟨⟨low_of_all (by decide), rfl, 0, _, _, rfl, rfl, rfl, rfl, by decide⟩, ?_, by decide, by decide⟩
  refine .step _ (.step _ .start ?_) ?_
  · exact low_of_all (by decide)
  · exact low_of_all (by decide)

end MindCore.Update
