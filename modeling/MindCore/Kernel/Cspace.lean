import Mathlib.Logic.Relation
import MindCore.Kernel.Ipc

/-!
# Capability handles

The table of one task: its capabilities, their nodes and the generation of each slot. `CAP_DROP`, an
overwrite and an exit end in `remove`; a reply, the moves of a spawn, a delivered move and a revocation
in `clear`. `freed` is no field of the kernel: it remembers the slots that were cleared.
-/

namespace MindCore.Kernel.Cspace

open Ipc (Capability Node slotDynamic fixed)

def capSlots : Nat := 107

def capSlotsMax : Nat := 4096

def handleSlotMask : Nat := 0xFFFFFF

def handleGenerationShift : Nat := 24

def handleGenerationMax : Nat := 0xFFFFFFFF

/-- The capabilities, generations and nodes are vectors of length `len`. -/
structure Task where
  len : Nat
  cspace : Nat → Option Capability
  generations : Nat → Nat
  nodes : Nat → Node
  freed : List Nat

namespace Task

/-- A task as `spawn_internal` makes it, with these capabilities in its fixed slots. -/
def spawned (caps : Nat → Option Capability) (nodes : Nat → Node) : Task where
  len := capSlots
  cspace i := if i < slotDynamic then caps i else none
  generations _ := 1
  nodes i := if i < slotDynamic then nodes i else ⟨0, 0⟩
  freed := []

/-- A free kernel-allocated slot, or the next one the table can grow by. -/
def freeSlot (t : Task) : Option Nat :=
  ((List.range' slotDynamic (t.len - slotDynamic)).find? fun i => (t.cspace i).isNone).or
    (if t.len < capSlotsMax then some t.len else none)

def index (t : Task) (handle : Nat) : Option Nat :=
  let index := handle &&& handleSlotMask
  let generation := handle >>> handleGenerationShift
  if index = 0 ∨ t.len ≤ index then none
  else
    let expected := if index < slotDynamic then 0 else t.generations index
    if generation = expected then some index else none

def handle (t : Task) (index : Nat) : Nat :=
  if index < slotDynamic then index else index ||| t.generations index <<< handleGenerationShift

def cap (t : Task) (handle : Nat) : Option Capability := (t.index handle).bind t.cspace

/-- A free slot; `grows` says whether the frame pool can grow the table. -/
def room (t : Task) (grows : Bool) : Option (Nat × Task) :=
  t.freeSlot.bind fun index =>
    if index = t.len then
      let more := min t.len (capSlotsMax - t.len)
      if grows then
        some (index, { t with
          len := t.len + more
          cspace := fun i => if i < t.len then t.cspace i else none
          generations := fun i => if i < t.len then t.generations i else 1
          nodes := fun i => if i < t.len then t.nodes i else ⟨0, 0⟩ })
      else none
    else some (index, t)

def store (t : Task) (index : Nat) (cap : Capability) (node : Node) : Task :=
  { t with cspace := Function.update t.cspace index (some cap), nodes := Function.update t.nodes index node }

def insert (t : Task) (cap : Capability) (node : Node) (grows : Bool) : Option (Nat × Task) :=
  (t.room grows).map fun (index, t) => (t.handle index, t.store index cap node)

def clear (t : Task) (index : Nat) : Task :=
  { t with
    cspace := Function.update t.cspace index none
    generations := if slotDynamic ≤ index then
      Function.update t.generations index (t.generations index % handleGenerationMax + 1) else t.generations
    freed := index :: t.freed }

def remove (t : Task) (index : Nat) : Task := if (t.cspace index).isNone then t else t.clear index

/-- `place` for the task that sent: a move empties its slot if that still holds what was sent. -/
def placeFrom (t : Task) (index id : Nat) : Option Task :=
  if (t.nodes index).id ≠ id ∨ (t.cspace index).isNone then none else some (t.clear index)

/-- `place` for the task that receives; the pictures of a composited screen come the same way. -/
def placeTo (t : Task) (receive : Nat) (cap : Capability) (node : Node) : Task :=
  (t.remove receive).store receive cap node

end Task

/-- What the kernel does to the table. The slots it empties are ones a handle or an entry named. -/
inductive Step (t : Task) : Task → Prop
  | room {grows i u} : t.room grows = some (i, u) → Step t u
  | insert {cap node grows h u} : t.insert cap node grows = some (h, u) → Step t u
  | clear {i} : i < t.len → Step t (t.clear i)
  | remove {i} : i < t.len → Step t (t.remove i)
  | placeFrom {i id u} : i < t.len → t.placeFrom i id = some u → Step t u
  | placeTo {i cap node} : fixed i = true → Step t (t.placeTo i cap node)

abbrev Run : Task → Task → Prop := Relation.ReflTransGen Step

structure Inv (t : Task) : Prop where
  low : slotDynamic ≤ t.len
  high : t.len ≤ capSlotsMax
  slots : ∀ i, t.len ≤ i → t.cspace i = none ∧ t.freed.count i = 0
  generation : ∀ i, slotDynamic ≤ i → i < t.len → t.generations i = t.freed.count i % handleGenerationMax + 1

/-- What a run keeps: a slot that was not cleared holds what it held. -/
structure Kept (t u : Task) : Prop where
  inv : Inv u
  mono : ∀ i, t.freed.count i ≤ u.freed.count i
  slot : ∀ i c, slotDynamic ≤ i → u.freed.count i = t.freed.count i → t.cspace i = some c → u.cspace i = some c

variable {t u : Task} {i : Nat}

theorem Kept.refl (h : Inv t) : Kept t t := ⟨h, fun _ => le_rfl, fun _ _ _ _ hs => hs⟩

theorem Kept.trans {v : Task} (h : Kept t u) (k : Kept u v) : Kept t v where
  inv := k.inv
  mono i := (h.mono i).trans (k.mono i)
  slot i c hi hc hs := by
    have h1 := h.mono i
    have h2 := k.mono i
    exact k.slot i c hi (by omega) (h.slot i c hi (by omega) hs)

theorem spawned_inv (caps nodes) : Inv (.spawned caps nodes) where
  low := (by decide : slotDynamic ≤ capSlots)
  high := (by decide : capSlots ≤ capSlotsMax)
  slots i hi := by
    have hd : slotDynamic ≤ i := le_trans (by decide : slotDynamic ≤ capSlots) hi
    simp [Task.spawned, hd.not_gt]
  generation _ _ _ := rfl

section
variable (h : Inv t)
include h

theorem Inv.lt {c : Capability} (hs : t.cspace i = some c) : i < t.len := by
  by_contra hn
  simp [(h.slots i (Nat.le_of_not_lt hn)).1] at hs

/-- The slot `room` gives is a free kernel-allocated one. -/
theorem room_spec {grows : Bool} (hr : t.room grows = some (i, u)) :
    Kept t u ∧ slotDynamic ≤ i ∧ i < u.len ∧ u.cspace i = none := by
  have hlow := h.low
  rw [Task.room, Option.bind_eq_some_iff] at hr
  obtain ⟨j, hj, hr⟩ := hr
  rw [Task.freeSlot, Option.or_eq_some_iff] at hj
  rcases hj with hj | ⟨-, hj⟩
  · have hm := List.mem_range'_1.mp (List.mem_of_find?_eq_some hj)
    have hn := List.find?_some hj
    rw [if_neg (by omega)] at hr
    cases hr
    exact ⟨.refl h, hm.1, by omega, by simpa using hn⟩
  · -- The table is full and grows: what was there stays where it was.
    split_ifs at hj with hmax
    obtain rfl := Option.some.inj hj
    rw [if_pos rfl] at hr
    split_ifs at hr
    cases hr
    have h43 : slotDynamic = 43 := rfl
    refine ⟨⟨⟨by simp only; omega, by simp only; omega, ?_, ?_⟩, fun _ => le_rfl, ?_⟩, hlow, by simp only; omega, by simp⟩
    · intro i hi
      have hi : t.len ≤ i := by simp only at hi; omega
      exact ⟨if_neg hi.not_gt, (h.slots i hi).2⟩
    · intro i hi hlt
      rcases Nat.lt_or_ge i t.len with hin | hout
      · simpa only [if_pos hin] using h.generation i hi hin
      · simp [hout.not_gt, (h.slots i hout).2]
    · intro i c _ _ hs
      rw [← hs]
      exact if_pos (h.lt hs)

theorem store_kept {c : Capability} {node : Node} (hlt : i < t.len)
    (hi : slotDynamic ≤ i → t.cspace i = none) : Kept t (t.store i c node) where
  inv := by
    refine ⟨h.low, h.high, fun j hj => ?_, h.generation⟩
    have hne : j ≠ i := (hlt.trans_le hj).ne'
    simpa [Task.store, hne] using h.slots j hj
  mono _ := le_rfl
  slot j d hj _ hs := by
    have hne : j ≠ i := by
      rintro rfl
      simp [hi hj] at hs
    simpa [Task.store, hne] using hs

theorem clear_kept (hi : i < t.len) : Kept t (t.clear i) where
  inv := by
    refine ⟨h.low, h.high, fun j hj => ?_, fun j hj hlt => ?_⟩
    · have hne : j ≠ i := (hi.trans_le hj).ne'
      simpa [Task.clear, hne, hne.symm] using h.slots j hj
    · have hg := h.generation j hj hlt
      by_cases hij : i = j
      · subst hij
        simp [Task.clear, hj, hg, Nat.mod_add_mod]
      · rw [Task.clear, List.count_cons_of_ne hij, ← hg]
        split_ifs
        · exact Function.update_of_ne (Ne.symm hij) ..
        · rfl
  mono j := List.count_le_count_cons
  slot j c _ hc hs := by
    have hne : j ≠ i := by
      rintro rfl
      simp [Task.clear] at hc
    simpa [Task.clear, hne] using hs

theorem remove_kept (hi : i < t.len) : Kept t (t.remove i) := by
  rw [Task.remove]
  split_ifs
  · exact .refl h
  · exact clear_kept h hi

theorem insert_spec {c : Capability} {node : Node} {grows : Bool} {handle : Nat}
    (hr : t.insert c node grows = some (handle, u)) :
    Kept t u ∧ ∃ i, slotDynamic ≤ i ∧ i < u.len ∧ handle = u.handle i ∧ u.cspace i = some c := by
  rw [Task.insert, Option.map_eq_some_iff] at hr
  obtain ⟨⟨i, v⟩, hv, hr⟩ := hr
  cases hr
  obtain ⟨hk, hd, hlt, hn⟩ := room_spec h hv
  exact ⟨hk.trans (store_kept hk.inv hlt fun _ => hn), i, hd, hlt, rfl, Function.update_self ..⟩

theorem Step.kept (hs : Step t u) : Kept t u := by
  cases hs with
  | room hr => exact (room_spec h hr).1
  | insert hr => exact (insert_spec h hr).1
  | clear hi => exact clear_kept h hi
  | remove hi => exact remove_kept h hi
  | placeFrom hi hp =>
    rw [Task.placeFrom] at hp
    split_ifs at hp
    cases hp
    exact clear_kept h hi
  | @placeTo i _ _ hi =>
    simp only [fixed, Bool.and_eq_true, decide_eq_true_eq] at hi
    have hlow := h.low
    have hk := remove_kept h (i := i) (by omega)
    have hlow := hk.inv.low
    exact hk.trans (store_kept hk.inv (by omega) fun hd => by omega)

theorem Run.kept (hr : Run t u) : Kept t u := by
  induction hr with
  | refl => exact .refl h
  | tail _ hs ih => exact ih.trans (hs.kept ih.inv)

end

/-- A handle of a kernel-allocated slot has the slot and its generation side by side. -/
theorem handle_parts (hd : slotDynamic ≤ i) (hi : i < capSlotsMax) :
    t.handle i &&& handleSlotMask = i ∧ t.handle i >>> handleGenerationShift = t.generations i := by
  have hlt : i < 2 ^ 24 := hi.trans (by decide)
  have he : t.handle i = t.generations i * 2 ^ 24 + i := by
    rw [Task.handle, if_neg (by omega), Nat.or_comm, handleGenerationShift,
      ← Nat.shiftLeft_add_eq_or_of_lt hlt, Nat.shiftLeft_eq]
  have hm : handleSlotMask = 2 ^ 24 - 1 := by decide
  rw [he, hm, Nat.and_two_pow_sub_one_eq_mod, handleGenerationShift, Nat.shiftRight_eq_div_pow]
  omega

/-- The handle an insertion returned names what was inserted until its slot is freed, and then nothing,
whatever is put in the slot later. -/
theorem handle_exact {caps : Nat → Option Capability} {nodes : Nat → Node} {v : Task} {c : Capability}
    {node : Node} {grows : Bool} {h : Nat} (before : Run (.spawned caps nodes) t)
    (inserted : t.insert c node grows = some (h, u)) (after : Run u v)
    (few : ∀ i, v.freed.count i < handleGenerationMax) :
    (v.freed.count (h &&& handleSlotMask) = u.freed.count (h &&& handleSlotMask) → v.cap h = some c) ∧
      (v.freed.count (h &&& handleSlotMask) ≠ u.freed.count (h &&& handleSlotMask) → v.index h = none) := by
  obtain ⟨hu, i, hd, hi, rfl, hs⟩ := insert_spec (before.kept (spawned_inv caps nodes)).inv inserted
  have hv := after.kept hu.inv
  obtain ⟨hmask, hshift⟩ := handle_parts (t := u) hd (hi.trans_le hu.inv.high)
  have hg := hu.inv.generation i hd hi
  have hmono := hv.mono i
  have hfew := few i
  rw [Nat.mod_eq_of_lt (by omega)] at hg
  rw [hmask]
  constructor
  · intro heq
    have hslot := hv.slot i c hd heq hs
    have hlt := hv.inv.lt hslot
    have hgv := hv.inv.generation i hd hlt
    rw [heq, Nat.mod_eq_of_lt (by omega)] at hgv
    have hpos : i ≠ 0 := by
      rintro rfl
      simp [slotDynamic] at hd
    simp [Task.cap, Task.index, hmask, hshift, hpos, hlt.not_ge, hd.not_gt, hg, hgv, hslot]
  · intro hne
    simp only [Task.index, hmask, hshift]
    split_ifs with hout hfix heq heq
    · rfl
    · omega
    · rfl
    · have hgv := hv.inv.generation i hd (by omega)
      rw [Nat.mod_eq_of_lt hfew] at hgv
      omega
    · rfl

def firstTaken : Task := (Task.spawned (fun _ => none) fun _ => ⟨0, 0⟩).store 43 .platform ⟨1, 0⟩

/-- The first handle of a task, and its slot dropped and taken again. -/
theorem handle_exact_reused : firstTaken.cap 0x100002B = some .platform ∧
      ((firstTaken.remove 43).store 43 .restart ⟨2, 0⟩).index 0x100002B = none := by
  have first : (Task.spawned (fun _ => none) fun _ => ⟨0, 0⟩).insert .platform ⟨1, 0⟩ true =
      some (0x100002B, firstTaken) := rfl
  have second : (firstTaken.remove 43).insert .restart ⟨2, 0⟩ true =
      some (0x200002B, (firstTaken.remove 43).store 43 .restart ⟨2, 0⟩) := rfl
  have few (i : Nat) : [43].count i < handleGenerationMax := List.count_le_length.trans_lt (by decide)
  constructor
  · exact (handle_exact .refl first .refl fun _ => (by decide : 0 < handleGenerationMax)).1 rfl
  · exact (handle_exact .refl first (.tail (.single (.remove (by decide))) (.insert second)) few).2 (by decide)

end MindCore.Kernel.Cspace
