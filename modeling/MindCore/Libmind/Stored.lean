import MindCore.Lib.Keyed
import MindCore.Libmind.DagBuild
import MindCore.Libmind.TreeDiff
import MindCore.Libmind.Watched
import MindCore.Libmind.Canonical

/-!
# The tree a root names

What a store holds as a map from CIDs to blocks, and the directory tree a root names in it: the
entries of each directory, and what a path names. A tour that accepts a root says of every entry
under it that it is there, with the size its parent gives it, and that no directory lies deeper
than `depth`.
-/

namespace MindCore

open List Proc

namespace Dag

section
variable {B : Type} [BlockSource B]

/-- The store answers as the map `view` of its state, and reading changes nothing. -/
structure Mirrors (view : B → Cid → Option Bytes) : Prop where
  get_ok : ∀ {s t cid b}, (BlockSource.get cid chunk).run s = .ok b t ↔
    view s cid = some b ∧ b.length ≤ chunk ∧ t = s

theorem Mirrors.counted {view : B → Cid → Option Bytes} (hr : Mirrors view) :
    Mirrors fun s : Counted B => view s.blocks where
  get_ok {s t cid b} := by
    constructor
    · intro h
      obtain ⟨m, hget, rfl⟩ := Counted.lift_ok h
      obtain ⟨hb, hl, rfl⟩ := hr.get_ok.mp hget
      exact ⟨hb, hl, rfl⟩
    · rintro ⟨hb, hl, rfl⟩
      change (Counted.lift (BlockSource.get cid chunk)).run t = _
      rw [Counted.run_lift, hr.get_ok.mpr ⟨hb, hl, rfl⟩]

end

section
variable [Sha256]

def blockOf (look : Cid → Option Bytes) (cid : Cid) : Option Bytes :=
  (look cid).filter fun b => b.length ≤ chunk ∧ cid.Matches b

variable {look : Cid → Option Bytes} {cid : Cid} {b : Bytes}

theorem blockOf_eq_some :
    blockOf look cid = some b ↔ look cid = some b ∧ b.length ≤ chunk ∧ cid.Matches b := by
  simp [blockOf, Option.filter_eq_some_iff]

theorem memory_mirrors : Mirrors Memory.held where
  get_ok {s t cid b} := by
    change (Memory.get cid chunk).run s = _ ↔ _
    unfold Memory.get
    rw [bind_ok (run_get s)]
    cases hb : s.held cid with
    | none =>
      constructor
      · nofun
      · rintro ⟨h, -⟩
        cases h
    | some b' =>
      rw [Proc.orError_some, pure_bind, ensure_bind_ok, pure_ok]
      constructor
      · rintro ⟨hl, rfl, rfl⟩
        exact ⟨rfl, hl, rfl⟩
      · rintro ⟨h, hl, rfl⟩
        cases h
        exact ⟨hl, rfl, rfl⟩

def nodeOf (look : Cid → Option Bytes) (cid : Cid) : Option Node :=
  if cid.codec = .dagCbor then (blockOf look cid).bind fun b => (decode b).toOption else none

def sizeOf (look : Cid → Option Bytes) (cid : Cid) : Option Nat :=
  match cid.codec with
  | .raw => (blockOf look cid).map List.length
  | .dagCbor => ((nodeOf look cid).filter fun n =>
      height n.size ≠ 0 ∧ (n.check (height n.size) n.size).isOk).map Node.size

theorem decoded_eq_some {α ε : Type} {decode : Bytes → Except ε α} {x : α} :
    (if cid.codec = .dagCbor then (blockOf look cid).bind fun b => (decode b).toOption else none) = some x ↔
      cid.codec = .dagCbor ∧ ∃ b, blockOf look cid = some b ∧ decode b = .ok x := by
  by_cases hc : cid.codec = .dagCbor
  · rw [if_pos hc, Option.bind_eq_some_iff]
    simp only [hc, true_and]
    refine exists_congr fun b => and_congr_right fun _ => ?_
    cases decode b <;> simp [Except.toOption]
  · simp [hc]

theorem nodeOf_eq_some {n : Node} : nodeOf look cid = some n ↔
      cid.codec = .dagCbor ∧ ∃ b, blockOf look cid = some b ∧ decode b = .ok n := decoded_eq_some

variable {B : Type} [BlockSource B] {view : B → Cid → Option Bytes} (hr : Mirrors view)
include hr

variable {s t : B}

theorem Mirrors.fetch_bind {α : Type} {f : Bytes → Proc Error B α} {a : α} : (fetch cid >>= f).run s = .ok a t ↔
      ∃ b, blockOf (view s) cid = some b ∧ (f b).run s = .ok a t := by
  unfold fetch
  rw [bind_assoc, bind_eq_ok]
  simp only [bind_assoc, ensure_bind_ok, pure_bind, blockOf_eq_some, hr.get_ok]
  constructor
  · rintro ⟨b, m, ⟨hb, hl, rfl⟩, hm, hf⟩
    exact ⟨b, ⟨hb, hl, hm⟩, hf⟩
  · rintro ⟨b, ⟨hb, hl, hm⟩, hf⟩
    exact ⟨b, s, ⟨hb, hl, rfl⟩, hm, hf⟩

theorem Mirrors.node_bind {α : Type} {f : Node → Proc Error B α} {a : α} : (node cid >>= f).run s = .ok a t ↔
      ∃ n, nodeOf (view s) cid = some n ∧ (f n).run s = .ok a t := by
  unfold node
  simp only [bind_assoc, ensure_bind_ok, hr.fetch_bind, ofExcept_bind_ok, nodeOf_eq_some]
  constructor
  · rintro ⟨hc, b, hb, n, hn, hf⟩
    exact ⟨n, ⟨hc, b, hb, hn⟩, hf⟩
  · rintro ⟨n, ⟨hc, b, hb, hn⟩, hf⟩
    exact ⟨hc, b, hb, n, hn, hf⟩

theorem Mirrors.size_ok {n : Nat} : (size cid).run s = .ok n t ↔ sizeOf (view s) cid = some n ∧ t = s := by
  unfold size sizeOf
  cases cid.codec with
  | raw =>
    simp only [hr.fetch_bind, pure_ok, Option.map_eq_some_iff]
    constructor
    · rintro ⟨b, hb, rfl, rfl⟩
      exact ⟨⟨b, hb, rfl⟩, rfl⟩
    · rintro ⟨⟨b, hb, rfl⟩, rfl⟩
      exact ⟨b, hb, rfl, rfl⟩
  | dagCbor =>
    simp only [hr.node_bind, ensure_bind_ok, ofExcept_bind_ok, pure_ok,
      Option.map_eq_some_iff, Option.filter_eq_some_iff, decide_eq_true_eq]
    constructor
    · rintro ⟨node, hn, hh, u, hc, rfl, rfl⟩
      exact ⟨⟨node, ⟨hn, hh, by rw [hc]; rfl⟩, rfl⟩, rfl⟩
    · rintro ⟨⟨node, ⟨hn, hh, hc⟩, rfl⟩, rfl⟩
      refine ⟨node, hn, hh, ⟨⟩, ?_, rfl, rfl⟩
      cases h : node.check (height node.size) node.size with
      | ok u => rfl
      | error e =>
        rw [h] at hc
        cases hc

variable {P : B → Prop} {visit : Cid → Proc Error B PUnit} (hv : ∀ cid, Proc.Keeps P (visit cid))
include hv

theorem Mirrors.lowest_keeps (k : Nat) (cid : Cid) (held within : Nat) :
    Proc.Keeps P (lowest visit k cid held within) := by
  induction k generalizing cid held within with
  | zero =>
    intro s low t hs h
    simp only [lowest, hr.node_bind, ofExcept_bind_ok, pure_ok] at h
    obtain ⟨n, -, u, -, -, rfl⟩ := h
    exact hs
  | succ k ih =>
    intro s low t hs h
    simp only [lowest, hr.node_bind, ofExcept_bind_ok] at h
    obtain ⟨n, -, u, -, h⟩ := h
    obtain ⟨u', m, hvis, h⟩ := bind_eq_ok.mp h
    exact ih _ _ _ (hv _ hs hvis) h

theorem Mirrors.walk_size {n : Nat} (hs : P s) (hP : ∀ t, P t → view t = view s)
    (h : (walk cid visit).run s = .ok n t) : sizeOf (view s) cid = some n ∧ P t := by
  obtain ⟨_, m, hvis, h⟩ := bind_eq_ok.mp h
  have hm := hv cid hs hvis
  obtain ⟨total, m', hsize, hrest⟩ := bind_eq_ok.mp h
  obtain ⟨hof, rfl⟩ := hr.size_ok.mp hsize
  rw [hP _ hm] at hof
  split at hrest
  · obtain ⟨rfl, rfl⟩ := pure_ok.mp hrest
    exact ⟨hof, hm⟩
  · obtain ⟨_, m, heach, hend⟩ := bind_eq_ok.mp hrest
    obtain ⟨rfl, rfl⟩ := pure_ok.mp hend
    refine ⟨hof, Proc.Keeps.each (fun under => ?_) _ hm heach⟩
    intro s' u t' hs' h'
    obtain ⟨low, m', hlow, h'⟩ := bind_eq_ok.mp h'
    exact Proc.Keeps.each hv _ (hr.lowest_keeps hv _ _ _ _ hs' hlow) h'

end

end Dag

namespace Tree

open Dag (Error BlockSource Mirrors blockOf sizeOf chunk)

section
variable [Sha256]

def dirOf (look : Cid → Option Bytes) (cid : Cid) : Option (List Entry) :=
  if cid.codec = .dagCbor then (blockOf look cid).bind fun b => (decode b).toOption else none

def topOf (look : Cid → Option Bytes) : Option Cid → Option (List Entry)
  | none => some []
  | some cid => dirOf look cid

def under (look : Cid → Option Bytes) (e : Entry) : List Entry :=
  if e.kind = .directory then (dirOf look e.cid).getD [] else []

def sideAt (look : Cid → Option Bytes) : List Entry → List Bytes → Option Side
  | _, [] => none
  | es, [name] => (Keyed.find Entry.name name es).map Entry.side
  | es, name :: next :: rest =>
    match Keyed.find Entry.name name es with
    | none => none
    | some e => sideAt look (under look e) (next :: rest)

/-- An entry is there with everything under it: a file as `file` says, a directory with as
many entries as the entry says, and at most `k` directories one under the other. -/
def Sound (look : Cid → Option Bytes) (file : Cid → Nat → Prop) : Nat → Entry → Prop
  | 0, e => e.kind = .file ∧ file e.cid e.size
  | k + 1, e =>
    match e.kind with
    | .file => file e.cid e.size
    | .directory => ∃ es, dirOf look e.cid = some es ∧ es.length = e.size ∧ ∀ e' ∈ es, Sound look file k e'

variable {es : List Entry}

theorem dirOf_eq_some : dirOf look cid = some es ↔
      cid.codec = .dagCbor ∧ ∃ b, blockOf look cid = some b ∧ decode b = .ok es := Dag.decoded_eq_some

end

theorem directory_ok {data : Bytes} : directory data = .ok es ↔ decode data = .ok es := by
  unfold directory
  cases h : decode data with
  | ok dir => rfl
  | error e =>
    constructor
    · intro hd
      dsimp only at hd
      split at hd
      · split at hd <;> cases hd
      · cases hd
    · nofun

theorem keyed_of_ascending {last : Bytes} (h : ascending last es) :
    (∀ e ∈ es, last < e.name) ∧ Keyed.Ascending Entry.name es := by
  induction es generalizing last with
  | nil => exact ⟨fun e he => absurd he not_mem_nil, Keyed.ascending_nil⟩
  | cons e es ih =>
    simp only [ascending, Bool.and_eq_true, decide_eq_true_eq] at h
    obtain ⟨hall, hasc⟩ := ih h.2
    refine ⟨fun x hx => ?_, Keyed.ascending_cons.mpr ⟨hall, hasc⟩⟩
    rcases mem_cons.mp hx with rfl | hx
    · exact h.1
    · exact Std.lt_trans h.1 (hall x hx)

theorem decode_ascending (h : decode b = .ok es) : Keyed.Ascending Entry.name es := by
  obtain ⟨hv, hs, -⟩ := encode_eq_ok.mp (decode_sound h).2
  exact (keyed_of_ascending (ascending_of_sorted hv hs)).2

variable {e : Entry}

theorem decode_valid (h : decode b = .ok es) (he : e ∈ es) : e.valid := by
  obtain ⟨hv, -⟩ := encode_eq_ok.mp (decode_sound h).2
  exact all_eq_true.mp hv e he

theorem Entry.codec_of_directory (hv : e.valid) (hk : e.kind = .directory) : e.cid.codec = .dagCbor := by
  simp only [Entry.valid, hk, Bool.and_eq_true] at hv
  simpa using hv.2

section Walked
variable [Sha256] {B : Type} [BlockSource B] {view : B → Cid → Option Bytes}

/-- What is left of a directory a tour has on its stack, `level` directories down. -/
def Rest (look : Cid → Option Bytes) (file : Cid → Nat → Prop) (level : Nat) (d : Cid × Nat × Nat) : Prop :=
  ∃ es, dirOf look d.1 = some es ∧ es.length = d.2.1 ∧ ∀ e ∈ es.drop d.2.2, Sound look file (depth - level) e

def Rests (look : Cid → Option Bytes) (file : Cid → Nat → Prop) : List (Cid × Nat × Nat) → Prop
  | [] => True
  | d :: above => Rest look file (above.length + 1) d ∧ Rests look file above

variable {file : Cid → Nat → Prop}

theorem sound_file (hk : e.kind = .file) (h : file e.cid e.size) (k : Nat) : Sound look file k e := by
  cases k with
  | zero => exact ⟨hk, h⟩
  | succ k =>
    unfold Sound
    rw [hk]
    exact h

theorem sound_directory {k : Nat} (hk : e.kind = .directory) : Sound look file (k + 1) e ↔
      ∃ es, dirOf look e.cid = some es ∧ es.length = e.size ∧ ∀ e' ∈ es, Sound look file k e' := by
  rw [Sound, hk]

theorem tourFrom_sound (hr : Mirrors view) {visit : Cid → Proc Error (Counted B) PUnit}
    (hv : ∀ cid, Proc.Keeps (fun s : Counted B => view s.blocks = look) (visit cid))
    (hfile : ∀ cid, ∀ ⦃s n t⦄, view s.blocks = look → (fileAt true visit cid).run s = .ok n t →
      file cid n ∧ view t.blocks = look)
    {rounds : Nat} {stack : List (Cid × Nat × Nat)} {total n : Nat} {s t : Counted B}
    (hs : view s.blocks = look) (hc : ∀ d ∈ stack, d.1.codec = .dagCbor)
    (hl : stack.length ≤ depth)
    (h : (tourFrom true visit rounds stack total).run s = .ok n t) : Rests look file stack := by
  induction rounds generalizing stack total s with
  | zero => cases h
  | succ rounds ih =>
    rcases stack with _ | ⟨⟨cid, count, next⟩, above⟩
    · trivial
    have hca : ∀ d ∈ above, d.1.codec = .dagCbor := fun d hd => hc d (mem_cons_of_mem _ hd)
    have hcid : cid.codec = .dagCbor := hc _ mem_cons_self
    rw [length_cons] at hl
    simp only [tourFrom, hr.counted.fetch_bind, ofExcept_bind_ok, ensure_bind_ok, directory_ok] at h
    obtain ⟨data, hb, es, hd, hlen, h⟩ := h
    rw [hs] at hb
    have hdir : dirOf look cid = some es := dirOf_eq_some.mpr ⟨hcid, data, hb, hd⟩
    cases hnext : es[next]? with
    | none =>
      rw [hnext] at h
      refine ⟨⟨es, hdir, hlen, fun e he => ?_⟩, ih hs hca (by omega) h⟩
      rw [drop_eq_nil_of_le (getElem?_eq_none_iff.mp hnext)] at he
      exact absurd he not_mem_nil
    | some e =>
      rw [hnext] at h
      obtain ⟨hlt, hget⟩ := List.getElem?_eq_some_iff.mp hnext
      -- The entry itself, and those after it.
      have hrest : Sound look file (depth - (above.length + 1)) e →
          Rests look file ((cid, count, next + 1) :: above) →
          Rests look file ((cid, count, next) :: above) := by
        rintro hsound ⟨⟨es', hdir', -, hall⟩, habove⟩
        obtain rfl : es = es' := Option.some.inj (hdir.symm.trans hdir')
        refine ⟨⟨es, hdir, hlen, fun x hx => ?_⟩, habove⟩
        rw [drop_eq_getElem_cons hlt, hget] at hx
        rcases mem_cons.mp hx with rfl | hx
        · exact hsound
        · exact hall x hx
      have hstack : ∀ d ∈ (cid, count, next + 1) :: above, d.1.codec = .dagCbor := by
        intro d hd
        rcases mem_cons.mp hd with rfl | hd
        · exact hcid
        · exact hca d hd
      obtain ⟨_, m, hstep, h⟩ := bind_eq_ok.mp h
      obtain ⟨-, rfl⟩ := Counted.step_ok hstep
      have hs' : view (⟨s.blocks, s.left - 1⟩ : Counted B).blocks = look := hs
      cases hk : e.kind with
      | file =>
        rw [hk] at h
        obtain ⟨held, m, hf, h⟩ := bind_eq_ok.mp h
        obtain ⟨hfile, hm⟩ := hfile e.cid hs' hf
        simp only [ensure_bind_ok] at h
        obtain ⟨rfl, -, h⟩ := h
        exact hrest (sound_file hk hfile _) (ih hm hstack (by simpa using hl) h)
      | directory =>
        rw [hk] at h
        simp only [ensure_bind_ok] at h
        obtain ⟨hdeep, h⟩ := h
        obtain ⟨_, m, hvis, h⟩ := bind_eq_ok.mp h
        have hm := hv e.cid hs' hvis
        have hmem : e ∈ es := hget ▸ getElem_mem hlt
        have hstack' : ∀ d ∈ (e.cid, e.size, 0) :: (cid, count, next + 1) :: above,
            d.1.codec = .dagCbor := by
          intro d hd'
          rcases mem_cons.mp hd' with rfl | hd'
          · exact Entry.codec_of_directory (decode_valid hd hmem) hk
          · exact hstack d hd'
        obtain ⟨⟨es', hes', hlen', hall⟩, habove⟩ := ih hm hstack' (by simp; omega) h
        refine hrest ?_ habove
        obtain ⟨k, hk'⟩ : ∃ k, depth - (above.length + 1) = k + 1 := ⟨depth - (above.length + 2), by omega⟩
        rw [hk', sound_directory hk]
        refine ⟨es', hes', hlen', fun x hx => ?_⟩
        have := hall x (by simpa using hx)
        rwa [show depth - (((cid, count, next + 1) :: above).length + 1) = k by
          simp only [length_cons]; omega] at this

theorem entries_ok (hr : Mirrors view) {s : B} {root : Cid}
    (h : dirOf (view s) root = some es) : (entries root).run s = .ok (some es.length) s := by
  obtain ⟨hc, b, hb, hd⟩ := dirOf_eq_some.mp h
  unfold entries
  rw [if_pos hc, hr.fetch_bind]
  refine ⟨b, hb, ?_⟩
  rw [hd]
  rfl

omit [Sha256] [BlockSource B] in
theorem stepped_keeps (look : Cid → Option Bytes) (cid : Cid) :
    Proc.Keeps (fun s : Counted B => view s.blocks = look) (stepped (fun _ => pure ⟨⟩) cid) := by
  intro s u t hs h
  obtain ⟨_, m, hstep, h⟩ := bind_eq_ok.mp h
  obtain ⟨-, rfl⟩ := Counted.step_ok hstep
  obtain ⟨b, hb, rfl⟩ := Counted.lift_ok h
  obtain ⟨-, rfl⟩ := pure_ok.mp hb
  exact hs

/-- Whether `walk` accepts the directory tree under `root`, the empty tree for none. -/
def Accepted (s : B) : Option Cid → Prop
  | none => True
  | some root => (∃ steps n t, (walk root steps fun _ => pure ⟨⟩).run s = .ok n t) ∧
      ∃ n t, (entries root).run s = .ok (some n) t

theorem entries_some (hr : Mirrors view) {root : Cid} {n : Nat}
    (h : (entries root).run s = .ok (some n) t) : ∃ es, dirOf (view s) root = some es := by
  unfold entries at h
  split at h
  case isTrue hc =>
    obtain ⟨b, hb, h⟩ := hr.fetch_bind.mp h
    cases hd : decode b with
    | ok es => exact ⟨es, dirOf_eq_some.mpr ⟨hc, b, hb, hd⟩⟩
    | error e =>
      rw [hd] at h
      cases h
  case isFalse => cases h

/-- Every entry of a tree that `walk` accepts is sound. -/
theorem Accepted.sound (hr : Mirrors view) {s : B} {root : Option Cid} (h : Accepted s root) :
    ∃ es, topOf (view s) root = some es ∧ Keyed.Ascending Entry.name es ∧
      ∀ e ∈ es, Sound (view s) (fun cid n => sizeOf (view s) cid = some n) (depth - 1) e := by
  cases root with
  | none => exact ⟨[], rfl, Keyed.ascending_nil, fun e he => absurd he not_mem_nil⟩
  | some root =>
    obtain ⟨⟨steps, n, t, hw⟩, n', t', he⟩ := h
    obtain ⟨es, hd⟩ := entries_some hr he
    obtain ⟨hc, b, -, hb⟩ := dirOf_eq_some.mp hd
    refine ⟨es, hd, decode_ascending hb, ?_⟩
    obtain ⟨left, hw⟩ := Counted.within_ok hw
    have hent : (entries root).run (⟨s, steps⟩ : Counted B) = .ok (some es.length) ⟨s, steps⟩ :=
      entries_ok hr.counted hd
    rw [walkFrom, tour, bind_ok hent] at hw
    obtain ⟨_, m, hvis, hw⟩ := bind_eq_ok.mp hw
    have hm : view m.blocks = view s := stepped_keeps (view s) root rfl hvis
    rw [get_bind] at hw
    have hfile : ∀ cid, ∀ ⦃s' n t⦄, view s'.blocks = view s →
        (fileAt true (stepped fun _ => pure ⟨⟩) cid).run s' = .ok n t →
        sizeOf (view s) cid = some n ∧ view t.blocks = view s := by
      intro cid s' n t hs' hf
      have := hr.counted.walk_size (P := fun s' : Counted B => view s'.blocks = view s)
        (stepped_keeps (view s)) hs' (fun t ht => ht.trans hs'.symm) (fileAt_ok hf)
      rwa [hs'] at this
    have hstack : ∀ d ∈ [(root, es.length, 0)], d.1.codec = .dagCbor := by
      intro d hd'
      rw [mem_singleton.mp hd']
      exact hc
    obtain ⟨⟨es', hes', -, hall⟩, -⟩ := tourFrom_sound hr (stepped_keeps (view s)) hfile hm hstack
      (by simp [depth]) hw
    obtain rfl : es = es' := Option.some.inj (hd.symm.trans hes')
    exact hall

end Walked

end Tree

end MindCore
