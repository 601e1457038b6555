import MindCore.Libmind.Stored

/-!
# What a comparison visits

The changes between two directory trees as a function of what the store holds: the names of
both directories of a pair are joined in order, and two directories that differ are compared in
their turn. `diff` visits these changes: over the entries of a pair one stretch of its inner loop
a name, over its stack one pair at a time.
-/

namespace MindCore.Tree

open List Proc
open Dag (Error BlockSource Mirrors blockOf)

def joined : List Bytes → Bytes
  | [] => []
  | name :: [] => name
  | name :: next :: rest => name ++ 0x2f :: joined (next :: rest)

theorem joined_snoc (p : List Bytes) (name : Bytes) :
    joined (p ++ [name]) = if p = [] then name else joined p ++ 0x2f :: name := by
  induction p with
  | nil => rfl
  | cons n p ih =>
    cases p with
    | nil => rfl
    | cons m p =>
      simp only [cons_append, joined] at ih ⊢
      rw [ih]
      simp

def Names (p : List Bytes) : Prop := ∀ name ∈ p, validName name

variable {p : List Bytes}

theorem joined_length_le (h : Names p) : (joined p).length ≤ p.length * (nameMax + 1) := by
  induction p with
  | nil => simp [joined]
  | cons n p ih =>
    have hn := (validName_length (h n mem_cons_self)).2
    have hp := ih fun m hm => h m (mem_cons_of_mem n hm)
    cases p with
    | nil =>
      simp only [joined, length_cons, length_nil]
      omega
    | cons m p =>
      simp only [joined, length_append, length_cons] at hp ⊢
      rw [Nat.add_mul _ 1]
      omega

theorem joined_pos (h : Names p) (hp : p ≠ []) : 0 < (joined p).length := by
  cases p with
  | nil => exact absurd rfl hp
  | cons n p =>
    have hn := (validName_length (h n mem_cons_self)).1
    cases p with
    | nil =>
      rw [joined]
      omega
    | cons m p =>
      simp only [joined, length_append, length_cons]
      omega

/-! ## The changes -/

section Changes
variable [Sha256] (look : Cid → Option Bytes)

/-- The changes at one name, `deeper` those between two directories. -/
def changesAt (deeper : List Entry → List Entry → List (List Bytes × Change)) :
    Bytes × Option Entry × Option Entry → List (List Bytes × Change)
  | (name, some x, some y) =>
    if x.side = y.side then []
    else if x.kind = .directory ∧ y.kind = .directory then
      (deeper (under look x) (under look y)).map fun c => (name :: c.1, c.2)
    else [([name], .changed x.side y.side)]
  | (name, some x, none) => [([name], .removed x.side)]
  | (name, none, some y) => [([name], .added y.side)]
  | (_, none, none) => []

/-- The changes between two directories with at most `k` directories one under the other,
these included. -/
def changes : Nat → List Entry → List Entry → List (List Bytes × Change)
  | 0, _, _ => []
  | k + 1, xs, ys => (Keyed.join Entry.name xs ys).flatMap (changesAt look (changes k))

end Changes

/-! ## The run of a comparison -/

abbrev Visited := List (Bytes × Change)

def record (path : Bytes) (change : Change) : Proc Error Visited PUnit := modify (· ++ [(path, change)])

def shown (p : List Bytes) (c : List Bytes × Change) : Bytes × Change := (joined (p ++ c.1), c.2)

section Run
variable {B : Type}

/-- What a stretch of a comparison does below the path of length `keep`: at most `n` steps, the
store as it was, and `vs` visited. -/
structure After (n keep : Nat) (vs : Visited) (s t : Comparing B Visited) : Prop where
  blocks : t.store.blocks = s.store.blocks
  left : s.store.left ≤ t.store.left + n
  length : t.path.length = s.path.length
  path : t.path.take keep = s.path.take keep
  seen : t.seen = s.seen ++ vs

theorem After.refl (keep : Nat) (s : Comparing B Visited) : After 0 keep [] s s :=
  ⟨rfl, Nat.le_refl _, rfl, rfl, (append_nil _).symm⟩

variable {n at_ : Nat} {s t : Comparing B Visited} {vs : Visited} {buffer data name : Bytes}
    {y : Entry}

variable {keep i' j' : Nat}

theorem After.trans {m : Nat} {ws : Visited} {u : Comparing B Visited}
    (h : After n keep vs s t) (h' : After m keep ws t u) : After (n + m) keep (vs ++ ws) s u where
  blocks := h'.blocks.trans h.blocks
  left := by
    have := h.left
    have := h'.left
    omega
  length := h'.length.trans h.length
  path := h'.path.trans h.path
  seen := by rw [h'.seen, h.seen, append_assoc]

theorem After.keepLess (h : After n keep vs s t) {keep' : Nat} (hk : keep' ≤ keep) : After n keep' vs s t :=
  { h with
    path := by
      have := congrArg (List.take keep') h.path
      rwa [take_take, take_take, Nat.min_eq_left hk] at this }

/-- The directory of `pair` lies at the path `p`, which the buffer holds. -/
structure At (pair : Pair) (p : List Bytes) (buffer : Bytes) : Prop where
  len : pair.path = (joined p).length
  buffer : buffer.take pair.path = joined p
  names : Names p
  deep : p.length < depth

variable {pair : Pair}

theorem At.after (h : At pair p s.path) (ha : After n pair.path vs s t) : At pair p t.path :=
  { h with buffer := ha.path.trans h.buffer }

section
variable (h : at_ + data.length ≤ buffer.length)
include h

theorem length_write :
    (write buffer at_ data).length = buffer.length := by
  simp only [write, length_append, length_take, length_drop]
  omega

theorem take_write
    (hn : n ≤ at_) : (write buffer at_ data).take n = buffer.take n := by
  rw [write, append_assoc, take_append_of_le_length (by rw [length_take]; omega),
    take_take, Nat.min_eq_left hn]

theorem take_write_all :
    (write buffer at_ data).take (at_ + data.length) = buffer.take at_ ++ data := by
  rw [write, take_append_of_le_length (by
    rw [length_append, length_take]
    omega), take_of_length_le (by
    rw [length_append, length_take]
    omega)]

end

theorem enter_run (h : At pair p s.path) (hn : validName name) (hmax : pathMax ≤ s.path.length) :
    ∃ t, (enter pair name).run s = .ok (joined (p ++ [name])).length t ∧
      After 0 pair.path [] s t ∧
      t.path.take (joined (p ++ [name])).length = joined (p ++ [name]) := by
  have hnames : Names (p ++ [name]) := by
    intro m hm
    rcases mem_append.mp hm with hm | hm
    · exact h.names m hm
    · rwa [mem_singleton.mp hm]
  have hfits : (joined (p ++ [name])).length ≤ s.path.length := by
    refine Nat.le_trans (joined_length_le hnames) (Nat.le_trans ?_ hmax)
    rw [length_append, length_singleton, pathMax]
    exact Nat.mul_le_mul_right _ h.deep
  rw [joined_snoc] at hfits ⊢
  by_cases hp : p = []
  · have hzero : pair.path = 0 := by rw [h.len, hp]; rfl
    have hstart : pair.start = 0 := by simp [Pair.start, hzero]
    rw [if_pos hp] at hfits ⊢
    refine ⟨{ s with path := write s.path 0 name }, ?_, ⟨rfl, Nat.le_refl _, ?_, ?_, ?_⟩, ?_⟩
    · unfold enter
      rw [get_bind, hstart, Nat.zero_add]
      dsimp only
      rw [ensure_pos hfits, pure_bind, hzero, if_neg (Nat.lt_irrefl 0)]
      rfl
    · exact length_write (by omega)
    · rw [hzero, take_zero, take_zero]
    · rw [append_nil]
    · have hall : (write s.path 0 name).take (0 + name.length) = s.path.take 0 ++ name :=
        take_write_all (by omega)
      simpa using hall
  · have hpos : 0 < pair.path := by rw [h.len]; exact joined_pos h.names hp
    have hstart : pair.start = pair.path + 1 := by simp [Pair.start, hpos]
    rw [if_neg hp] at hfits ⊢
    have hlen : (joined p ++ 0x2f :: name).length = pair.path + 1 + name.length := by
      rw [length_append, length_cons, h.len]
      omega
    rw [hlen] at hfits ⊢
    have hslash : pair.path + [(0x2f : UInt8)].length ≤ s.path.length := by
      rw [length_singleton]
      omega
    have hlw : (write s.path pair.path [0x2f]).length = s.path.length := length_write hslash
    refine ⟨{ s with path := write (write s.path pair.path [0x2f]) (pair.path + 1) name }, ?_,
      ⟨rfl, Nat.le_refl _, ?_, ?_, ?_⟩, ?_⟩
    · unfold enter
      rw [get_bind, hstart]
      dsimp only
      rw [ensure_pos hfits, pure_bind, if_pos hpos]
      rfl
    · rw [length_write (by omega), hlw]
    · rw [take_write (by omega) (by omega), take_write hslash (Nat.le_refl _)]
    · rw [append_nil]
    · have hall := take_write_all hslash
      rw [take_write_all (by omega), ← length_singleton (a := (0x2f : UInt8)), hall, h.buffer]
      simp

theorem visitAt_run (h : At pair p s.path)
    (hn : validName name) (hmax : pathMax ≤ s.path.length) (change : Change) :
    ∃ t, (visitAt record pair name change).run s = .ok ⟨⟩ t ∧
      After 0 pair.path [shown p ([name], change)] s t := by
  obtain ⟨t, hrun, ha, hpath⟩ := enter_run h hn hmax
  refine ⟨{ t with seen := t.seen ++ [shown p ([name], change)] }, ?_, ?_⟩
  · unfold visitAt
    rw [bind_ok hrun, get_bind, hpath]
    rfl
  · exact { ha with seen := by rw [ha.seen, append_nil] }

theorem step_run (h : 0 < s.store.left) (keep : Nat) :
    ∃ t, (Comparing.onStore Counted.step).run s = .ok ⟨⟩ t ∧ After 1 keep [] s t ∧
      t.path = s.path := by
  refine ⟨{ s with store := ⟨s.store.blocks, s.store.left - 1⟩ }, ?_, ?_, rfl⟩
  · rw [Comparing.run_onStore, Counted.step_pos h]
  · refine ⟨rfl, ?_, rfl, rfl, (append_nil _).symm⟩
    change s.store.left ≤ s.store.left - 1 + 1
    omega

theorem step_visit_run {α : Type}
    (hat : At pair p s.path) (hn : validName name) (hmax : pathMax ≤ s.path.length)
    (hleft : 0 < s.store.left) (change : Change) (g : Proc Error (Comparing B Visited) α) :
    ∃ t, After 1 pair.path [shown p ([name], change)] s t ∧
      (Comparing.onStore Counted.step >>= fun _ => visitAt record pair name change >>= fun _ => g).run s =
        g.run t := by
  obtain ⟨m, hstep, ha, hpath⟩ := step_run hleft pair.path
  have hat' : At pair p m.path := hpath ▸ hat
  obtain ⟨t, hvisit, ha'⟩ := visitAt_run hat' hn (hpath ▸ hmax) change
  refine ⟨t, ha.trans ha', ?_⟩
  rw [bind_ok hstep, bind_ok hvisit]

section Compare

def Down : Bytes × Option Entry × Option Entry → Prop
  | (_, some x, some y) => x.side ≠ y.side ∧ x.kind = .directory ∧ y.kind = .directory
  | _ => False

variable {i j level : Nat} {x : Entry} {xs ys : List Entry} {pair : Pair}

theorem drop_cons (h : xs[i]? = some x) : xs.drop i = x :: xs.drop (i + 1) := by
  obtain ⟨hlt, hget⟩ := List.getElem?_eq_some_iff.mp h
  rw [drop_eq_getElem_cons hlt, hget]

theorem drop_nil (h : xs[i]? = none) : xs.drop i = [] :=
  drop_eq_nil_of_le (getElem?_eq_none_iff.mp h)

variable {rest : List (Bytes × Option Entry × Option Entry)} {p : List Bytes}

theorem join_both (hj : Keyed.join Entry.name (xs.drop i) (ys.drop j) = (name, some x, some y) :: rest) :
    xs[i]? = some x ∧ ys[j]? = some y ∧ x.name = name ∧ y.name = name ∧
      Keyed.join Entry.name (xs.drop (i + 1)) (ys.drop (j + 1)) = rest := by
  cases hx : xs[i]? with
  | none =>
    cases hy : ys[j]? with
    | none =>
      rw [drop_nil hx, drop_nil hy, Keyed.join_nil] at hj
      cases hj
    | some y' =>
      rw [drop_nil hx, drop_cons hy, Keyed.join_right] at hj
      cases hj
  | some x' =>
    cases hy : ys[j]? with
    | none =>
      rw [drop_nil hy, drop_cons hx, Keyed.join_left] at hj
      cases hj
    | some y' =>
      rw [drop_cons hx, drop_cons hy] at hj
      by_cases hname : x'.name = y'.name
      · rw [Keyed.join_same hname] at hj
        obtain ⟨heq, hrest⟩ := List.cons.inj hj
        cases heq
        exact ⟨rfl, rfl, rfl, hname.symm, hrest⟩
      · by_cases hlt : y'.name < x'.name
        · rw [Keyed.join_after hname hlt] at hj
          cases hj
        · rw [Keyed.join_before hname hlt] at hj
          cases hj

theorem compareFrom_down (hx : xs[i]? = some x) (hy : ys[j]? = some y)
    (hname : x.name = y.name) (hv : validName x.name) (hdown : Down (x.name, some x, some y))
    (hlevel : level < depth) (r changes : Nat)
    (hleft : 0 < s.store.left) (hat : At pair p s.path) (hmax : pathMax ≤ s.path.length) :
    ∃ s', After 1 pair.path [] s s' ∧
      s'.path.take (joined (p ++ [x.name])).length = joined (p ++ [x.name]) ∧
      (compareFrom record pair level xs ys (r + 1) i j changes).run s =
        .ok (some (x, y, (joined (p ++ [x.name])).length), i + 1, j + 1, changes) s' := by
  obtain ⟨m, hstep, ha, hpath⟩ := step_run hleft pair.path
  obtain ⟨s', henter, ha', htake⟩ := enter_run (hpath ▸ hat) hv (hpath ▸ hmax)
  refine ⟨s', ha.trans ha', htake, ?_⟩
  rw [compareFrom, hx, hy]
  simp only [if_pos hname, if_neg hdown.1, if_pos hdown.2]
  rw [bind_ok hstep, bind_ok henter, ensure_pos hlevel]
  rfl

theorem compareFrom_end {rounds changes : Nat} (hj : Keyed.join Entry.name (xs.drop i) (ys.drop j) = []) :
    (compareFrom record pair level xs ys rounds i j changes).run s = .ok (none, i, j, changes) s := by
  cases rounds with
  | zero => rfl
  | succ rounds =>
    cases hx : xs[i]? with
    | none =>
      cases hy : ys[j]? with
      | none =>
        rw [compareFrom, hx, hy]
        rfl
      | some y =>
        rw [drop_nil hx, drop_cons hy, Keyed.join_right] at hj
        cases hj
    | some x =>
      cases hy : ys[j]? with
      | none =>
        rw [drop_nil hy, drop_cons hx, Keyed.join_left] at hj
        cases hj
      | some y =>
        rw [drop_cons hx, drop_cons hy, Keyed.join] at hj
        split at hj
        · cases hj
        · split at hj <;> cases hj

/-- In one stretch the inner loop goes from `(i, j)` to `(i', j')` and visits `cs`. -/
def Takes (B : Type) (pair : Pair) (p : List Bytes) (level : Nat) (xs ys : List Entry)
    (cs : List (List Bytes × Change)) (i j i' j' : Nat) : Prop :=
  ∀ {α : Type} (r changes : Nat) (s : Comparing B Visited)
    (f : Option (Entry × Entry × Nat) × Nat × Nat × Nat → Proc Error (Comparing B Visited) α),
    (xs.length - i) + (ys.length - j) ≤ r → 0 < s.store.left → At pair p s.path →
    pathMax ≤ s.path.length →
    ∃ r' s', (xs.length - i') + (ys.length - j') ≤ r' ∧ After 1 pair.path (cs.map (shown p)) s s' ∧
      (compareFrom record pair level xs ys r i j changes >>= f).run s =
        (compareFrom record pair level xs ys r' i' j' (changes + cs.length) >>= f).run s'

theorem takes_visit {change : Change} (hname : validName name)
    (hless : (xs.length - i') + (ys.length - j') < (xs.length - i) + (ys.length - j))
    (heq : ∀ r changes, (compareFrom record pair level xs ys (r + 1) i j changes :
      Proc Error (Comparing B Visited) _) = (do
        Comparing.onStore Counted.step
        visitAt record pair name change
        compareFrom record pair level xs ys r i' j' (changes + 1))) :
    Takes B pair p level xs ys [([name], change)] i j i' j' := by
  intro α r changes s f hr hleft hat hmax
  obtain ⟨r, rfl⟩ : ∃ r', r = r' + 1 := ⟨r - 1, by omega⟩
  obtain ⟨s', ha, hrun⟩ := step_visit_run hat hname hmax hleft change
    (compareFrom record pair level xs ys r i' j' (changes + 1) >>= f)
  refine ⟨r, s', by omega, ha, ?_⟩
  rw [heq, length_singleton]
  simpa only [bind_assoc] using hrun

theorem compareFrom_name [Sha256] (look : Cid → Option Bytes)
    (deeper : List Entry → List Entry → List (List Bytes × Change)) (pair : Pair) (p : List Bytes)
    (level : Nat)
    (hxs : ∀ x ∈ xs, validName x.name) (hys : ∀ y ∈ ys, validName y.name)
    {t : Bytes × Option Entry × Option Entry}
    (hj : Keyed.join Entry.name (xs.drop i) (ys.drop j) = t :: rest) (hdown : ¬Down t) :
    ∃ i' j', Keyed.join Entry.name (xs.drop i') (ys.drop j') = rest ∧
      Takes B pair p level xs ys (changesAt look deeper t) i j i' j' := by
  have hnameX : ∀ {x}, xs[i]? = some x → validName x.name := fun hx =>
    hxs _ (mem_of_getElem? hx)
  have hnameY : ∀ {y}, ys[j]? = some y → validName y.name := fun hy =>
    hys _ (mem_of_getElem? hy)
  cases hx : xs[i]? with
  | none =>
    cases hy : ys[j]? with
    | none =>
      rw [drop_nil hx, drop_nil hy, Keyed.join_nil] at hj
      cases hj
    | some y =>
      have hlt := (List.getElem?_eq_some_iff.mp hy).1
      rw [drop_nil hx, drop_cons hy, Keyed.join_right, ← drop_nil hx] at hj
      obtain ⟨rfl, hrest⟩ := List.cons.inj hj
      refine ⟨i, (j + 1), hrest, takes_visit (hnameY hy) (by omega) fun r changes => ?_⟩
      rw [compareFrom, hx, hy]
  | some x =>
    have hltX := (List.getElem?_eq_some_iff.mp hx).1
    cases hy : ys[j]? with
    | none =>
      rw [drop_nil hy, drop_cons hx, Keyed.join_left, ← drop_nil hy] at hj
      obtain ⟨rfl, hrest⟩ := List.cons.inj hj
      refine ⟨(i + 1), j, hrest, takes_visit (hnameX hx) (by omega) fun r changes => ?_⟩
      rw [compareFrom, hx, hy]
    | some y =>
      have hltY := (List.getElem?_eq_some_iff.mp hy).1
      rw [drop_cons hx, drop_cons hy] at hj
      by_cases hname : x.name = y.name
      · rw [Keyed.join_same hname] at hj
        obtain ⟨rfl, hrest⟩ := List.cons.inj hj
        by_cases hside : x.side = y.side
        · have hnone : changesAt look deeper (x.name, some x, some y) = [] := if_pos hside
          refine ⟨i + 1, j + 1, hrest, ?_⟩
          intro α r changes s f hr hleft hat hmax
          obtain ⟨r, rfl⟩ : ∃ r', r = r' + 1 := ⟨r - 1, by omega⟩
          obtain ⟨s', hstep, ha, -⟩ := step_run hleft pair.path
          refine ⟨r, s', by omega, by rwa [hnone], ?_⟩
          rw [compareFrom, hx, hy, hnone]
          simp only [bind_assoc, if_pos hname, if_pos hside]
          rw [bind_ok hstep]
          rfl
        · have hnot : ¬(x.kind = .directory ∧ y.kind = .directory) := fun h => hdown ⟨hside, h⟩
          refine ⟨i + 1, j + 1, hrest, ?_⟩
          rw [changesAt, if_neg hside, if_neg hnot]
          refine takes_visit (hnameX hx) (by omega) fun r changes => ?_
          rw [compareFrom, hx, hy]
          simp only [if_pos hname, if_neg hside, if_neg hnot]
      · by_cases hlt : y.name < x.name
        · rw [Keyed.join_after hname hlt, ← drop_cons hx] at hj
          obtain ⟨rfl, hrest⟩ := List.cons.inj hj
          refine ⟨i, (j + 1), hrest, takes_visit (hnameY hy) (by omega) fun r changes => ?_⟩
          rw [compareFrom, hx, hy]
          simp only [if_neg hname, if_pos hlt]
        · rw [Keyed.join_before hname hlt, ← drop_cons hy] at hj
          obtain ⟨rfl, hrest⟩ := List.cons.inj hj
          refine ⟨(i + 1), j, hrest, takes_visit (hnameX hx) (by omega) fun r changes => ?_⟩
          rw [compareFrom, hx, hy]
          simp only [if_neg hname, if_neg hlt]

end Compare

theorem joined_snoc_le (p : List Bytes) (name : Bytes) :
    (joined p).length ≤ (joined (p ++ [name])).length := by
  rw [joined_snoc]
  split
  · next h =>
    rw [h]
    exact Nat.zero_le _
  · rw [length_append]
    exact Nat.le_add_right _ _

theorem shown_snoc (p : List Bytes) (name : Bytes) (cs : List (List Bytes × Change)) :
    (cs.map fun c => (name :: c.1, c.2)).map (shown p) = cs.map (shown (p ++ [name])) := by
  rw [map_map]
  refine map_congr_left fun c _ => ?_
  simp only [Function.comp_apply, shown, append_assoc, singleton_append]

section Pairs
variable [Sha256] [BlockSource B] {view : B → Cid → Option Bytes}

def Sided (held : Cid → Option Bytes) (cid : Option Cid) (count : Option Nat) (xs : List Entry) : Prop :=
  topOf held cid = some xs ∧ ∀ n ∈ count, n = xs.length

variable {xs ys : List Entry} {held look : Cid → Option Bytes} {x : Entry} {file : Cid → Nat → Prop}
    {k i j : Nat} {pair : Pair} {above : List Pair} {cs : List (List Bytes × Change)}
    {p : List Bytes}

variable {cid : Option Cid} {count : Option Nat} {ds : List (List Bytes × Change)}

theorem side_run (hr : Mirrors view) (h : Sided (view s.store.blocks) cid count xs) (hleft : 0 < s.store.left)
    (keep : Nat) : ∃ t, (Comparing.onStore (side cid count)).run s = .ok xs t ∧
      After 1 keep [] s t ∧ t.path = s.path := by
  obtain ⟨htop, hcount⟩ := h
  cases cid with
  | none =>
    cases htop
    refine ⟨s, ?_, ⟨rfl, by omega, rfl, rfl, (append_nil _).symm⟩, rfl⟩
    rfl
  | some cid =>
    obtain ⟨hc, b, hb, hd⟩ := dirOf_eq_some.mp htop
    refine ⟨{ s with store := ⟨s.store.blocks, s.store.left - 1⟩ }, ?_, ?_, rfl⟩
    · have hrun : (side (some cid) count).run s.store = .ok xs ⟨s.store.blocks, s.store.left - 1⟩ := by
        rw [side, bind_ok (Counted.step_pos hleft), ensure_pos hc, pure_bind, hr.counted.fetch_bind]
        refine ⟨b, hb, ?_⟩
        rw [directory_ok.mpr hd, ofExcept_ok, pure_bind, ensure_pos hcount]
        rfl
      rw [Comparing.run_onStore, hrun]
    · refine ⟨rfl, ?_, rfl, rfl, (append_nil _).symm⟩
      change s.store.left ≤ s.store.left - 1 + 1
      omega

theorem Sided.up (h : Sided held cid count xs) : Keyed.Ascending Entry.name xs ∧ ∀ x ∈ xs, x.valid := by
  cases cid with
  | none =>
    cases h.1
    exact ⟨Keyed.ascending_nil, fun x hx => absurd hx not_mem_nil⟩
  | some cid =>
    obtain ⟨-, b, -, hd⟩ := dirOf_eq_some.mp h.1
    exact ⟨decode_ascending hd, fun x hx => decode_valid hd hx⟩

/-- The CIDs of the directories on both sides of one path that differ. -/
def Gone (look : Cid → Option Bytes) (xs ys : List Entry) (cid : Cid) : Prop :=
  ∃ path x y, sideAt look xs path = some x ∧ sideAt look ys path = some y ∧
    x.kind = .directory ∧ y.kind = .directory ∧ x.cid ≠ y.cid ∧ (cid = x.cid ∨ cid = y.cid)

/-- A pair of directories of two sound trees, as far as `held` has what is to be read. -/
structure Paired (look held : Cid → Option Bytes) (file : Cid → Nat → Prop) (k : Nat) (pair : Pair)
    (xs ys : List Entry) : Prop where
  one : Sided held pair.cid.1 pair.count.1 xs
  two : Sided held pair.cid.2 pair.count.2 ys
  sound : ∀ x ∈ xs, Sound look file k x
  sound' : ∀ y ∈ ys, Sound look file k y
  gone : ∀ cid, Gone look xs ys cid → held cid = look cid

theorem dirOf_congr {cid : Cid} (h : held cid = look cid) : dirOf held cid = dirOf look cid := by
  unfold dirOf blockOf
  rw [h]

theorem under_directory {e : Entry} {es : List Entry}
    (hk : e.kind = .directory) (h : dirOf look e.cid = some es) : under look e = es := by
  rw [under, if_pos hk, h]
  rfl

theorem sideAt_cons (h : Keyed.find Entry.name name xs = some x) {path : List Bytes} (hp : path ≠ []) :
    sideAt look xs (name :: path) = sideAt look (under look x) path := by
  cases path with
  | nil => exact absurd rfl hp
  | cons next rest => rw [sideAt, h]

theorem sideAt_name (xs : List Entry) (name : Bytes) :
    sideAt look xs [name] = (Keyed.find Entry.name name xs).map Entry.side := rfl

theorem Paired.down (h : Paired look held file (k + 1) pair xs ys) (hx : x ∈ xs)
    (hy : y ∈ ys) (hname : x.name = y.name) (hdown : Down (x.name, some x, some y)) (path : Nat) :
    Paired look held file k ⟨(some x.cid, some y.cid), (some x.size, some y.size), (0, 0), path⟩
      (under look x) (under look y) := by
  obtain ⟨hside, hkx, hky⟩ := hdown
  obtain ⟨es, hes, hles, hses⟩ := (sound_directory hkx).mp (h.sound x hx)
  obtain ⟨fs, hfs, hlfs, hsfs⟩ := (sound_directory hky).mp (h.sound' y hy)
  have hcid : x.cid ≠ y.cid := by
    intro he
    rw [he, hfs] at hes
    cases hes
    apply hside
    simp only [Entry.side, hkx, hky, he, ← hles, ← hlfs]
  have hfx := Keyed.find_of_mem h.one.up.1 hx
  have hfy := Keyed.find_of_mem h.two.up.1 hy
  have hgone : ∀ cid, cid = x.cid ∨ cid = y.cid → held cid = look cid := by
    intro cid hc
    refine h.gone cid ⟨[x.name], x.side, y.side, ?_, ?_, hkx, hky, hcid, hc⟩
    · rw [sideAt_name, hfx]
      rfl
    · rw [sideAt_name, hname, hfy]
      rfl
  rw [under_directory hkx hes, under_directory hky hfs]
  refine ⟨⟨?_, ?_⟩, ⟨?_, ?_⟩, hses, hsfs, ?_⟩
  · exact (dirOf_congr (hgone _ (.inl rfl))).trans hes
  · rintro n ⟨⟩
    exact hles.symm
  · exact (dirOf_congr (hgone _ (.inr rfl))).trans hfs
  · rintro n ⟨⟩
    exact hlfs.symm
  · rintro cid ⟨q, x', y', hx', hy', hrest⟩
    have hq : q ≠ [] := by
      rintro rfl
      cases hx'
    refine h.gone cid ⟨x.name :: q, x', y', ?_, ?_, hrest⟩
    · rw [sideAt_cons hfx hq, under_directory hkx hes, hx']
    · rw [sideAt_cons (hname ▸ hfy) hq, under_directory hky hfs, hy']

/-- A comparison with `pair` on its stack goes on, after at most `n` steps and rounds, without
it, the changes below it visited. -/
def Passes (view : B → Cid → Option Bytes) (held : Cid → Option Bytes) (pair : Pair)
    (above : List Pair) (p : List Bytes) (cs : List (List Bytes × Change)) : Prop :=
  ∃ n, ∀ rounds changes s, n ≤ rounds → n ≤ s.store.left → view s.store.blocks = held →
    At pair p s.path → pathMax ≤ s.path.length →
    ∃ rounds' t, rounds ≤ rounds' + n ∧ After n pair.path (cs.map (shown p)) s t ∧
      (diffFrom record rounds (pair :: above) changes).run s =
        (diffFrom record rounds' above (changes + cs.length)).run t

/-- The changes from `(i, j)` on of a pair visited, and the pair left. -/
def Finishes (view : B → Cid → Option Bytes) (held : Cid → Option Bytes) (pair : Pair)
    (above : List Pair) (p : List Bytes) (xs ys : List Entry) (i j : Nat)
    (cs : List (List Bytes × Change)) : Prop :=
  ∃ n, ∀ r rounds changes s, (xs.length - i) + (ys.length - j) ≤ r → n ≤ rounds →
    n ≤ s.store.left → view s.store.blocks = held → At pair p s.path → pathMax ≤ s.path.length →
    ∃ rounds' t, rounds ≤ rounds' + n ∧ After n pair.path (cs.map (shown p)) s t ∧
      (compareFrom record pair (above.length + 1) xs ys r i j changes >>=
        turn (diffFrom record rounds) pair above).run s =
        (diffFrom record rounds' above (changes + cs.length)).run t

theorem Finishes.passes (hr : Mirrors view) (hp : Paired look held file k pair xs ys)
    (h : Finishes view held pair above p xs ys pair.next.1 pair.next.2 cs) :
    Passes view held pair above p cs := by
  obtain ⟨n, h⟩ := h
  refine ⟨n + 2, fun rounds changes s hrounds hleft hheld hat hmax => ?_⟩
  obtain ⟨rounds, rfl⟩ : ∃ r, rounds = r + 1 := ⟨rounds - 1, by omega⟩
  obtain ⟨s₁, hone, ha₁, hpath₁⟩ := side_run hr (s := s) (hheld ▸ hp.one) (by omega) pair.path
  have hl₁ := ha₁.left
  have hheld₁ : view s₁.store.blocks = held := by rw [ha₁.blocks, hheld]
  obtain ⟨s₂, htwo, ha₂, hpath₂⟩ := side_run hr (s := s₁) (hheld₁ ▸ hp.two) (by omega) pair.path
  have hl₂ := ha₂.left
  have hheld₂ : view s₂.store.blocks = held := by rw [ha₂.blocks, hheld₁]
  have hpath : s₂.path = s.path := hpath₂.trans hpath₁
  obtain ⟨rounds', t, hrounds', ha, hrun⟩ := h (xs.length + ys.length) rounds changes s₂ (by omega)
    (by omega) (by omega) hheld₂ (hpath ▸ hat) (hpath ▸ hmax)
  refine ⟨rounds', t, by omega, ?_, ?_⟩
  · have hall := (ha₁.trans ha₂).trans ha
    rwa [Nat.add_comm n 2]
  · rw [diffFrom, bind_ok hone, bind_ok htwo, hrun]

theorem Finishes.take (ht : Takes B pair p (above.length + 1) xs ys cs i j i' j')
    (h : Finishes view held pair above p xs ys i' j' ds) :
    Finishes view held pair above p xs ys i j (cs ++ ds) := by
  obtain ⟨n, h⟩ := h
  refine ⟨n + 1, fun r rounds changes s hr hrounds hleft hheld hat hmax => ?_⟩
  obtain ⟨r', s', hr', ha, hrun⟩ := ht r changes s (turn (diffFrom record rounds) pair above) hr
    (by omega) hat hmax
  have hl := ha.left
  obtain ⟨rounds', t', hrounds', ha', hrun'⟩ := h r' rounds _ s' hr' (by omega) (by omega) (ha.blocks ▸ hheld) (hat.after ha) (ha.length ▸ hmax)
  refine ⟨rounds', t', by omega, ?_, ?_⟩
  · rw [map_append, Nat.add_comm n 1]
    exact ha.trans ha'
  · rw [hrun, hrun', length_append, Nat.add_assoc]

theorem Finishes.down (hx : xs[i]? = some x) (hy : ys[j]? = some y) (hname : x.name = y.name)
    (hv : validName x.name) (hdown : Down (x.name, some x, some y))
    (hlevel : above.length = p.length) (hdeep : p.length + 1 < depth)
    (h : Passes view held ⟨(some x.cid, some y.cid), (some x.size, some y.size), (0, 0),
      (joined (p ++ [x.name])).length⟩ ({ pair with next := (i + 1, j + 1) } :: above)
      (p ++ [x.name]) cs)
    (h' : Passes view held { pair with next := (i + 1, j + 1) } above p ds) :
    Finishes view held pair above p xs ys i j ((cs.map fun c => (x.name :: c.1, c.2)) ++ ds) := by
  obtain ⟨n, h⟩ := h
  obtain ⟨n', h'⟩ := h'
  have hlt := (List.getElem?_eq_some_iff.mp hx).1
  refine ⟨n + n' + 1, fun r rounds c s hr hrounds hleft hheld hat hmax => ?_⟩
  obtain ⟨r, rfl⟩ : ∃ r', r = r' + 1 := ⟨r - 1, by omega⟩
  obtain ⟨s₁, ha₁, htake, hrun₁⟩ := compareFrom_down hx hy hname hv hdown
    (show above.length + 1 < depth by omega) r c (by omega) hat hmax
  have hl₁ := ha₁.left
  have hnames : Names (p ++ [x.name]) := by
    intro m hm
    rcases mem_append.mp hm with hm | hm
    · exact hat.names m hm
    · rwa [mem_singleton.mp hm]
  obtain ⟨rounds₂, s₂, hrounds₂, ha₂, hrun₂⟩ := h rounds c s₁ (by omega) (by omega) (ha₁.blocks ▸ hheld) ⟨rfl, htake, hnames, by simpa using hdeep⟩
    (ha₁.length ▸ hmax)
  have hkeep : pair.path ≤ (joined (p ++ [x.name])).length := hat.len ▸ joined_snoc_le p x.name
  have ha₂ := ha₂.keepLess hkeep
  have hl₂ := ha₂.left
  have hheld₂ : view s₂.store.blocks = held := by rw [ha₂.blocks, ha₁.blocks, hheld]
  have hmax₂ : pathMax ≤ s₂.path.length := by rwa [ha₂.length, ha₁.length]
  have hat₂ : At pair p s₂.path := (hat.after ha₁).after ha₂
  obtain ⟨rounds₃, t, hrounds₃, ha₃, hrun₃⟩ := h' rounds₂ (c + cs.length) s₂ (by omega)
    (by omega) hheld₂ ⟨hat.len, hat₂.buffer, hat.names, hat.deep⟩
    hmax₂
  refine ⟨rounds₃, t, by omega, ?_, ?_⟩
  · rw [map_append, shown_snoc, show n + n' + 1 = 1 + n + n' by omega]
    exact (ha₁.trans ha₂).trans ha₃
  · rw [bind_ok hrun₁, turn, hrun₂, hrun₃, length_append, length_map, Nat.add_assoc]

theorem finishes (hr : Mirrors view) (hlevel : above.length = p.length) (hk : k + 1 + p.length = depth)
    (deeper : ∀ k', k = k' + 1 → ∀ {pair above p xs ys}, Paired look held file k' pair xs ys →
      pair.next = (0, 0) → above.length = p.length → k' + 1 + p.length = depth →
      Passes view held pair above p (changes look (k' + 1) xs ys))
    {names : List (Bytes × Option Entry × Option Entry)}
    (hp : Paired look held file k pair xs ys)
    (hj : Keyed.join Entry.name (xs.drop i) (ys.drop j) = names) :
    Finishes view held pair above p xs ys i j (names.flatMap (changesAt look (changes look k))) := by
  have hxs : ∀ x ∈ xs, validName x.name := fun x hx => Entry.valid_name (hp.one.up.2 x hx)
  have hys : ∀ y ∈ ys, validName y.name := fun y hy => Entry.valid_name (hp.two.up.2 y hy)
  induction names generalizing pair i j with
  | nil =>
    refine ⟨0, fun r rounds changes s _ _ _ _ _ _ => ?_⟩
    refine ⟨rounds, s, Nat.le_refl _, After.refl _ s, ?_⟩
    rw [bind_ok (compareFrom_end hj)]
    rfl
  | cons t rest ih =>
    rw [flatMap_cons]
    by_cases hdown : Down t
    · rcases t with ⟨name, _ | x, _ | y⟩
      · exact absurd hdown id
      · exact absurd hdown id
      · exact absurd hdown id
      obtain ⟨hx, hy, rfl, hname, hrest⟩ := join_both hj
      have hmx := mem_of_getElem? hx
      obtain ⟨k', rfl⟩ : ∃ k', k = k' + 1 := by
        cases k with
        | zero => exact absurd ((hp.sound x hmx).1.symm.trans hdown.2.1) (by simp)
        | succ k' => exact ⟨k', rfl⟩
      have hp' : Paired look held file (k' + 1) { pair with next := (i + 1, j + 1) } xs ys :=
        ⟨hp.one, hp.two, hp.sound, hp.sound', hp.gone⟩
      rw [changesAt, if_neg hdown.1, if_pos hdown.2]
      refine Finishes.down hx hy hname.symm (hxs x hmx) hdown hlevel (by omega) ?_
        ((ih hp' hrest).passes hr hp')
      apply deeper k' rfl (hp.down hmx (mem_of_getElem? hy) hname.symm hdown _) rfl
      · rw [length_cons, length_append, length_singleton, hlevel]
      · rw [length_append, length_singleton]
        omega
    · obtain ⟨i', j', hrest, htakes⟩ := compareFrom_name look (changes look k) pair p
        (above.length + 1) hxs hys hj hdown
      exact (ih hp hrest).take htakes

theorem passes (hr : Mirrors view) (hp : Paired look held file k pair xs ys) (hnext : pair.next = (0, 0))
    (hlevel : above.length = p.length) (hk : k + 1 + p.length = depth) :
    Passes view held pair above p (changes look (k + 1) xs ys) := by
  induction k generalizing pair above p xs ys with
  | zero =>
    refine (finishes hr hlevel hk (fun k' h => absurd h (by omega)) hp ?_).passes hr hp
    rw [hnext]
    rfl
  | succ k ih =>
    refine (finishes hr hlevel hk (fun k' h => ?_) hp ?_).passes hr hp
    · cases h
      exact fun hp hnext hlevel hk => ih hp hnext hlevel hk
    · rw [hnext]
      rfl

omit [Sha256] in
theorem join_self : ∀ t ∈ Keyed.join Entry.name xs xs, ∃ x, t = (x.name, some x, some x) := by
  induction xs with
  | nil =>
    intro t ht
    rw [Keyed.join_nil] at ht
    exact absurd ht not_mem_nil
  | cons x xs ih =>
    intro t ht
    rw [Keyed.join_same rfl] at ht
    rcases mem_cons.mp ht with rfl | ht
    · exact ⟨x, rfl⟩
    · exact ih t ht

theorem changes_self (look : Cid → Option Bytes) (k : Nat) (xs : List Entry) : changes look k xs xs = [] := by
  cases k with
  | zero => rfl
  | succ k =>
    refine flatMap_eq_nil_iff.mpr fun t ht => ?_
    obtain ⟨x, rfl⟩ := join_self t ht
    exact if_pos rfl

/-- With steps and a buffer enough, `diff` visits the changes between two sound trees, in a
store that holds what there is to be read. -/
theorem diff_run (hr : Mirrors view) {a b : Option Cid} (hone : topOf held a = some xs)
    (htwo : topOf held b = some ys) (hx : ∀ x ∈ xs, Sound look file (depth - 1) x)
    (hy : ∀ y ∈ ys, Sound look file (depth - 1) y)
    (hgone : ∀ cid, Gone look xs ys cid → held cid = look cid) :
    ∃ n, ∀ s : Comparing B Visited, n ≤ s.store.left → view s.store.blocks = held →
      pathMax ≤ s.path.length → ∃ t,
        (diff a b record).run s = .ok (changes look depth xs ys).length t ∧
        t.seen = s.seen ++ (changes look depth xs ys).map (shown []) := by
  by_cases hab : a = b
  · subst hab
    obtain rfl : xs = ys := Option.some.inj (hone.symm.trans htwo)
    refine ⟨0, fun s _ _ _ => ⟨s, ?_, ?_⟩⟩
    · rw [diff, if_pos rfl, changes_self]
      rfl
    · rw [changes_self, map_nil, append_nil]
  · have hp : Paired look held file (depth - 1) ⟨(a, b), (none, none), (0, 0), 0⟩ xs ys :=
      ⟨⟨hone, nofun⟩, ⟨htwo, nofun⟩, hx, hy, hgone⟩
    obtain ⟨n, h⟩ : Passes view held _ [] [] _ := passes hr hp rfl rfl rfl
    refine ⟨n, fun s hleft hheld hmax => ?_⟩
    obtain ⟨rounds, t, -, ha, hrun⟩ := h (s.store.left + 1) 0 s (by omega) hleft hheld
      ⟨rfl, rfl, fun m hm => absurd hm not_mem_nil, by decide⟩ hmax
    refine ⟨t, ?_, ha.seen⟩
    rw [diff, if_neg hab, get_bind, hrun, Nat.zero_add]
    cases rounds <;> rfl

end Pairs

end Run

end MindCore.Tree
