import Mathlib.Data.List.TakeWhile
import MindCore.Libmind.DiffRun

/-!
# A comparison is exact

The changes between two trees that `walk` accepts are the paths where they differ, in the order
of their names, each once; applied to the one tree they give the other.
-/

namespace MindCore.Tree

open List
open Dag (BlockSource Mirrors sizeOf)

/-- Whether what a path names differs: it is there on one side only, a file has another CID, or
the kinds are not the same. -/
def Differs : Option Side → Option Side → Prop
  | none, none => False
  | some _, none => True
  | none, some _ => True
  | some x, some y => x.kind ≠ y.kind ∨ x.kind = .file ∧ x.cid ≠ y.cid

def changeOf : Option Side → Option Side → Option Change
  | none, none => none
  | some x, none => some (.removed x)
  | none, some y => some (.added y)
  | some x, some y => some (.changed x y)

def IsDirectory (side : Option Side) : Prop := ∃ x, side = some x ∧ x.kind = .directory

theorem not_differs_self (x : Option Side) : ¬Differs x x := by
  cases x with
  | none => exact id
  | some x =>
    rintro (h | ⟨-, h⟩)
    · exact h rfl
    · exact h rfl

theorem not_differs_directories {x y : Option Side} (hx : IsDirectory x) (hy : IsDirectory y) :
    ¬Differs x y := by
  obtain ⟨x, rfl, hx⟩ := hx
  obtain ⟨y, rfl, hy⟩ := hy
  rintro (h | ⟨h, -⟩)
  · exact h (hx.trans hy.symm)
  · cases hx.symm.trans h

section
variable [Sha256] (look : Cid → Option Bytes)

def Reached (xs ys : List Entry) (path : List Bytes) : Prop :=
  ∀ q, q ≠ [] → q <+: path → q ≠ path → IsDirectory (sideAt look xs q) ∧ IsDirectory (sideAt look ys q)

def Tidy (k : Nat) (xs : List Entry) : Prop :=
  Keyed.Ascending Entry.name xs ∧ ∀ x ∈ xs, Sound look (fun cid n => sizeOf look cid = some n) k x

variable {look} {k : Nat} {x y : Entry} {xs ys : List Entry} {name : Bytes} {path : List Bytes}
    {c : Change}

theorem Tidy.under (h : Tidy look (k + 1) xs) (hx : x ∈ xs)
    (hk : x.kind = .directory) : Tidy look k (under look x) := by
  obtain ⟨es, hes, -, hs⟩ := (sound_directory hk).mp (h.2 x hx)
  obtain ⟨-, b, -, hd⟩ := dirOf_eq_some.mp hes
  rw [under_directory hk hes]
  exact ⟨decode_ascending hd, hs⟩

theorem Tidy.side_eq (hx : Tidy look k xs) (hy : Tidy look k ys)
    (hmx : x ∈ xs) (hmy : y ∈ ys) (hkind : x.kind = y.kind) (hcid : x.cid = y.cid) :
    x.side = y.side := by
  have hsize : x.size = y.size := by
    have hsx := hx.2 x hmx
    have hsy := hy.2 y hmy
    cases hk : x.kind with
    | file =>
      have hfile : ∀ {e : Entry} {k : Nat}, e.kind = .file →
          Sound look (fun cid n => sizeOf look cid = some n) k e → sizeOf look e.cid = some e.size := by
        intro e k he h
        cases k with
        | zero => exact h.2
        | succ k =>
          rw [Sound, he] at h
          exact h
      have := hfile hk hsx
      rw [hcid, hfile (hkind.symm.trans hk) hsy] at this
      exact (Option.some.inj this).symm
    | directory =>
      cases k with
      | zero => cases hsx.1.symm.trans hk
      | succ k =>
        obtain ⟨es, hes, hles, -⟩ := (sound_directory hk).mp hsx
        obtain ⟨fs, hfs, hlfs, -⟩ := (sound_directory (hkind.symm.trans hk)).mp hsy
        rw [hcid, hfs] at hes
        cases hes
        rw [← hles, ← hlfs]
  simp only [Entry.side, hkind, hcid, hsize]

theorem sideAt_none (h : Keyed.find Entry.name name xs = none)
    (path : List Bytes) : sideAt look xs (name :: path) = none := by
  cases path with
  | nil => rw [sideAt_name, h]; rfl
  | cons next rest => rw [sideAt, h]

theorem sideAt_nil (path : List Bytes) : sideAt look [] path = none := by
  cases path with
  | nil => rfl
  | cons name rest => exact sideAt_none rfl rest

theorem reached_cons (hp : path ≠ []) :
    Reached look xs ys (name :: path) ↔ ∃ x y, Keyed.find Entry.name name xs = some x ∧
      Keyed.find Entry.name name ys = some y ∧ x.kind = .directory ∧ y.kind = .directory ∧
      Reached look (under look x) (under look y) path := by
  have hfind : ∀ {zs : List Entry}, IsDirectory (sideAt look zs [name]) ↔
      ∃ z, Keyed.find Entry.name name zs = some z ∧ z.kind = .directory := by
    intro zs
    rw [sideAt_name]
    constructor
    · rintro ⟨side, h, hk⟩
      obtain ⟨z, hz, rfl⟩ := Option.map_eq_some_iff.mp h
      exact ⟨z, hz, hk⟩
    · rintro ⟨z, hz, hk⟩
      exact ⟨z.side, by rw [hz]; rfl, hk⟩
  constructor
  · intro h
    obtain ⟨hdx, hdy⟩ := h [name] (by simp) ⟨path, rfl⟩ (by simpa using hp.symm)
    obtain ⟨x, hx, hkx⟩ := hfind.mp hdx
    obtain ⟨y, hy, hky⟩ := hfind.mp hdy
    refine ⟨x, y, hx, hy, hkx, hky, fun q hq hpre hne => ?_⟩
    have := h (name :: q) (by simp) (cons_prefix_cons.mpr ⟨rfl, hpre⟩) (by simpa using hne)
    rwa [sideAt_cons hx hq, sideAt_cons hy hq] at this
  · rintro ⟨x, y, hx, hy, hkx, hky, h⟩ q hq hpre hne
    cases q with
    | nil => exact absurd rfl hq
    | cons n q =>
      obtain ⟨rfl, hrest⟩ := cons_prefix_cons.mp hpre
      by_cases hq' : q = []
      · rw [hq']
        exact ⟨hfind.mpr ⟨x, hx, hkx⟩, hfind.mpr ⟨y, hy, hky⟩⟩
      · rw [sideAt_cons hx hq', sideAt_cons hy hq']
        exact h q hq' hrest (by simpa using hne)

theorem reached_name (xs ys : List Entry) (name : Bytes) : Reached look xs ys [name] := by
  intro q hq hpre hne
  exfalso
  cases q with
  | nil => exact hq rfl
  | cons n q =>
    obtain ⟨rfl, hrest⟩ := cons_prefix_cons.mp hpre
    rw [prefix_nil.mp hrest] at hne
    exact hne rfl

theorem not_differs_below
    (hx : Keyed.find Entry.name name xs = some x) (hy : Keyed.find Entry.name name ys = some y)
    (h : x.side = y.side) (path : List Bytes) :
    sideAt look xs (name :: path) = sideAt look ys (name :: path) := by
  have hunder : under look x = under look y := by
    have hkind : x.kind = y.kind := congrArg Side.kind h
    have hcid : x.cid = y.cid := congrArg Side.cid h
    rw [under, under, hkind, hcid]
  cases path with
  | nil =>
    rw [sideAt_name, sideAt_name, hx, hy]
    exact congrArg some h
  | cons next rest =>
    have hne : next :: rest ≠ [] := by simp
    rw [sideAt_cons hx hne, sideAt_cons hy hne, hunder]

/-! ## The changes are the paths that differ -/

theorem changesAt_head {deeper : List Entry → List Entry → List (List Bytes × Change)}
    {t : Bytes × Option Entry × Option Entry} {c : List Bytes × Change}
    (h : c ∈ changesAt look deeper t) : ∃ rest, c.1 = t.1 :: rest := by
  rcases t with ⟨name, _ | x, _ | y⟩
  · exact absurd h not_mem_nil
  · exact ⟨[], by rw [mem_singleton.mp h]⟩
  · exact ⟨[], by rw [mem_singleton.mp h]⟩
  · rw [changesAt] at h
    split at h
    · exact absurd h not_mem_nil
    · split at h
      · obtain ⟨d, -, rfl⟩ := mem_map.mp h
        exact ⟨d.1, rfl⟩
      · exact ⟨[], by rw [mem_singleton.mp h]⟩

theorem mem_changes_cons (hx : Keyed.Ascending Entry.name xs) (hy : Keyed.Ascending Entry.name ys) :
    (name :: path, c) ∈ changes look (k + 1) xs ys ↔
      (name :: path, c) ∈ changesAt look (changes look k)
        (name, Keyed.find Entry.name name xs, Keyed.find Entry.name name ys) := by
  rw [changes, mem_flatMap]
  constructor
  · rintro ⟨⟨n, x, y⟩, ht, hc⟩
    obtain ⟨rest, hrest⟩ := changesAt_head hc
    obtain ⟨rfl, -⟩ := List.cons.inj hrest
    obtain ⟨rfl, rfl, -⟩ := (Keyed.mem_join hx hy).mp ht
    exact hc
  · intro hc
    refine ⟨_, (Keyed.mem_join hx hy).mpr ⟨rfl, rfl, ?_⟩, hc⟩
    by_contra hnone
    rw [not_or, not_not, not_not] at hnone
    rw [hnone.1, hnone.2] at hc
    exact absurd hc not_mem_nil

theorem Tidy.differs_iff (hx : Tidy look k xs) (hy : Tidy look k ys)
    (hmx : x ∈ xs) (hmy : y ∈ ys) (hnot : ¬(x.kind = .directory ∧ y.kind = .directory)) :
    Differs (some x.side) (some y.side) ↔ x.side ≠ y.side := by
  constructor
  · intro h he
    rw [he] at h
    exact not_differs_self _ h
  · intro hne
    by_cases hkind : x.kind = y.kind
    · right
      have hfile : x.kind = .file := by
        cases hk : x.kind with
        | file => rfl
        | directory => exact absurd ⟨hk, hkind.symm.trans hk⟩ hnot
      exact ⟨hfile, fun hcid => hne (hx.side_eq hy hmx hmy hkind hcid)⟩
    · exact .inl hkind

theorem changes_ne_nil {c : List Bytes × Change} (h : c ∈ changes look k xs ys) : c.1 ≠ [] := by
  cases k with
  | zero => exact absurd h not_mem_nil
  | succ k =>
    obtain ⟨t, -, hc⟩ := mem_flatMap.mp h
    obtain ⟨rest, hrest⟩ := changesAt_head hc
    rw [hrest]
    exact cons_ne_nil _ _

theorem mem_changes_name (hx : Tidy look k xs) (hy : Tidy look k ys)
    : ([name], c) ∈ changes look (k + 1) xs ys ↔
      Differs (sideAt look xs [name]) (sideAt look ys [name]) ∧
        changeOf (sideAt look xs [name]) (sideAt look ys [name]) = some c := by
  rw [mem_changes_cons hx.1 hy.1, sideAt_name, sideAt_name]
  cases hfx : Keyed.find Entry.name name xs with
  | none =>
    cases hfy : Keyed.find Entry.name name ys with
    | none => simp [changesAt, Differs]
    | some y => simp [changesAt, Differs, changeOf, eq_comm]
  | some x =>
    cases hfy : Keyed.find Entry.name name ys with
    | none => simp [changesAt, Differs, changeOf, eq_comm]
    | some y =>
      have hmx := Keyed.mem_of_find hfx
      have hmy := Keyed.mem_of_find hfy
      simp only [Option.map_some, changesAt]
      by_cases hside : x.side = y.side
      · rw [if_pos hside, hside]
        exact ⟨fun h => absurd h not_mem_nil, fun h => absurd h.1 (not_differs_self _)⟩
      rw [if_neg hside]
      by_cases hdirs : x.kind = .directory ∧ y.kind = .directory
      · rw [if_pos hdirs]
        constructor
        · intro h
          obtain ⟨d, hd, he⟩ := mem_map.mp h
          obtain ⟨hpath, -⟩ := Prod.mk.inj he
          exact absurd (List.cons.inj hpath).2 (changes_ne_nil hd)
        · rintro ⟨h, -⟩
          exact absurd h (not_differs_directories ⟨_, rfl, hdirs.1⟩ ⟨_, rfl, hdirs.2⟩)
      · rw [if_neg hdirs, hx.differs_iff hy hmx hmy hdirs]
        simp [changeOf, hside, eq_comm]

theorem mem_changes_below (hx : Keyed.Ascending Entry.name xs)
    (hy : Keyed.Ascending Entry.name ys) (hp : path ≠ [])
    : (name :: path, c) ∈ changes look (k + 1) xs ys ↔
      ∃ x y, Keyed.find Entry.name name xs = some x ∧ Keyed.find Entry.name name ys = some y ∧
        x.side ≠ y.side ∧ x.kind = .directory ∧ y.kind = .directory ∧
        (path, c) ∈ changes look k (under look x) (under look y) := by
  rw [mem_changes_cons hx hy]
  have hone : ∀ {d : Change}, (name :: path, c) ∉ [([name], d)] := by
    intro d h
    have := congrArg Prod.fst (mem_singleton.mp h)
    exact hp (List.cons.inj this).2
  cases hfx : Keyed.find Entry.name name xs with
  | none =>
    cases hfy : Keyed.find Entry.name name ys with
    | none => simp [changesAt]
    | some y => simp [changesAt, hp]
  | some x =>
    cases hfy : Keyed.find Entry.name name ys with
    | none => simp [changesAt, hp]
    | some y =>
      rw [changesAt]
      constructor
      · intro h
        split at h
        · exact absurd h not_mem_nil
        next hside =>
        split at h
        · next hdirs =>
          obtain ⟨d, hd, he⟩ := mem_map.mp h
          obtain ⟨hpath, rfl⟩ := Prod.mk.inj he
          obtain ⟨-, rfl⟩ := List.cons.inj hpath
          exact ⟨x, y, rfl, rfl, hside, hdirs.1, hdirs.2, hd⟩
        · exact absurd h hone
      · rintro ⟨x', y', hx', hy', hside, hkx, hky, h⟩
        cases hx'
        cases hy'
        rw [if_neg hside, if_pos ⟨hkx, hky⟩]
        exact mem_map.mpr ⟨_, h, rfl⟩

theorem mem_changes (hx : Tidy look k xs) (hy : Tidy look k ys) : (path, c) ∈ changes look (k + 1) xs ys ↔
      Reached look xs ys path ∧ Differs (sideAt look xs path) (sideAt look ys path) ∧
        changeOf (sideAt look xs path) (sideAt look ys path) = some c := by
  induction path generalizing k xs ys with
  | nil => exact ⟨fun h => absurd rfl (changes_ne_nil h), fun h => absurd h.2.1 id⟩
  | cons name path ih =>
    by_cases hp : path = []
    · subst hp
      rw [mem_changes_name hx hy]
      exact ⟨fun h => ⟨reached_name xs ys name, h⟩, fun h => h.2⟩
    rw [mem_changes_below hx.1 hy.1 hp, reached_cons hp]
    -- A directory on both sides leaves a level to go down.
    have hdeep : ∀ {x y : Entry}, Keyed.find Entry.name name xs = some x →
        Keyed.find Entry.name name ys = some y → x.kind = .directory → y.kind = .directory →
        ((path, c) ∈ changes look k (under look x) (under look y) ↔
          Reached look (under look x) (under look y) path ∧
          Differs (sideAt look xs (name :: path)) (sideAt look ys (name :: path)) ∧
          changeOf (sideAt look xs (name :: path)) (sideAt look ys (name :: path)) = some c) := by
      intro x y hfx hfy hkx hky
      have hmx := Keyed.mem_of_find hfx
      have hmy := Keyed.mem_of_find hfy
      cases k with
      | zero => cases (hx.2 x hmx).1.symm.trans hkx
      | succ k =>
        rw [sideAt_cons hfx hp, sideAt_cons hfy hp]
        exact ih (hx.under hmx hkx) (hy.under hmy hky)
    constructor
    · rintro ⟨x, y, hfx, hfy, -, hkx, hky, h⟩
      obtain ⟨hr, hd⟩ := (hdeep hfx hfy hkx hky).mp h
      exact ⟨⟨x, y, hfx, hfy, hkx, hky, hr⟩, hd⟩
    · rintro ⟨⟨x, y, hfx, hfy, hkx, hky, hr⟩, hd⟩
      refine ⟨x, y, hfx, hfy, ?_, hkx, hky, (hdeep hfx hfy hkx hky).mpr ⟨hr, hd⟩⟩
      intro hside
      rw [not_differs_below hfx hfy hside path] at hd
      exact not_differs_self _ hd.1

/-! ## Their order -/

theorem changes_sorted_step (hx : Keyed.Ascending Entry.name xs) (hy : Keyed.Ascending Entry.name ys)
    (deeper : ∀ x ∈ xs, ∀ y ∈ ys, x.kind = .directory → y.kind = .directory →
      (changes look k (under look x) (under look y)).Pairwise fun c d => c.1 < d.1) :
    (changes look (k + 1) xs ys).Pairwise fun c d => c.1 < d.1 := by
  rw [changes, pairwise_flatMap]
  constructor
  · intro t ht
    rcases t with ⟨name, _ | x, _ | y⟩
    · exact List.Pairwise.nil
    · exact pairwise_singleton _ _
    · exact pairwise_singleton _ _
    · obtain ⟨hfx, hfy, -⟩ := (Keyed.mem_join hx hy).mp ht
      rw [changesAt]
      split
      · exact List.Pairwise.nil
      split
      · next hdirs =>
        rw [pairwise_map]
        refine (deeper x (Keyed.mem_of_find hfx.symm) y (Keyed.mem_of_find hfy.symm) hdirs.1
          hdirs.2).imp fun {c d} h => ?_
        exact cons_lt_cons_iff.mpr (.inr ⟨rfl, h⟩)
      · exact pairwise_singleton _ _
  · refine (Keyed.join_ascending hx hy).imp fun {t u} hlt c hc d hd => ?_
    obtain ⟨p, hp⟩ := changesAt_head hc
    obtain ⟨q, hq⟩ := changesAt_head hd
    rw [hp, hq]
    exact cons_lt_cons_iff.mpr (.inl hlt)

theorem changes_sorted (hx : Tidy look k xs) (hy : Tidy look k ys) :
    (changes look (k + 1) xs ys).Pairwise fun c d => c.1 < d.1 := by
  induction k generalizing xs ys with
  | zero =>
    exact changes_sorted_step hx.1 hy.1 fun _ _ _ _ _ _ => List.Pairwise.nil
  | succ k ih =>
    exact changes_sorted_step hx.1 hy.1 fun x hmx y hmy hkx hky => ih (hx.under hmx hkx) (hy.under hmy hky)

/-! ## The two sides changed over -/

def Change.turned : Change → Change
  | .added side => .removed side
  | .removed side => .added side
  | .changed before after => .changed after before

theorem changes_turned (k : Nat) (xs ys : List Entry) :
    changes look k ys xs = (changes look k xs ys).map fun c => (c.1, c.2.turned) := by
  induction k generalizing xs ys with
  | zero => rfl
  | succ k ih =>
    rw [changes, changes, Keyed.join_turned xs ys, flatMap_map, map_flatMap]
    refine flatMap_congr fun t _ => ?_
    rcases t with ⟨name, _ | x, _ | y⟩
    · rfl
    · rfl
    · rfl
    · simp only [Keyed.turned, changesAt]
      by_cases hside : x.side = y.side
      · rw [if_pos hside, if_pos hside.symm]
        rfl
      rw [if_neg hside, if_neg (Ne.symm hside)]
      by_cases hdirs : x.kind = .directory ∧ y.kind = .directory
      · rw [if_pos hdirs, if_pos hdirs.symm, ih, map_map, map_map]
        rfl
      · rw [if_neg hdirs, if_neg fun h => hdirs h.symm]
        rfl

/-! ## Applying them -/

/-- What a path names in names alone: where a file is, or that a directory is there. -/
inductive Leaf where
  | file (size : Nat) (cid : Cid)
  | directory
deriving DecidableEq

def Side.leaf (side : Side) : Leaf :=
  match side.kind with
  | .file => .file side.size side.cid
  | .directory => .directory

abbrev Listing := List Bytes → Option Leaf

def listing (look : Cid → Option Bytes) (xs : List Entry) : Listing :=
  fun path => (sideAt look xs path).map Side.leaf

def Change.after : Change → Option Side
  | .added side => some side
  | .removed _ => none
  | .changed _ side => some side

def Side.under (look : Cid → Option Bytes) (side : Side) : List Entry :=
  if side.kind = .directory then (dirOf look side.cid).getD [] else []

/-- What a side brings to a place: itself, and under a directory what it holds. -/
def brought (look : Cid → Option Bytes) : Option Side → Listing
  | none, _ => none
  | some side, [] => some side.leaf
  | some side, name :: rest => listing look (side.under look) (name :: rest)

/-- A tree with a change made: what was at its path and below is as the change has it. -/
def Listing.change (look : Cid → Option Bytes) (l : Listing) (c : List Bytes × Change) : Listing :=
  fun path => if c.1 <+: path then brought look c.2.after (path.drop c.1.length) else l path

variable {p : List Bytes} {cs : List (List Bytes × Change)}

theorem listing_append (xs : List Entry) (hp : p ≠ []) (r : List Bytes) :
    listing look xs (p ++ r) = brought look (sideAt look xs p) r := by
  induction p generalizing xs with
  | nil => exact absurd rfl hp
  | cons name p ih =>
    cases hf : Keyed.find Entry.name name xs with
    | none =>
      rw [listing, cons_append, sideAt_none hf, sideAt_none hf]
      rfl
    | some x =>
      by_cases hnil : p = []
      · subst hnil
        rw [sideAt_name, hf]
        cases r with
        | nil =>
          rw [listing, append_nil, sideAt_name, hf]
          rfl
        | cons n r =>
          rw [listing, singleton_append, sideAt_cons hf (by simp)]
          rfl
      · have happ : p ++ r ≠ [] := by simp [hnil]
        rw [listing, cons_append, sideAt_cons hf happ, sideAt_cons hf hnil, ← ih _ hnil]
        rfl

omit [Sha256] in
theorem not_differs_of_leaf {x y : Option Side} (h : x.map Side.leaf = y.map Side.leaf) : ¬Differs x y := by
  cases x with
  | none =>
    cases y with
    | none => exact id
    | some y => cases h
  | some x =>
    cases y with
    | none => cases h
    | some y =>
      obtain ⟨xk, xs, xc⟩ := x
      obtain ⟨yk, ys, yc⟩ := y
      cases xk <;> cases yk <;> simp_all [Side.leaf, Differs]

theorem foldl_change_none (h : ∀ c ∈ cs, ¬c.1 <+: path) (l : Listing) :
    cs.foldl (Listing.change look) l path = l path := by
  induction cs generalizing l with
  | nil => rfl
  | cons c cs ih =>
    rw [foldl_cons, ih (fun d hd => h d (mem_cons_of_mem c hd))]
    exact if_neg (h c mem_cons_self)

theorem foldl_change_mem {c : List Bytes × Change} (hc : c ∈ cs) (hpre : c.1 <+: path)
    (hone : ∀ d ∈ cs, d.1 <+: path → d = c) (l : Listing) :
    cs.foldl (Listing.change look) l path = brought look c.2.after (path.drop c.1.length) := by
  induction cs generalizing l with
  | nil => exact absurd hc not_mem_nil
  | cons d cs ih =>
    rw [foldl_cons]
    by_cases hmem : c ∈ cs
    · exact ih hmem (fun e he => hone e (mem_cons_of_mem d he)) _
    · obtain rfl : c = d := (mem_cons.mp hc).resolve_right hmem
      rw [foldl_change_none]
      · exact if_pos hpre
      · intro e he hpe
        exact hmem (hone e (mem_cons_of_mem c he) hpe ▸ he)

theorem listing_eq_of_unchanged (hx : Tidy look k xs) (hy : Tidy look k ys)
    (h : ∀ c ∈ changes look (k + 1) xs ys, ¬c.1 <+: path) :
    listing look xs path = listing look ys path := by
  induction path generalizing k xs ys with
  | nil => rfl
  | cons name path ih =>
    have hname : ∀ {c : Change}, ¬(Differs (sideAt look xs [name]) (sideAt look ys [name]) ∧
        changeOf (sideAt look xs [name]) (sideAt look ys [name]) = some c) := by
      intro c hc
      exact h _ ((mem_changes_name hx hy).mpr hc) ⟨path, rfl⟩
    rw [sideAt_name, sideAt_name] at hname
    cases hfx : Keyed.find Entry.name name xs with
    | none =>
      cases hfy : Keyed.find Entry.name name ys with
      | none => rw [listing, listing, sideAt_none hfx, sideAt_none hfy]
      | some y =>
        rw [hfx, hfy] at hname
        exact absurd ⟨trivial, rfl⟩ hname
    | some x =>
      cases hfy : Keyed.find Entry.name name ys with
      | none =>
        rw [hfx, hfy] at hname
        exact absurd ⟨trivial, rfl⟩ hname
      | some y =>
        rw [hfx, hfy] at hname
        have hmx := Keyed.mem_of_find hfx
        have hmy := Keyed.mem_of_find hfy
        by_cases hside : x.side = y.side
        · rw [listing, listing, not_differs_below hfx hfy hside]
        by_cases hdirs : x.kind = .directory ∧ y.kind = .directory
        · by_cases hp : path = []
          · subst hp
            rw [listing, listing, sideAt_name, sideAt_name, hfx, hfy]
            simp [Side.leaf, Entry.side, hdirs.1, hdirs.2]
          · cases k with
            | zero => cases (hx.2 x hmx).1.symm.trans hdirs.1
            | succ k =>
              have hbelow := ih (hx.under hmx hdirs.1) (hy.under hmy hdirs.2) fun c hc hpre =>
                h (name :: c.1, c.2) ((mem_changes_below hx.1 hy.1 (changes_ne_nil hc)).mpr
                  ⟨x, y, hfx, hfy, hside, hdirs.1, hdirs.2, hc⟩)
                  (cons_prefix_cons.mpr ⟨rfl, hpre⟩)
              rwa [listing, listing, sideAt_cons hfx hp, sideAt_cons hfy hp]
        · exact absurd ⟨(hx.differs_iff hy hmx hmy hdirs).mpr hside, rfl⟩ hname

theorem changes_apart (hx : Tidy look k xs) (hy : Tidy look k ys)
    {c d : List Bytes × Change} (hc : c ∈ changes look (k + 1) xs ys)
    (hd : d ∈ changes look (k + 1) xs ys) (h : c.1 <+: d.1) : c = d := by
  obtain ⟨-, hcd, hcc⟩ := (mem_changes hx hy).mp hc
  obtain ⟨hreach, -, hdc⟩ := (mem_changes hx hy).mp hd
  by_cases he : c.1 = d.1
  · rw [← he, hcc] at hdc
    exact Prod.ext he (Option.some.inj hdc)
  · obtain ⟨hdx, hdy⟩ := hreach c.1 (changes_ne_nil hc) h he
    exact absurd hcd (not_differs_directories hdx hdy)

omit [Sha256] in
theorem after_of_changeOf {x y : Option Side} (h : changeOf x y = some c) : c.after = y := by
  cases x <;> cases y <;> cases h <;> rfl

theorem foldl_changes (hx : Tidy look k xs) (hy : Tidy look k ys) :
    (changes look (k + 1) xs ys).foldl (Listing.change look) (listing look xs) = listing look ys := by
  funext path
  by_cases hex : ∃ c ∈ changes look (k + 1) xs ys, c.1 <+: path
  · obtain ⟨c, hc, hpre⟩ := hex
    rw [foldl_change_mem hc hpre]
    · obtain ⟨-, -, hof⟩ := (mem_changes hx hy).mp hc
      obtain ⟨rest, rfl⟩ := hpre
      rw [listing_append ys (changes_ne_nil hc), after_of_changeOf hof, drop_left]
    · intro d hd hpd
      rcases prefix_or_prefix_of_prefix hpd hpre with h | h
      · exact changes_apart hx hy hd hc h
      · exact (changes_apart hx hy hc hd h).symm
  · have hnone : ∀ c ∈ changes look (k + 1) xs ys, ¬c.1 <+: path := fun c hc hpre => hex ⟨c, hc, hpre⟩
    rw [foldl_change_none hnone, listing_eq_of_unchanged hx hy hnone]

/-! ## Paths as bytes -/

omit [Sha256] in
theorem name_no_slash (h : validName name) : ∀ b ∈ name, b ≠ 0x2f := by
  intro b hb he
  simp only [validName, Bool.and_eq_true, all_eq_true] at h
  have := h.1.1.2 b hb
  simp [he] at this

omit [Sha256] in
/-- A path's bytes up to its first `/` are its first name. -/
theorem takeWhile_joined (h : validName name) : (joined (name :: path)).takeWhile (· ≠ 0x2f) = name := by
  have hall : ∀ b ∈ name, decide (b ≠ 0x2f) = true := fun b hb => by simpa using name_no_slash h b hb
  cases path with
  | nil => exact takeWhile_eq_self_iff.mpr hall
  | cons next rest =>
    rw [joined, takeWhile_append_of_pos hall]
    simp

omit [Sha256] in
theorem joined_inj {q : List Bytes} (hp : Names p) (hq : Names q) (h : joined p = joined q) : p = q := by
  induction p generalizing q with
  | nil =>
    cases q with
    | nil => rfl
    | cons m q =>
      have := joined_pos hq (cons_ne_nil m q)
      rw [← h] at this
      exact absurd this (Nat.lt_irrefl 0)
  | cons n p ih =>
    cases q with
    | nil =>
      have := joined_pos hp (cons_ne_nil n p)
      rw [h] at this
      exact absurd this (Nat.lt_irrefl 0)
    | cons m q =>
      have hn : n = m := by
        have hfirst := congrArg (List.takeWhile (· ≠ 0x2f)) h
        rwa [takeWhile_joined (hp n mem_cons_self), takeWhile_joined (hq m mem_cons_self)]
          at hfirst
      subst hn
      have hp' : Names p := fun x hx => hp x (mem_cons_of_mem n hx)
      have hq' : Names q := fun x hx => hq x (mem_cons_of_mem n hx)
      cases p with
      | nil =>
        cases q with
        | nil => rfl
        | cons m q => simp [joined] at h
      | cons m p =>
        cases q with
        | nil => simp [joined] at h
        | cons m' q =>
          simp only [joined, append_cancel_left_eq, List.cons.injEq, true_and] at h
          rw [ih hp' hq' h]

theorem names_of_sideAt (hv : ∀ x ∈ xs, x.valid)
    (h : ∀ x ∈ xs, Sound look (fun cid n => sizeOf look cid = some n) k x)
    (hs : sideAt look xs path ≠ none) : Names path := by
  induction path generalizing k xs with
  | nil => exact absurd rfl hs
  | cons name path ih =>
    cases hf : Keyed.find Entry.name name xs with
    | none => exact absurd (sideAt_none hf path) hs
    | some x =>
      have hmx := Keyed.mem_of_find hf
      have hname : validName name := by
        rw [← Keyed.key_of_find hf]
        exact Entry.valid_name (hv x hmx)
      intro m hm
      rcases mem_cons.mp hm with rfl | hm
      · exact hname
      have hp : path ≠ [] := ne_nil_of_mem hm
      rw [sideAt_cons hf hp] at hs
      cases hk : x.kind with
      | file =>
        have hnil : under look x = [] := by simp [under, hk]
        rw [hnil] at hs
        exact absurd (sideAt_nil path) hs
      | directory =>
        cases k with
        | zero => cases (h x hmx).1.symm.trans hk
        | succ k =>
          obtain ⟨es, hes, -, hall⟩ := (sound_directory hk).mp (h x hmx)
          obtain ⟨-, b, -, hd⟩ := dirOf_eq_some.mp hes
          rw [under_directory hk hes] at hs
          exact ih (fun e he => decode_valid hd he) hall hs m hm

end

/-! ## The comparison of two accepted trees -/

section
variable [Sha256]

def named (look : Cid → Option Bytes) (root : Option Cid) (path : List Bytes) : Option Side :=
  sideAt look ((topOf look root).getD []) path

def tree (look : Cid → Option Bytes) (root : Option Cid) : Listing := listing look ((topOf look root).getD [])

/-- The nodes a comparison may read: the roots, and the directories on both sides of a path
whose CIDs differ. -/
def Read (look : Cid → Option Bytes) (a b : Option Cid) (cid : Cid) : Prop :=
  a = some cid ∨ b = some cid ∨ ∃ path x y, named look a path = some x ∧ named look b path = some y ∧
    x.kind = .directory ∧ y.kind = .directory ∧ x.cid ≠ y.cid ∧ (cid = x.cid ∨ cid = y.cid)

variable {B : Type} [BlockSource B]

/-- A comparison of `a` and `b` visits `cs`, with steps and a buffer enough, in any store that
has what `look` has of the nodes it may read. -/
def Visits (view : B → Cid → Option Bytes) (look : Cid → Option Bytes) (a b : Option Cid)
    (cs : List (List Bytes × Change)) : Prop :=
  ∀ held : Cid → Option Bytes, (∀ cid, Read look a b cid → held cid = look cid) →
    ∃ steps, ∀ s : Comparing B Visited, steps ≤ s.store.left → view s.store.blocks = held →
      pathMax ≤ s.path.length →
      ∃ t, (diff a b record).run s = .ok cs.length t ∧ t.seen = s.seen ++ cs.map (shown [])

variable {look : Cid → Option Bytes} {root : Option Cid} {view : B → Cid → Option Bytes}

theorem topOf_congr {held : Cid → Option Bytes}
    (h : ∀ cid, root = some cid → held cid = look cid) : topOf held root = topOf look root := by
  cases root with
  | none => rfl
  | some cid => exact dirOf_congr (h cid rfl)

theorem Accepted.tidy (hr : Mirrors view) {s : B}
    (h : Accepted s root) : ∃ es, topOf (view s) root = some es ∧ Tidy (view s) (depth - 1) es ∧
      ∀ e ∈ es, e.valid := by
  obtain ⟨es, htop, hasc, hsound⟩ := h.sound hr
  refine ⟨es, htop, ⟨hasc, hsound⟩, fun e he => ?_⟩
  cases root with
  | none =>
    cases htop
    exact absurd he not_mem_nil
  | some cid =>
    obtain ⟨-, b, -, hd⟩ := dirOf_eq_some.mp htop
    exact decode_valid hd he

theorem visits (hr : Mirrors view)
    {a b : Option Cid} {xs ys : List Entry} (ha : topOf look a = some xs) (hb : topOf look b = some ys)
    (hx : Tidy look (depth - 1) xs) (hy : Tidy look (depth - 1) ys) :
    Visits view look a b (changes look depth xs ys) := by
  intro held hread
  have hone : topOf held a = some xs := (topOf_congr fun cid h => hread cid (.inl h)).trans ha
  have htwo : topOf held b = some ys := (topOf_congr fun cid h => hread cid (.inr (.inl h))).trans hb
  refine diff_run hr hone htwo hx.2 hy.2 fun cid hgone => hread cid (.inr (.inr ?_))
  unfold named
  rwa [ha, hb]

/-- A comparison of two directory trees that `walk` accepts is exact: it visits each path whose
two sides differ, below directories of both sides, once and in the order of the names; the
changes made in the one tree give the other; equal trees give none; and the other way round
the same paths are visited with the sides changed over. -/
theorem diff_exact {view : B → Cid → Option Bytes} (hr : Mirrors view) (s : B) (a b : Option Cid)
    (ha : Accepted s a) (hb : Accepted s b) :
    ∃ cs, Visits view (view s) a b cs ∧
      Visits view (view s) b a (cs.map fun c => (c.1, c.2.turned)) ∧
      cs.Pairwise (fun c d => c.1 < d.1) ∧ (cs.map fun c => joined c.1).Nodup ∧
      (∀ path c, (path, c) ∈ cs ↔
        (∀ q, q ≠ [] → q <+: path → q ≠ path →
          IsDirectory (named (view s) a q) ∧ IsDirectory (named (view s) b q)) ∧
        Differs (named (view s) a path) (named (view s) b path) ∧
        changeOf (named (view s) a path) (named (view s) b path) = some c) ∧
      cs.foldl (Listing.change (view s)) (tree (view s) a) = tree (view s) b ∧
      (tree (view s) a = tree (view s) b → cs = []) := by
  obtain ⟨xs, hxs, hx, hvx⟩ := ha.tidy hr
  obtain ⟨ys, hys, hy, hvy⟩ := hb.tidy hr
  have hmem : ∀ {path : List Bytes} {c : Change}, (path, c) ∈ changes (view s) depth xs ys ↔
      Reached (view s) xs ys path ∧ Differs (sideAt (view s) xs path) (sideAt (view s) ys path) ∧
        changeOf (sideAt (view s) xs path) (sideAt (view s) ys path) = some c := mem_changes hx hy
  have hsorted : (changes (view s) depth xs ys).Pairwise fun c d => c.1 < d.1 := changes_sorted hx hy
  have hnames : ∀ c ∈ changes (view s) depth xs ys, Names c.1 := by
    intro c hc
    obtain ⟨-, hdiff, -⟩ := hmem.mp hc
    by_cases hleft : sideAt (view s) xs c.1 = none
    · refine names_of_sideAt hvy hy.2 fun hright => ?_
      rw [hleft, hright] at hdiff
      exact hdiff
    · exact names_of_sideAt hvx hx.2 hleft
  simp only [named, tree, hxs, hys, Option.getD_some]
  refine ⟨changes (view s) depth xs ys, visits hr hxs hys hx hy, ?_, hsorted, ?_,
    fun path c => hmem, foldl_changes hx hy, fun htree => ?_⟩
  · rw [← changes_turned]
    exact visits hr hys hxs hy hx
  · rw [List.Nodup, pairwise_map]
    refine hsorted.imp_of_mem fun {c d} hc hd hlt he => ?_
    rw [joined_inj (hnames c hc) (hnames d hd) he] at hlt
    exact Std.lt_irrefl hlt
  · refine eq_nil_iff_forall_not_mem.mpr fun c hc => ?_
    obtain ⟨-, hdiff, -⟩ := hmem.mp hc
    refine not_differs_of_leaf ?_ hdiff
    exact congrFun htree c.1

end

def oneFile : Bytes := encodeWith [⟨[0x61], .file, 2, @Cid.of Dag.lengthDigest .raw [1, 2]⟩]

def twoTrees : Dag.Memory :=
  letI := Dag.lengthDigest
  ⟨Dag.enter (fun _ => none) [(.raw, [1, 2]), (.dagCbor, oneFile), (.dagCbor, empty)]⟩

theorem diff_exact_of_one_file : letI := Dag.lengthDigest
    let a := some (Cid.of .dagCbor oneFile)
    let b := some (Cid.of .dagCbor empty)
    Accepted twoTrees a ∧ Accepted twoTrees b ∧
      ∃ cs, Visits Dag.Memory.held twoTrees.held a b cs ∧
        cs.foldl (Listing.change twoTrees.held) (tree twoTrees.held a) = tree twoTrees.held b := by
  let := Dag.lengthDigest
  have ha : Accepted twoTrees (some (Cid.of .dagCbor oneFile)) :=
    ⟨⟨8, 2, twoTrees, by rfl⟩, 1, twoTrees, by rfl⟩
  have hb : Accepted twoTrees (some (Cid.of .dagCbor empty)) :=
    ⟨⟨8, 0, twoTrees, by rfl⟩, 0, twoTrees, by rfl⟩
  obtain ⟨cs, hvisits, -, -, -, -, hfold, -⟩ := diff_exact Dag.memory_mirrors twoTrees _ _ ha hb
  exact ⟨ha, hb, cs, hvisits, hfold⟩

end MindCore.Tree
