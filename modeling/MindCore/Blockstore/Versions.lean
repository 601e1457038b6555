import MindCore.Libmind.Dag
import Mathlib.Data.List.Induction

/-!
# The versions kept of a name

`Head::keep` of `blockstore/src/store.rs`: mounting meets the records of a name in the order they
lie on the medium, which is not the order they were written in.
-/

namespace MindCore.Blockstore

def history : Nat := 4

/-- A version of a name, with the size of its object; none as a root removed the name. -/
structure Version where
  version : Nat
  owner : Nat
  root : Option Cid
  size : Nat
deriving DecidableEq

def keep (kept : List Version) (v : Version) : List Version :=
  if kept.any fun k => k.version = v.version || (k.root.isNone && v.version < k.version) then kept
  else
    let i := kept.findIdx fun k => k.version < v.version
    if i = history then kept
    else
      let kept := (kept.take i ++ v :: kept.drop i).take history
      if v.root.isNone then kept.take (i + 1) else kept

open List
variable {v : Version} {a b l vs p : List Version} {n : Nat}

/-- Of versions from the newest on, at most `n`, and none older than one that removed the name. -/
def newest (n : Nat) (l : List Version) : List Version :=
  l.take (min n (l.findIdx (fun v => v.root.isNone) + 1))

theorem newest_cons (n : Nat) (v : Version) (l : List Version) :
    newest (n + 1) (v :: l) = if v.root.isNone then [v] else v :: newest n l := by
  unfold newest
  rw [findIdx_cons]
  cases v.root.isNone with
  | true => simp
  | false => simp [Nat.add_min_add_right]

/-- `p` are the newest versions so far, with room for `n` more. -/
theorem keep_newest (hp : ∀ k ∈ p, v.version < k.version ∧ k.root.isNone = false) (hn : p.length + n = history)
    (ha : ∀ k ∈ a, v.version < k.version) (hb : ∀ k ∈ b, k.version < v.version) :
    keep (p ++ newest n (a ++ b)) v = p ++ newest n (a ++ v :: b) := by
  induction a generalizing n p with
  | nil =>
    have hold : ∀ k ∈ newest n b, k.version < v.version := fun k hk => hb k (mem_of_mem_take hk)
    have hany : (p ++ newest n b).any (fun k => k.version = v.version ||
        (k.root.isNone && v.version < k.version)) = false := by
      grind
    have hidx : (p ++ newest n b).findIdx (fun k => k.version < v.version) = p.length := by
      cases hnew : newest n b <;> grind
    rw [nil_append, nil_append, keep, if_neg (by simp [hany]), hidx]
    cases n with
    | zero => simp [newest, ← hn]
    | succ n =>
      have htake : (newest (n + 1) b).take n = newest n b := by
        unfold newest
        rw [take_take]
        congr 1
        omega
      rw [if_neg (by omega), take_left, drop_left, ← hn, take_length_add_append, newest_cons]
      split <;> simp [htake, take_length_add_append]
  | cons k a ih =>
    obtain ⟨hk, ha⟩ := forall_mem_cons.mp ha
    cases n with
    | zero => simpa [newest] using ih hp hn ha
    | succ n =>
      rw [cons_append, cons_append, newest_cons, newest_cons]
      split
      · rename_i hr
        rw [keep, if_pos]
        simp [hr, hk]
      · rename_i hr
        simpa using ih (p := p ++ [k]) (by grind) (by simp; omega) ha

/-- What is kept of a name's versions does not depend on the order they are met in. -/
theorem kept_versions_in_any_order (hp : vs.Perm l) (hl : l.Pairwise fun a b => b.version < a.version) :
    vs.foldl keep [] = newest history l := by
  induction vs using List.reverseRecOn generalizing l with
  | nil =>
    rw [nil_perm.mp hp]
    rfl
  | append_singleton vs v ih =>
    obtain ⟨a, b, rfl⟩ := append_of_mem (hp.subset (mem_append_right _ mem_cons_self))
    have hvs : vs.Perm (a ++ b) :=
      ((perm_append_singleton v vs).symm.trans (hp.trans perm_middle)).cons_inv
    obtain ⟨ha, hvb, hab⟩ := pairwise_append.mp hl
    rw [foldl_append, ih hvs (hl.sublist (by simp))]
    exact keep_newest (p := []) (by simp) rfl (fun k hk => hab k hk v mem_cons_self) (pairwise_cons.mp hvb).1

theorem removal_met_last : [⟨1, 0, some default, 0⟩, ⟨3, 0, some default, 0⟩, ⟨2, 0, none, 0⟩].foldl keep [] =
    newest history [⟨3, 0, some default, 0⟩, ⟨2, 0, none, 0⟩, ⟨1, 0, some default, 0⟩] :=
  kept_versions_in_any_order (by decide) (by decide)

end MindCore.Blockstore
