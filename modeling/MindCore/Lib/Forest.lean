import Mathlib.Algebra.Order.BigOperators.Group.Finset

/-!
# Forests with room delegated downwards

Finitely many nodes, each with at most one parent. Every node has room for what it owns and for the
room of its children; then what a node and all the nodes under it own fits in its room.
-/

namespace MindCore.Forest

open Relation

variable {ι β : Type*}

def Link (nodes : Finset ι) (parent : ι → Option ι) (c p : ι) : Prop :=
  c ∈ nodes ∧ p ∈ nodes ∧ parent c = some p

def Under (nodes : Finset ι) (parent : ι → Option ι) (j i : ι) : Prop := ReflTransGen (Link nodes parent) j i

open Classical in
noncomputable def below (nodes : Finset ι) (parent : ι → Option ι) (i : ι) : Finset ι :=
  nodes.filter fun j => Under nodes parent j i

section
variable {nodes : Finset ι} {parent : ι → Option ι}

theorem mem_below {i j : ι} : j ∈ below nodes parent i ↔ j ∈ nodes ∧ Under nodes parent j i := by
  simp [below]

variable [DecidableEq ι] [DecidableEq β]

def children (nodes : Finset ι) (parent : ι → Option ι) (i : ι) : Finset ι :=
  nodes.filter fun c => parent c = some i

theorem below_subset {i : ι} :
    below nodes parent i ⊆ insert i ((children nodes parent i).biUnion (below nodes parent)) := by
  intro j hj
  obtain ⟨hjn, hju⟩ := mem_below.mp hj
  rcases ReflTransGen.cases_tail hju with rfl | ⟨c, hjc, hc, -, hp⟩
  · exact Finset.mem_insert_self _ _
  · refine Finset.mem_insert_of_mem (Finset.mem_biUnion.mpr ⟨c, ?_, mem_below.mpr ⟨hjn, hjc⟩⟩)
    exact Finset.mem_filter.mpr ⟨hc, hp⟩

theorem card_owned_below_le (owned : ι → Finset β) (room : ι → Nat) {rank : ι → Nat}
    (hrank : ∀ c p, parent c = some p → rank p < rank c)
    (hroom : ∀ i ∈ nodes, (owned i).card + ∑ c ∈ children nodes parent i, room c ≤ room i)
    {i : ι} (hi : i ∈ nodes) : ((below nodes parent i).biUnion owned).card ≤ room i := by
  -- a child is nearer to the highest rank there is
  induction hn : nodes.sup rank - rank i using Nat.strong_induction_on generalizing i with
  | _ n ih =>
    have hsub : (below nodes parent i).biUnion owned ⊆ owned i ∪
        (children nodes parent i).biUnion fun c => (below nodes parent c).biUnion owned := by
      intro x hx
      obtain ⟨j, hj, hxj⟩ := Finset.mem_biUnion.mp hx
      rcases Finset.mem_insert.mp (below_subset hj) with rfl | hj
      · exact Finset.mem_union_left _ hxj
      · obtain ⟨c, hc, hjc⟩ := Finset.mem_biUnion.mp hj
        exact Finset.mem_union_right _
          (Finset.mem_biUnion.mpr ⟨c, hc, Finset.mem_biUnion.mpr ⟨j, hjc, hxj⟩⟩)
    have hchild : ∀ c ∈ children nodes parent i,
        ((below nodes parent c).biUnion owned).card ≤ room c := by
      intro c hc
      obtain ⟨hcn, hp⟩ := Finset.mem_filter.mp hc
      have hlt := hrank c i hp
      have hle : rank c ≤ nodes.sup rank := Finset.le_sup hcn
      exact ih _ (by omega) hcn rfl
    calc ((below nodes parent i).biUnion owned).card
        ≤ (owned i ∪ (children nodes parent i).biUnion fun c =>
            (below nodes parent c).biUnion owned).card := Finset.card_le_card hsub
      _ ≤ (owned i).card + ((children nodes parent i).biUnion fun c =>
            (below nodes parent c).biUnion owned).card := Finset.card_union_le _ _
      _ ≤ (owned i).card + ∑ c ∈ children nodes parent i,
            ((below nodes parent c).biUnion owned).card :=
          Nat.add_le_add_left Finset.card_biUnion_le _
      _ ≤ (owned i).card + ∑ c ∈ children nodes parent i, room c :=
          Nat.add_le_add_left (Finset.sum_le_sum hchild) _
      _ ≤ room i := hroom i hi

end

end MindCore.Forest
