/-
# Totals over a relation

The weight of a node together with the weights of all nodes that a relation counts for
it, and how this total changes: when nodes are taken out or put in, when more nodes are
counted, and when the weight of a node changes. The last part bounds totals where nodes are
added and cut off at once.
-/

import Mathlib.Algebra.BigOperators.Group.Finset.Piecewise
import Mathlib.Algebra.Order.BigOperators.Group.Finset

namespace BtcSharp.Math

open Finset

variable {α M : Type*} [AddCommGroup M]

open Classical in
/-- The weight of a node and of the nodes that are counted for it. -/
noncomputable def relTotal (nodes : Finset α) (counts : α → α → Prop) (weight : α → M) (x : α) :
    M :=
  weight x + ∑ a ∈ nodes with counts a x, weight a

section

variable {nodes : Finset α} {counts counts' : α → α → Prop} {weight weight' : α → M} {x : α}

open Classical in
/-- More nodes are counted. -/
theorem relTotal_add (extra : Finset α) (hextra : extra ⊆ nodes) (hnew : ∀ a ∈ extra, ¬ counts a x)
    (hcounts : ∀ a ∈ nodes, counts' a x ↔ counts a x ∨ a ∈ extra) :
    relTotal nodes counts' weight x = relTotal nodes counts weight x + ∑ a ∈ extra, weight a := by
  unfold relTotal
  have hsplit :
      nodes.filter (fun a => counts' a x) = nodes.filter (fun a => counts a x) ∪ extra := by
    ext a
    simp only [mem_filter, mem_union]
    constructor
    · rintro ⟨hmem, hcount⟩
      rcases (hcounts a hmem).mp hcount with h | h
      · exact .inl ⟨hmem, h⟩
      · exact .inr h
    rintro (⟨hmem, h⟩ | h)
    · exact ⟨hmem, (hcounts a hmem).mpr (.inl h)⟩
    · exact ⟨hextra h, (hcounts a (hextra h)).mpr (.inr h)⟩
  have hdisjoint : Disjoint (nodes.filter fun a => counts a x) extra := by
    rw [disjoint_left]
    exact fun a hold hmem => hnew a hmem (mem_filter.mp hold).2
  rw [hsplit, sum_union hdisjoint, add_assoc]

/-- The same nodes are counted with the same weights. -/
theorem relTotal_congr (hcounts : ∀ a ∈ nodes, counts' a x ↔ counts a x)
    (hself : weight' x = weight x) (hweight : ∀ a ∈ nodes, weight' a = weight a) :
    relTotal nodes counts' weight' x = relTotal nodes counts weight x := by
  classical
  unfold relTotal
  rw [filter_congr hcounts]
  congr 1
  exact sum_congr rfl fun a ha => hweight a (mem_filter.mp ha).1

open Classical in
/-- Some nodes are taken out. -/
theorem relTotal_sdiff [DecidableEq α] (cut : Finset α) (hcut : cut ⊆ nodes) :
    relTotal (nodes \ cut) counts weight x =
      relTotal nodes counts weight x - ∑ a ∈ cut with counts a x, weight a := by
  unfold relTotal
  have hsplit : nodes.filter (fun a => counts a x) =
      (nodes \ cut).filter (fun a => counts a x) ∪ cut.filter (fun a => counts a x) := by
    rw [← filter_union, sdiff_union_of_subset hcut]
  have hdisjoint :
    Disjoint ((nodes \ cut).filter fun a => counts a x) (cut.filter fun a => counts a x) :=
    disjoint_filter_filter sdiff_disjoint
  rw [hsplit, sum_union hdisjoint, ← add_assoc, add_sub_cancel_right]

open Classical in
/-- A node is put in. -/
theorem relTotal_insert [DecidableEq α] {n : α} (hn : n ∉ nodes) :
      relTotal (insert n nodes) counts weight x =
      relTotal nodes counts weight x + if counts n x then weight n else 0 := by
  unfold relTotal
  rw [filter_insert]
  split
  · have hnot : n ∉ nodes.filter fun a => counts a x := fun h => hn (mem_filter.mp h).1
    rw [sum_insert hnot, add_comm (weight n), add_assoc]
  · rw [add_zero]

open Classical in
/-- The weight of a node changes. -/
theorem relTotal_update {n : α} (hn : n ∈ nodes) (hirrefl : ¬ counts n n) {change : M}
    (hself : weight' n = weight n + change) (hweight : ∀ a, a ≠ n → weight' a = weight a) :
    relTotal nodes counts weight' x =
      relTotal nodes counts weight x + if x = n ∨ counts n x then change else 0 := by
  have hsum : ∑ a ∈ nodes with counts a x, weight' a =
      (∑ a ∈ nodes with counts a x, weight a) + if counts n x then change else 0 := by
    by_cases hcount : counts n x
    · have hmem : n ∈ nodes.filter fun a => counts a x := mem_filter.mpr ⟨hn, hcount⟩
      rw [if_pos hcount, ← add_sum_erase _ _ hmem, ← add_sum_erase _ _ hmem, hself,
        sum_congr rfl fun a ha => hweight a (ne_of_mem_erase ha), add_right_comm]
    rw [if_neg hcount, add_zero]
    refine sum_congr rfl fun a ha => hweight a ?_
    rintro rfl
    exact hcount (mem_filter.mp ha).2
  unfold relTotal
  rw [hsum]
  by_cases heq : x = n
  · subst heq
    rw [hself, if_neg hirrefl, if_pos (Or.inl rfl), add_zero, add_right_comm]
  · simp [heq, hweight x heq, add_assoc]

end

/-- With weights that are not negative a total is at least the weight of its node. -/
theorem le_relTotal {nodes : Finset α} {counts : α → α → Prop} {weight : α → ℤ} {x : α}
    (hweight : ∀ a ∈ nodes, 0 ≤ weight a) : weight x ≤ relTotal nodes counts weight x := by
  classical
  have hsum : 0 ≤ ∑ a ∈ nodes with counts a x, weight a :=
    sum_nonneg fun a ha => hweight a (mem_filter.mp ha).1
  exact le_add_of_nonneg_right hsum

open Classical in
/-- The sum over a duplicate-free list of the nodes that are counted. -/
theorem sum_map_eq_sum_filter {nodes : Finset α} {P : α → Prop} {weight : α → M} {list : List α}
    (hnodup : list.Nodup) (hmem : ∀ a, a ∈ list ↔ a ∈ nodes ∧ P a) :
    (list.map weight).sum = ∑ a ∈ nodes with P a, weight a := by
  rw [← List.sum_toFinset weight hnodup]
  refine sum_congr ?_ fun _ _ => rfl
  ext a
  rw [List.mem_toFinset, hmem, mem_filter]

/-- The total when the nodes that are counted are listed. -/
theorem relTotal_eq_list {nodes : Finset α} {counts : α → α → Prop} {weight : α → M} {x : α}
    {list : List α} (hnodup : list.Nodup) (hmem : ∀ a, a ∈ list ↔ a ∈ nodes ∧ counts a x) :
    relTotal nodes counts weight x = weight x + (list.map weight).sum := by
  unfold relTotal
  rw [sum_map_eq_sum_filter hnodup hmem]

section Bounds

variable {nodes nodes' : Finset α} {counts counts' : α → α → Prop} {weight weight' : α → ℤ} {x : α}

open Classical in
/-- Nodes that were counted are cut off, and the only nodes that are counted besides are new. -/
theorem relTotal_graft_le (cut new : Finset α)
    (hcounts : ∀ a ∈ nodes', counts' a x → (a ∈ nodes ∧ counts a x ∧ a ∉ cut) ∨ a ∈ new)
    (hcut : ∀ a ∈ cut, a ∈ nodes ∧ counts a x) (hself : weight' x = weight x)
    (hweight : ∀ a ∈ nodes', counts' a x → a ∉ new → weight' a = weight a)
    (hnonneg : ∀ a, 0 ≤ weight a) (hnonneg' : ∀ a, 0 ≤ weight' a) :
    relTotal nodes' counts' weight' x + ∑ a ∈ cut, weight a ≤
      relTotal nodes counts weight x + ∑ a ∈ new, weight' a := by
  have hsplit := sum_inter_add_sum_sdiff (nodes'.filter fun a => counts' a x) new weight'
  have hnew : ∑ a ∈ (nodes'.filter fun a => counts' a x) ∩ new, weight' a ≤ ∑ a ∈ new, weight' a :=
    sum_le_sum_of_subset_of_nonneg inter_subset_right fun a _ _ => hnonneg' a
  have hsame : ∑ a ∈ (nodes'.filter fun a => counts' a x) \ new, weight' a =
      ∑ a ∈ (nodes'.filter fun a => counts' a x) \ new, weight a := by
    apply sum_congr rfl
    intro a ha
    obtain ⟨ha, hnot⟩ := mem_sdiff.mp ha
    exact hweight a (mem_filter.mp ha).1 (mem_filter.mp ha).2 hnot
  have hold : ∑ a ∈ (nodes'.filter fun a => counts' a x) \ new, weight a ≤
      ∑ a ∈ (nodes.filter fun a => counts a x) \ cut, weight a := by
    apply sum_le_sum_of_subset_of_nonneg
    · intro a ha
      obtain ⟨ha, hnot⟩ := mem_sdiff.mp ha
      obtain ⟨hmem, hcount⟩ := mem_filter.mp ha
      obtain ⟨hthere, hbefore, hkept⟩ := (hcounts a hmem hcount).resolve_right hnot
      exact mem_sdiff.mpr ⟨mem_filter.mpr ⟨hthere, hbefore⟩, hkept⟩
    · exact fun a _ _ => hnonneg a
  have hcutSub : cut ⊆ nodes.filter fun a => counts a x := fun a ha => mem_filter.mpr (hcut a ha)
  have hrest := sum_sdiff hcutSub (f := weight)
  unfold relTotal
  omega

/-- The same nodes or fewer are counted. -/
theorem relTotal_mono_le (hcounts : ∀ a ∈ nodes', counts' a x → a ∈ nodes ∧ counts a x)
    (hself : weight' x = weight x) (hweight : ∀ a ∈ nodes', counts' a x → weight' a = weight a)
    (hnonneg : ∀ a, 0 ≤ weight a) (hnonneg' : ∀ a, 0 ≤ weight' a) :
    relTotal nodes' counts' weight' x ≤ relTotal nodes counts weight x := by
  have hle := relTotal_graft_le ∅ ∅
    (fun a ha hcount => .inl ⟨(hcounts a ha hcount).1, (hcounts a ha hcount).2, notMem_empty a⟩)
    (fun a ha => absurd ha (notMem_empty a)) hself (fun a ha hcount _ => hweight a ha hcount)
    hnonneg hnonneg'
  simpa using hle

/-- All that is counted for a node is in a set with it. -/
theorem relTotal_le_sum {set : Finset α} (hx : x ∈ set) (hirrefl : ¬ counts x x)
    (hcounts : ∀ a ∈ nodes, counts a x → a ∈ set) (hnonneg : ∀ a, 0 ≤ weight a) :
    relTotal nodes counts weight x ≤ ∑ a ∈ set, weight a := by
  classical
  have hnot : x ∉ nodes.filter fun a => counts a x := fun h => hirrefl (mem_filter.mp h).2
  unfold relTotal
  rw [← sum_insert hnot]
  refine sum_le_sum_of_subset_of_nonneg (insert_subset hx fun a ha => ?_) fun a _ _ => hnonneg a
  obtain ⟨hmem, hcount⟩ := mem_filter.mp ha
  exact hcounts a hmem hcount

end Bounds

end BtcSharp.Math
