/-
# Entries of a sorted list

The entry of a sorted list at an index is bounded from below by counting the entries that are
smaller. So a bound on it can be carried over to another list without sorting that one.
-/

import Mathlib.Data.List.Sort

namespace BtcSharp.Math

open List

variable {α : Type*} [LinearOrder α]

/-- The list in ascending order. -/
def sorted (values : List α) : List α := values.mergeSort fun a b => decide (a ≤ b)

theorem sorted_perm (values : List α) : (sorted values).Perm values := mergeSort_perm values _

theorem pairwise_sorted (values : List α) : (sorted values).Pairwise (· ≤ ·) :=
  pairwise_mergeSort' (· ≤ ·) values

/-- An entry of an ascending list has a lower bound if and only if at most as many entries are below
the bound as stand before it. -/
theorem le_getElem_iff_countP {values : List α} (h : values.Pairwise (· ≤ ·)) {k : Nat}
    (hk : k < values.length)
    {bound : α} : bound ≤ values[k] ↔ values.countP (fun a => decide (a < bound)) ≤ k := by
  induction values generalizing k with
  | nil => cases hk
  | cons first rest ih =>
    obtain ⟨hfirst, hrest⟩ := pairwise_cons.mp h
    by_cases hbelow : first < bound
    · rw [countP_cons_of_pos (p := fun a => decide (a < bound)) (decide_eq_true hbelow)]
      cases k with
      | zero => simpa using hbelow
      | succ k =>
        rw [getElem_cons_succ, ih hrest (Nat.lt_of_succ_lt_succ hk), Nat.add_le_add_iff_right]
    · have hall : ∀ a ∈ first :: rest, bound ≤ a := by
        intro a ha
        rcases mem_cons.mp ha with rfl | ha
        · exact le_of_not_gt hbelow
        · exact (le_of_not_gt hbelow).trans (hfirst a ha)
      have hnone : (first :: rest).countP (fun a => decide (a < bound)) = 0 := by
        apply countP_eq_zero.mpr
        intro a ha
        simpa using hall a ha
      rw [hnone]
      exact ⟨fun _ => Nat.zero_le k, fun _ => hall _ (getElem_mem hk)⟩

end BtcSharp.Math
