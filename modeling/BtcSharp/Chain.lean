/-
# Heights and times of block index entries

`GetAncestor` and `GetMedianTimePast` of `chain.h`. The times of the blocks are given by a function
on the entries of the block index. Where each block is later than the median time of its parent, as
the header check demands, the median times never decrease along a chain.
-/

import Mathlib.Data.List.GetD
import BtcSharp.Math.OrderStatistic
import BtcSharp.Validation.Block

namespace BtcSharp

open List Math

/-- `GetAncestor` for a height that can be negative. -/
def CBlockIndex.getAncestorInt (pindex : CBlockIndex) (height : Int) : CBlockIndex :=
  if height < 0 then [] else pindex.getAncestor height.toNat

def nMedianTimeSpan : Nat := 11

/-- The times of a number of last blocks. -/
def lastTimes (nTime : CBlockIndex → UInt32) : Nat → CBlockIndex → List Int
  | 0, _ => []
  | _ + 1, [] => []
  | span + 1, hash :: pprev => ((nTime (hash :: pprev)).toNat : Int) :: lastTimes nTime span pprev

def getMedianTimePast (nTime : CBlockIndex → UInt32) (pindex : CBlockIndex) : Int :=
  let times := sorted (lastTimes nTime nMedianTimeSpan pindex)
  times.getD (times.length / 2) 0

/-- Entries of the block index with the times of their blocks. It has the parents of its blocks, and
each block is later than the median time of its parent, which `ContextualCheckBlockHeader` checks.
-/
structure HeaderTree where
  blocks : Set CBlockIndex
  nTime : CBlockIndex → UInt32
  pprev_mem : ∀ hash pprev, hash :: pprev ∈ blocks → pprev ≠ [] → pprev ∈ blocks
  time_gt : ∀ hash pprev, hash :: pprev ∈ blocks → pprev ≠ [] →
    getMedianTimePast nTime pprev < (nTime (hash :: pprev)).toNat

variable {nTime : CBlockIndex → UInt32}

theorem length_lastTimes (span : Nat) (pindex : CBlockIndex) :
    (lastTimes nTime span pindex).length = min span pindex.length := by
  induction span generalizing pindex with
  | zero => simp [lastTimes]
  | succ span ih =>
    cases pindex with
    | nil => simp [lastTimes]
    | cons hash pprev => simp [lastTimes, ih]

/-- With a shorter span the last times are left out. -/
theorem lastTimes_sublist (span : Nat) (pindex : CBlockIndex) :
    (lastTimes nTime span pindex).Sublist (lastTimes nTime (span + 1) pindex) := by
  induction span generalizing pindex with
  | zero => exact nil_sublist _
  | succ span ih =>
    cases pindex with
    | nil => exact nil_sublist _
    | cons hash pprev => exact (ih pprev).cons_cons _

/-- The median time is at least a bound if and only if at most half of the times are below. -/
theorem le_getMedianTimePast_iff {pindex : CBlockIndex} (hne : pindex ≠ []) {bound : Int} :
    bound ≤ getMedianTimePast nTime pindex ↔
      (lastTimes nTime nMedianTimeSpan pindex).countP (fun time => decide (time < bound)) ≤
        min nMedianTimeSpan pindex.length / 2 := by
  have hperm := sorted_perm (lastTimes nTime nMedianTimeSpan pindex)
  have hlength := hperm.length_eq.trans (length_lastTimes nMedianTimeSpan pindex)
  have hpos : 0 < min nMedianTimeSpan pindex.length := lt_min (by decide) (length_pos_iff.mpr hne)
  have hk :
      min nMedianTimeSpan pindex.length / 2 <
      (sorted (lastTimes nTime nMedianTimeSpan pindex)).length := by
    omega
  rw [getMedianTimePast, hlength, getD_eq_getElem _ _ hk,
    le_getElem_iff_countP (pairwise_sorted _) hk, hperm.countP_eq]

/-- A block that is later than the median time of its parent has no earlier median time. The new
time does not count, and of the others there are no more than before. -/
theorem getMedianTimePast_le_cons {hash : Uint256} {pprev : CBlockIndex} (hne : pprev ≠ [])
    (htime : getMedianTimePast nTime pprev < (nTime (hash :: pprev)).toNat) :
    getMedianTimePast nTime pprev ≤ getMedianTimePast nTime (hash :: pprev) := by
  rw [le_getMedianTimePast_iff (cons_ne_nil hash pprev)]
  have hparent := (le_getMedianTimePast_iff hne).mp (le_refl (getMedianTimePast nTime pprev))
  generalize getMedianTimePast nTime pprev = bound at htime hparent ⊢
  have hcount : (lastTimes nTime nMedianTimeSpan (hash :: pprev)).countP
      (fun time => decide (time < bound)) ≤
      (lastTimes nTime nMedianTimeSpan pprev).countP (fun time => decide (time < bound)) := by
    have hnew : (lastTimes nTime nMedianTimeSpan (hash :: pprev)).countP
        (fun time => decide (time < bound)) =
        (lastTimes nTime 10 pprev).countP (fun time => decide (time < bound)) := by
      apply countP_cons_of_neg
      simpa using htime.le
    rw [hnew]
    exact (lastTimes_sublist 10 pprev).countP_le
  have hlength : min nMedianTimeSpan pprev.length / 2 ≤ min nMedianTimeSpan
      (hash :: pprev).length / 2 := by
    apply Nat.div_le_div_right
    exact min_le_min_left _ (Nat.le_succ _)
  exact (hcount.trans hparent).trans hlength

/-- In a tree of headers median times do not decrease along a chain. -/
theorem HeaderTree.getMedianTimePast_mono (tree : HeaderTree) {ancestor pindex : CBlockIndex}
    (hmem : pindex ∈ tree.blocks) (hsuffix : ancestor <:+ pindex) (hne : ancestor ≠ []) :
    ancestor ∈ tree.blocks ∧
    getMedianTimePast tree.nTime ancestor ≤ getMedianTimePast tree.nTime pindex := by
  induction pindex with
  | nil => exact absurd (suffix_nil.mp hsuffix) hne
  | cons hash pprev ih =>
    rcases suffix_cons_iff.mp hsuffix with rfl | hsuffix
    · exact ⟨hmem, le_refl _⟩
    have hpprev := hsuffix.ne_nil hne
    obtain ⟨hancestor, hle⟩ := ih (tree.pprev_mem hash pprev hmem hpprev) hsuffix
    exact ⟨hancestor,
      hle.trans (getMedianTimePast_le_cons hpprev (tree.time_gt hash pprev hmem hpprev))⟩

end BtcSharp
