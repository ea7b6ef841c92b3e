/-
# The bound on header commitments

`HeadersSyncState` of `headerssync.cpp` stores a bit for every 624th header of a peer's chain, and
gives up on a chain that needs more bits than six blocks a second could. The median time of eleven
blocks cannot be held back longer than that. But a period that has begun takes a bit of its own,
which the bound rounds away.
-/

import Mathlib.Data.Int.CardIntervalMod
import BtcSharp.Chain

namespace BtcSharp

open List Math

def HEADER_COMMITMENT_PERIOD : Nat := 624

def MAX_FUTURE_BLOCK_TIME : Int := 2 * 60 * 60

/-- Six headers for each second up to the latest time that a block may have. -/
def fastestHeaders (nTime : CBlockIndex → UInt32) (chain_start : CBlockIndex) (now : Int) : Int :=
  6 * (now - getMedianTimePast nTime chain_start + MAX_FUTURE_BLOCK_TIME)

/-- The bound of a `HeadersSyncState` that is made at a time. The division is one of unsigned
numbers of 64 bits, since the period is a `size_t`. -/
def m_max_commitments (nTime : CBlockIndex → UInt32) (chain_start : CBlockIndex) (now : Int) :
    Int :=
  fastestHeaders nTime chain_start now % 2 ^ 64 / HEADER_COMMITMENT_PERIOD

/-- The number of bits that `ValidateAndProcessSingleHeader` stores for the headers of a chain. -/
def headerCommitments (m_commit_offset : Nat) (chain_start : CBlockIndex) (headers : List Uint256) :
    Nat :=
  Nat.count (fun k => (chain_start.nHeight + 1 + k) % HEADER_COMMITMENT_PERIOD = m_commit_offset)
    headers.length

/-- Headers on top of a chain, the last one first. Each is later than the median time of its parent
and no later than a bound. -/
def TimesValid (nTime : CBlockIndex → UInt32) (latest : Int) (chain_start : CBlockIndex) :
  List Uint256 → Prop
  | [] => True
  | hash :: headers =>
    getMedianTimePast nTime (headers ++ chain_start) <
      (nTime (hash :: headers ++ chain_start)).toNat ∧
      (nTime (hash :: headers ++ chain_start)).toNat ≤ latest ∧
      TimesValid nTime latest chain_start headers

variable {nTime : CBlockIndex → UInt32} {latest bound : Int} {chain_start : CBlockIndex}
  {headers top below : List Uint256}

theorem timesValid_append : TimesValid nTime latest chain_start (top ++ below) ↔
    TimesValid nTime latest (below ++ chain_start) top ∧
    TimesValid nTime latest chain_start below := by
  induction top with
  | nil => exact (and_iff_right trivial).symm
  | cons hash top ih => simp only [TimesValid, cons_append, append_assoc, ih, and_assoc]

theorem mem_lastTimes {time : Int} {span : Nat} {pindex : CBlockIndex}
    (h : time ∈ lastTimes nTime span pindex) :
    ∃ ancestor, ancestor <:+ pindex ∧ time = (nTime ancestor).toNat := by
  fun_induction lastTimes nTime span pindex with
  | case1 | case2 => cases h
  | case3 span hash pprev ih =>
    rcases mem_cons.mp h with rfl | h
    · exact ⟨_, suffix_rfl, rfl⟩
    · obtain ⟨ancestor, hsuffix, htime⟩ := ih h
      exact ⟨ancestor, hsuffix.trans (suffix_cons _ _), htime⟩

theorem getMedianTimePast_nonneg (hne : chain_start ≠ []) :
    0 ≤ getMedianTimePast nTime chain_start := by
  rw [le_getMedianTimePast_iff hne, countP_eq_zero.mpr]
  · exact Nat.zero_le _
  · intro time hmem
    obtain ⟨_, _, rfl⟩ := mem_lastTimes hmem
    simp

section Started

variable (hne : chain_start ≠ []) (h : TimesValid nTime latest chain_start headers)

include hne h

theorem TimesValid.getMedianTimePast_le :
    getMedianTimePast nTime chain_start ≤ getMedianTimePast nTime (headers ++ chain_start) := by
  induction headers with
  | nil => exact le_refl _
  | cons hash headers ih =>
    exact (ih h.2.2).trans (getMedianTimePast_le_cons (append_ne_nil_of_right_ne_nil _ hne) h.1)

/-- The new headers are later than the median time they start with, so only older ones count below.
-/
theorem TimesValid.countP_lastTimes (span : Nat) :
    (lastTimes nTime (headers.length + span) (headers ++ chain_start)).countP
      (fun time => decide (time < getMedianTimePast nTime chain_start + 1)) ≤ min span
        chain_start.length := by
  induction headers with
  | nil =>
    rw [length_nil, Nat.zero_add, ← @length_lastTimes nTime]
    exact countP_le_length
  | cons hash headers ih =>
    have hlater := (h.2.2.getMedianTimePast_le hne).trans_lt h.1
    rw [length_cons, Nat.add_right_comm, cons_append, lastTimes, countP_cons_of_neg]
    · exact ih h.2.2
    · simpa using Int.add_one_le_of_lt hlater

/-- Six headers move the median time on. -/
theorem TimesValid.getMedianTimePast_six (hsix : headers.length = 6) :
    getMedianTimePast nTime chain_start + 1 ≤ getMedianTimePast nTime (headers ++ chain_start) := by
  rw [le_getMedianTimePast_iff (append_ne_nil_of_right_ne_nil _ hne), length_append]
  have hcount := h.countP_lastTimes hne 5
  rw [hsix] at hcount
  refine hcount.trans ?_
  simp only [nMedianTimeSpan]
  omega

theorem TimesValid.getMedianTimePast_add :
    getMedianTimePast nTime chain_start + (headers.length / 6 : Nat) ≤
      getMedianTimePast nTime (headers ++ chain_start) := by
  induction hlength : headers.length using Nat.strong_induction_on generalizing headers with
  | h length ih =>
    by_cases hshort : length < 6
    · rw [Nat.div_eq_of_lt hshort]
      simpa using h.getMedianTimePast_le hne
    rw [← take_append_drop 6 headers] at h ⊢
    obtain ⟨htop, hbelow⟩ := timesValid_append.mp h
    have hstep := htop.getMedianTimePast_six (append_ne_nil_of_right_ne_nil _ hne) (by grind)
    have hrest := ih (length - 6) (by omega) hbelow (by grind)
    rw [append_assoc]
    omega

/-- No more than six headers a second fit in. -/
theorem TimesValid.length_le (hlatest : getMedianTimePast nTime chain_start ≤ latest) :
    (headers.length : Int) ≤ 6 * (latest - getMedianTimePast nTime chain_start) := by
  cases headers with
  | nil => simpa using hlatest
  | cons hash headers =>
    have hparent := h.2.2.getMedianTimePast_add hne
    have hlast := h.1.trans_le h.2.1
    rw [length_cons]
    omega

end Started

/-- The number of headers below the first one that a bit is stored for. -/
def uncommitted (m_commit_offset : Nat) (chain_start : CBlockIndex) : Nat :=
  (m_commit_offset + (HEADER_COMMITMENT_PERIOD - 1) * (chain_start.nHeight + 1)) %
    HEADER_COMMITMENT_PERIOD

/-- Of consecutive heights, one in each period is counted, and one more where a period has begun. -/
theorem headerCommitments_eq (m_commit_offset : Nat)
    (hoffset : m_commit_offset < HEADER_COMMITMENT_PERIOD) :
    headerCommitments m_commit_offset chain_start headers =
      headers.length / HEADER_COMMITMENT_PERIOD +
        if uncommitted m_commit_offset chain_start < headers.length % HEADER_COMMITMENT_PERIOD
        then 1 else 0 := by
  rw [uncommitted, ← Nat.count_modEq_card (r := HEADER_COMMITMENT_PERIOD) _ (by decide),
    headerCommitments, Nat.count_eq_card_filter_range, Nat.count_eq_card_filter_range]
  refine congrArg Finset.card (Finset.filter_congr fun k _ => ?_)
  unfold Nat.ModEq
  simp only [HEADER_COMMITMENT_PERIOD] at hoffset ⊢
  omega

/-- Six blocks a second, from the eleventh block on. -/
def fastTime (pindex : CBlockIndex) : UInt32 := UInt32.ofNat ((pindex.length - 6) / 6)

theorem toNat_fastTime {pindex : CBlockIndex} (h : pindex.length ≤ 43211) :
    (fastTime pindex).toNat = (pindex.length - 6) / 6 := by
  rw [fastTime, UInt32.toNat_ofNat_of_lt']
  rw [UInt32.size]
  omega

theorem getMedianTimePast_fastTime_lt {n : Nat} (hn : n < 43200) (hbound : (n / 6 : Nat) < bound) :
    getMedianTimePast fastTime (replicate (n + 11) 0) < bound := by
  apply lt_of_not_ge
  rw [le_getMedianTimePast_iff (by simp)]
  have hearly :
      (lastTimes fastTime 6 (replicate (n + 6) 0)).countP
        (fun time => decide (time < bound)) = 6 := by
    rw [countP_eq_length.mpr, length_lastTimes, length_replicate,
      Nat.min_eq_left (Nat.le_add_left 6 n)]
    intro time hmem
    obtain ⟨_, hsuffix, rfl⟩ := mem_lastTimes hmem
    have hle := hsuffix.length_le
    rw [length_replicate] at hle
    rw [toNat_fastTime (by omega), decide_eq_true_eq]
    omega
  have hsublist : (lastTimes fastTime 6 (replicate (n + 6) 0)).Sublist
      (lastTimes fastTime nMedianTimeSpan (replicate (n + 11) 0)) :=
    (((((Sublist.refl _).cons _).cons _).cons _).cons _).cons _
  have hle := hsublist.countP_le (p := fun time => decide (time < bound))
  simp only [nMedianTimeSpan] at hle ⊢
  omega

theorem fastTime_valid {n : Nat} (hn : n ≤ 43200) :
    TimesValid fastTime (0 + MAX_FUTURE_BLOCK_TIME) (replicate 11 0) (replicate n 0) := by
  induction n with
  | zero => trivial
  | succ n ih =>
    have htime : (fastTime (replicate (n + 1) 0 ++ replicate 11 0)).toNat = n / 6 + 1 := by
      rw [toNat_fastTime (by simp; omega)]
      simp only [length_append, length_replicate]
      omega
    refine ⟨?_, ?_, ih (by omega)⟩
    · rw [← replicate_succ, replicate_append_replicate]
      exact getMedianTimePast_fastTime_lt hn (by omega)
    · rw [← replicate_succ, MAX_FUTURE_BLOCK_TIME]
      omega

theorem getMedianTimePast_fastTime : getMedianTimePast fastTime (replicate 11 0) = 0 := by
  have hlower : 0 ≤ getMedianTimePast fastTime (replicate 11 0) :=
    (le_getMedianTimePast_iff (by decide)).mpr (by decide)
  have hupper : getMedianTimePast fastTime (replicate 11 0) < 1 :=
    getMedianTimePast_fastTime_lt (n := 0) (by decide) (by decide)
  omega

end BtcSharp
