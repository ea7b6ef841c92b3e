/-
# Difficulty adjustment

`pow.cpp` and the compact form of targets in `arith_uint256.cpp`. Targets are natural numbers below
`2 ^ 256` here; they are computed with digits by the operators of `ArithUint256`. A failed assertion
is `none`. The times and the compact targets of blocks are given by functions on the entries of the
block index.

Putting a target into compact form rounds it down, and this is monotone. So what is computed from
the actual timespan is between what the permitted timespans give, as long as the timespans fit into
the 32 bits that `*=` takes.
-/

import Mathlib.Data.Nat.Bitwise
import BtcSharp.Chain

namespace BtcSharp

open List Nat

variable {x : Nat}

/-! ## Compact targets -/

/-- The position of the highest bit. -/
def bits (x : Nat) : Nat := if x = 0 then 0 else x.log2 + 1

@[ext]
structure CompactTarget (Number : Type) where
  target : Number
  fNegative : Bool
  fOverflow : Bool

def setCompact (nCompact : UInt32) : CompactTarget Nat :=
  let nSize := nCompact.toNat >>> 24
  let mantissa := nCompact.toNat &&& 0x007fffff
  let nWord := if nSize ≤ 3 then mantissa >>> (8 * (3 - nSize)) else mantissa
  { target := if nSize ≤ 3 then nWord else (nWord <<< (8 * (nSize - 3))) % 2 ^ 256
    fNegative := nWord ≠ 0 ∧ nCompact.toNat &&& 0x00800000 ≠ 0
    fOverflow := nWord ≠ 0 ∧
      (34 < nSize ∨ (0xff < nWord ∧ 33 < nSize) ∨ (0xffff < nWord ∧ 32 < nSize)) }

/-- `GetCompact` of a target that is not negative. -/
def getCompact (x : Nat) : UInt32 :=
  let nSize := (bits x + 7) / 8
  let nCompact :=
    (if nSize ≤ 3 then (x % 2 ^ 64) <<< (8 * (3 - nSize)) else (x >>> (8 * (nSize - 3))) % 2 ^ 64) %
      2 ^ 32
  .ofNat
    (if nCompact &&& 0x00800000 ≠ 0 then (nCompact >>> 8) ||| ((nSize + 1) <<< 24) else nCompact |||
      (nSize <<< 24))

/-- `DeriveTarget`. -/
def deriveTarget (nBits : UInt32) (pow_limit : Uint256) : Option Nat :=
  let bnTarget := setCompact nBits
  if bnTarget.fNegative ∨ bnTarget.target = 0 ∨ bnTarget.fOverflow ∨
    pow_limit.toNat < bnTarget.target then none
  else some bnTarget.target

/-! ## The work of a block -/

/-- The loop of `operator/=`, for a shift of one less than the rounds that are left. -/
def divideLoop : Nat → Nat → Nat → Nat → Nat
  | 0, _, _, quotient => quotient
  | shift + 1, num, div, quotient =>
    if div ≤ num then divideLoop shift (num - div) (div >>> 1) (quotient ||| 1 <<< shift)
    else divideLoop shift num (div >>> 1) quotient

/-- `operator/=`, which does not divide by zero. -/
def divide (num div : Nat) : Option Nat :=
  if bits div = 0 then none
  else if bits num < bits div then some 0
  else
    let shift := bits num - bits div
    some (divideLoop (shift + 1) num ((div <<< shift) % 2 ^ 256) 0)

/-- `GetBlockProof`. -/
def getBlockProof (nBits : UInt32) : Option Nat :=
  let bnTarget := setCompact nBits
  if bnTarget.fNegative ∨ bnTarget.fOverflow ∨ bnTarget.target = 0 then some 0
  else (divide (2 ^ 256 - 1 - bnTarget.target) ((bnTarget.target + 1) % 2 ^ 256)).map
    fun proof => (proof + 1) % 2 ^ 256

/-! ## The required work -/

structure PowParams where
  powLimit : Uint256
  fPowAllowMinDifficultyBlocks : Bool
  enforce_BIP94 : Bool
  fPowNoRetargeting : Bool
  nPowTargetSpacing : Int
  nPowTargetTimespan : Int

namespace PowParams

variable (params : PowParams)

def difficultyAdjustmentInterval : Int := params.nPowTargetTimespan.tdiv params.nPowTargetSpacing

def nHeightFirst (pindexLast : CBlockIndex) : Int :=
    pindexLast.nHeight - (params.difficultyAdjustmentInterval - 1)

/-- A target times a timespan, of which `*=` takes the low 32 bits, divided by the timespan that is
aimed at, which must not be zero, and limited. -/
def scaleTarget (target : Nat) (timespan : Int) : Nat :=
  min ((divide (target * (timespan % 2 ^ 32).toNat % 2 ^ 256)
    (params.nPowTargetTimespan % 2 ^ 64).toNat).getD 0) params.powLimit.toNat

def permittedDifficultyTransition (height : Int) (old_nbits new_nbits : UInt32) : Bool :=
  if params.fPowAllowMinDifficultyBlocks then true
  else if height.tmod params.difficultyAdjustmentInterval = 0 then
    let observed_new_target := (setCompact new_nbits).target
    let largest := params.scaleTarget (setCompact old_nbits).target (params.nPowTargetTimespan * 4)
    let smallest :=
      params.scaleTarget (setCompact old_nbits).target (params.nPowTargetTimespan.tdiv 4)
    ¬ (setCompact (getCompact largest)).target < observed_new_target ∧
      ¬ observed_new_target < (setCompact (getCompact smallest)).target
  else old_nbits = new_nbits

variable (nTime nBits : CBlockIndex → UInt32)

def calculateNextWorkRequired (pindexLast : CBlockIndex) (nFirstBlockTime : Int) : UInt32 :=
  if params.fPowNoRetargeting then nBits pindexLast
  else
    let least := params.nPowTargetTimespan.tdiv 4
    let most := params.nPowTargetTimespan * 4
    let nActualTimespan := (nTime pindexLast).toNat - nFirstBlockTime
    let atLeast := if nActualTimespan < least then least else nActualTimespan
    let limited := if most < atLeast then most else atLeast
    let pindexFirst := pindexLast.getAncestorInt (params.nHeightFirst pindexLast)
    let nBitsFrom := if params.enforce_BIP94 then nBits pindexFirst else nBits pindexLast
    getCompact (params.scaleTarget (setCompact nBitsFrom).target limited)

/-- The last block that does not have the lowest difficulty, within the period. -/
def lastNonSpecial : CBlockIndex → CBlockIndex
  | [] => []
  | hash :: pprev =>
    if pprev ≠ [] ∧
        (CBlockIndex.nHeight (hash :: pprev) : Int).tmod params.difficultyAdjustmentInterval ≠ 0 ∧
        nBits (hash :: pprev) = getCompact params.powLimit.toNat then lastNonSpecial pprev
    else hash :: pprev

def getNextWorkRequired (pindexLast : CBlockIndex) (blockTime : UInt32) : Option UInt32 :=
  if pindexLast = [] then none
  else if ((pindexLast.nHeight : Int) + 1).tmod params.difficultyAdjustmentInterval ≠ 0 then
    if params.fPowAllowMinDifficultyBlocks then
      if (nTime pindexLast).toNat + params.nPowTargetSpacing * 2 < blockTime.toNat then
        some (getCompact params.powLimit.toNat)
      else some (nBits (params.lastNonSpecial nBits pindexLast))
    else some (nBits pindexLast)
  else
    let pindexFirst := pindexLast.getAncestorInt (params.nHeightFirst pindexLast)
    if params.nHeightFirst pindexLast < 0 ∨ pindexFirst = [] then none
    else some (params.calculateNextWorkRequired nTime nBits pindexLast (nTime pindexFirst).toNat)

end PowParams

/-! ## Rounding -/

theorem bits_le_iff {k : Nat} : bits x ≤ k ↔ x < 2 ^ k := by
  unfold bits
  split
  · next hzero => simp [hzero]
  · next hne => exact log2_lt hne

theorem lt_bits_iff {k : Nat} : k < bits x ↔ 2 ^ k ≤ x := by
  rw [← not_le, bits_le_iff, not_lt]

theorem two_pow_split {a b c : Nat} (h : a = b + c) : 2 ^ a = 2 ^ b * 2 ^ c := by
  rw [h, pow_add]

/-- The number of bytes that are rounded away. -/
def roundedBytes (x : Nat) : Nat := bits x / 8 - 2

/-- A target without its last bytes. -/
def rounded (x : Nat) : Nat := x / 2 ^ (8 * roundedBytes x) * 2 ^ (8 * roundedBytes x)

theorem rounded_le (x : Nat) : rounded x ≤ x := div_mul_le_self _ _

theorem rounded_mono {y : Nat} (h : x ≤ y) : rounded x ≤ rounded y := by
  have hbits : bits x ≤ bits y := bits_le_iff.mpr (lt_of_le_of_lt h (bits_le_iff.mp (le_refl _)))
  by_cases heq : roundedBytes x = roundedBytes y
  · unfold rounded
    rw [heq]
    exact mul_le_mul_right _ (Nat.div_le_div_right h)
  have hmore : bits x / 8 < bits y / 8 ∧ 2 < bits y / 8 := by
    unfold roundedBytes at heq
    omega
  have hsplit : 2 ^ (8 * (bits y / 8) - 1) = 2 ^ 15 * 2 ^ (8 * roundedBytes y) := by
    apply two_pow_split
    unfold roundedBytes
    omega
  have hx : x < 2 ^ (8 * (bits y / 8) - 1) := bits_le_iff.mp (by omega)
  have hy : 2 ^ (8 * (bits y / 8) - 1) ≤ y := lt_bits_iff.mp (by omega)
  rw [hsplit] at hx hy
  have hkept := (le_div_iff_mul_le (Nat.two_pow_pos (8 * roundedBytes y))).mpr hy
  exact (rounded_le x).trans (hx.le.trans (mul_le_mul_right _ hkept))

/-- The first three bytes of a number of so many bytes. -/
theorem compactWord_eq (nSize : Nat) (h : x < 2 ^ (8 * nSize)) :
    (if nSize ≤ 3 then (x % 2 ^ 64) <<< (8 * (3 - nSize)) else (x >>> (8 * (nSize - 3))) % 2 ^
        64) % 2 ^ 32 = x * 2 ^ 24 / 2 ^ (8 * nSize) ∧ x * 2 ^ 24 / 2 ^ (8 * nSize) < 2 ^ 24 := by
  have hlt : x * 2 ^ 24 / 2 ^ (8 * nSize) < 2 ^ 24 := by
    rw [div_lt_iff_lt_mul (Nat.two_pow_pos _), mul_comm]
    exact mul_lt_mul_of_pos_left h (by decide)
  refine ⟨?_, hlt⟩
  split
  · next hsmall =>
    have hpow : 2 ^ 24 = 2 ^ (8 * (3 - nSize)) * 2 ^ (8 * nSize) := two_pow_split (by omega)
    have hx : x < 2 ^ 64 := h.trans_le (Nat.pow_le_pow_right (by decide) (by omega))
    have hword : x * 2 ^ 24 / 2 ^ (8 * nSize) = x * 2 ^ (8 * (3 - nSize)) := by
      rw [hpow, ← mul_assoc, Nat.mul_div_cancel _ (Nat.two_pow_pos _)]
    rw [mod_eq_of_lt hx, shiftLeft_eq, ← hword, mod_eq_of_lt (hlt.trans (by decide))]
  next hlarge =>
  have hpow : 2 ^ (8 * nSize) = 2 ^ (8 * (nSize - 3)) * 2 ^ 24 := two_pow_split (by omega)
  have hword : x * 2 ^ 24 / 2 ^ (8 * nSize) = x / 2 ^ (8 * (nSize - 3)) := by
    rw [hpow, Nat.mul_div_mul_right _ _ (by decide)]
  rw [hword] at hlt ⊢
  rw [shiftRight_eq_div_pow, mod_eq_of_lt (hlt.trans (by decide)),
    mod_eq_of_lt (hlt.trans (by decide))]

theorem signBit_iff {word : Nat} (h : word < 2 ^ 24) : word &&& 0x00800000 ≠ 0 ↔ 2 ^ 23 ≤ word := by
  have hbit : word.testBit 23 = decide (2 ^ 23 ≤ word) := by
    rw [testBit_eq_decide_div_mod_eq, decide_eq_decide]
    omega
  rw [show 0x00800000 = 2 ^ 23 by decide, and_two_pow, hbit]
  simp

/-- The compact form has one byte more than needed where the sign bit would be set. -/
theorem toNat_getCompact (hne : x ≠ 0) (hx : x < 2 ^ 256) :
    (getCompact x).toNat = x * 2 ^ 24 / 2 ^ (8 * (bits x / 8 + 1)) + (bits x / 8 + 1) * 2 ^ 24 ∧
      x * 2 ^ 24 / 2 ^ (8 * (bits x / 8 + 1)) < 2 ^ 23 := by
  have hbits : bits x ≤ 256 := bits_le_iff.mpr hx
  obtain ⟨hword, hlt⟩ :=
    compactWord_eq ((bits x + 7) / 8) (bits_le_iff.mp (show bits x ≤ _ by omega))
  have hpack : ∀ word nSize, word < 2 ^ 23 → nSize ≤ 33 →
      (UInt32.ofNat (word ||| (nSize <<< 24))).toNat = word + nSize * 2 ^ 24 := by
    intro word nSize hword hsize
    rw [Nat.or_comm, ← shiftLeft_add_eq_or_of_lt (hword.trans (by decide)), UInt32.toNat_ofNat']
    omega
  have hsmall : x * 2 ^ 24 / 2 ^ (8 * (bits x / 8 + 1)) < 2 ^ 23 := by
    rw [div_lt_iff_lt_mul (Nat.two_pow_pos _), ← pow_add]
    have hself : x < 2 ^ (8 * (bits x / 8 + 1) - 1) := bits_le_iff.mp (by omega)
    calc x * 2 ^ 24 < 2 ^ (8 * (bits x / 8 + 1) - 1) * 2 ^ 24 :=
      mul_lt_mul_of_pos_right hself (by decide)
      _ = 2 ^ (23 + 8 * (bits x / 8 + 1)) := (two_pow_split (by omega)).symm
  refine ⟨?_, hsmall⟩
  unfold getCompact
  dsimp only
  rw [hword]
  by_cases hfull : bits x % 8 = 0
  · have hsize : (bits x + 7) / 8 = bits x / 8 := by omega
    rw [hsize] at hlt ⊢
    have hset : 2 ^ 23 ≤ x * 2 ^ 24 / 2 ^ (8 * (bits x / 8)) := by
      have hpos : bits x ≠ 0 := fun hzero => hne (lt_one_iff.mp (bits_le_iff.mp hzero.le))
      have hself : 2 ^ (8 * (bits x / 8) - 1) ≤ x := lt_bits_iff.mp (by omega)
      rw [le_div_iff_mul_le (Nat.two_pow_pos _), ← pow_add]
      calc 2 ^ (23 + 8 * (bits x / 8)) ≤ 2 ^ (8 * (bits x / 8) - 1) * 2 ^ 24 := by
            rw [← pow_add]
            exact Nat.pow_le_pow_right (by decide) (by omega)
        _ ≤ x * 2 ^ 24 := mul_le_mul_right _ hself
    have hshift : (x * 2 ^ 24 / 2 ^ (8 * (bits x / 8))) >>> 8 = x * 2 ^ 24 / 2 ^
        (8 * (bits x / 8 + 1)) := by
      rw [shiftRight_eq_div_pow, Nat.div_div_eq_div_mul, ← pow_add, mul_succ]
    rw [if_pos ((signBit_iff hlt).mpr hset), hshift]
    exact hpack _ _ hsmall (by omega)
  have hsize : (bits x + 7) / 8 = bits x / 8 + 1 := by omega
  rw [hsize] at hlt ⊢
  rw [if_neg fun hset => absurd ((signBit_iff hlt).mp hset) (not_le.mpr hsmall)]
  exact hpack _ _ hsmall (by omega)

theorem getCompact_parts (hne : x ≠ 0) (hx : x < 2 ^ 256) :
    (getCompact x).toNat >>> 24 = bits x / 8 + 1 ∧
      (getCompact x).toNat &&& 0x007fffff = x * 2 ^ 24 / 2 ^ (8 * (bits x / 8 + 1)) ∧
      (getCompact x).toNat &&& 0x00800000 = 0 := by
  obtain ⟨hcompact, hlt⟩ := toNat_getCompact hne hx
  rw [hcompact]
  generalize x * 2 ^ 24 / 2 ^ (8 * (bits x / 8 + 1)) = word at hlt
  refine ⟨?_, ?_, ?_⟩
  · omega
  · rw [show 0x007fffff = 2 ^ 23 - 1 by decide, and_two_pow_sub_one_eq_mod]
    omega
  · have hbit : (word + (bits x / 8 + 1) * 2 ^ 24).testBit 23 = false := by
      rw [testBit_eq_decide_div_mod_eq, decide_eq_false_iff_not]
      omega
    rw [show 0x00800000 = 2 ^ 23 by decide, and_two_pow, hbit]
    rfl

/-- Putting a target into compact form rounds it. -/
theorem target_getCompact (hx : x < 2 ^ 256) : (setCompact (getCompact x)).target = rounded x := by
  by_cases hne : x = 0
  · subst hne
    decide
  obtain ⟨hsize, hword, -⟩ := getCompact_parts hne hx
  unfold setCompact rounded roundedBytes
  dsimp only
  rw [hsize, hword, shiftRight_eq_div_pow, shiftLeft_eq]
  split
  · next hsmall =>
    have hnone : bits x / 8 - 2 = 0 := by omega
    have hpow : 2 ^ 24 = 2 ^ (8 * (bits x / 8 + 1)) * 2 ^ (8 * (3 - (bits x / 8 + 1))) :=
      two_pow_split (by omega)
    rw [Nat.div_div_eq_div_mul, ← hpow, hnone]
    simp
  next hlarge =>
  have hpow : 2 ^ (8 * (bits x / 8 + 1)) = 2 ^ (8 * (bits x / 8 - 2)) * 2 ^ 24 :=
    two_pow_split (by omega)
  rw [hpow, Nat.mul_div_mul_right _ _ (by decide)]
  exact mod_eq_of_lt ((div_mul_le_self _ _).trans_lt hx)

/-- A compact form that was made from a target is neither negative nor too large. -/
theorem flags_getCompact (hx : x < 2 ^ 256) :
    (setCompact (getCompact x)).fNegative = false ∧
    (setCompact (getCompact x)).fOverflow = false := by
  by_cases hne : x = 0
  · subst hne
    decide
  obtain ⟨hsize, hword, hsign⟩ := getCompact_parts hne hx
  have hbits : bits x ≤ 256 := bits_le_iff.mpr hx
  have hmantissa : bits x / 8 = 32 → x * 2 ^ 24 / 2 ^ (8 * (bits x / 8 + 1)) ≤ 0xffff := by
    intro hfull
    rw [hfull]
    omega
  simp only [setCompact, hword, hsign, ne_eq, not_true_eq_false, and_false, decide_false, true_and]
  rw [decide_eq_false_iff_not]
  rintro ⟨-, hlarge | ⟨-, hlarge⟩ | ⟨hhigh, hlarge⟩⟩
  · omega
  · omega
  · rw [if_neg (by omega)] at hhigh
    exact absurd (hmantissa (by omega)) (not_le.mpr hhigh)

theorem getCompact_mono {y : Nat} (h : x ≤ y) (hy : y < 2 ^ 256) : getCompact x ≤ getCompact y := by
  by_cases hx : x = 0
  · subst hx
    exact UInt32.zero_le
  obtain ⟨hcompact, hlt⟩ := toNat_getCompact hx (h.trans_lt hy)
  obtain ⟨hcompact', -⟩ := toNat_getCompact (by omega) hy
  have hbits : bits x ≤ bits y := bits_le_iff.mpr (h.trans_lt (bits_le_iff.mp (le_refl _)))
  rw [UInt32.le_iff_toNat_le, hcompact, hcompact']
  rcases (Nat.div_le_div_right (c := 8) hbits).lt_or_eq with hless | heq
  · calc _ ≤ 2 ^ 24 + (bits x / 8 + 1) * 2 ^ 24 := Nat.add_le_add_right (hlt.le.trans (by decide)) _
      _ = (bits x / 8 + 2) * 2 ^ 24 := by ring
      _ ≤ (bits y / 8 + 1) * 2 ^ 24 := mul_le_mul_right _ (succ_le_succ hless)
      _ ≤ _ := le_add_left _ _
  · rw [heq]
    exact Nat.add_le_add_right (Nat.div_le_div_right (mul_le_mul_right _ h)) _

theorem rounded_eq_self {k : Nat} (hlt : x < 2 ^ (23 + 8 * k)) (hdvd : 2 ^ (8 * k) ∣ x) :
    rounded x = x := by
  have hbits := bits_le_iff.mpr hlt
  apply Nat.div_mul_cancel
  refine (pow_dvd_pow 2 ?_).trans hdvd
  unfold roundedBytes
  omega

/-- A target that was given in compact form is not rounded. -/
theorem rounded_target (nBits : UInt32) :
    rounded (setCompact nBits).target = (setCompact nBits).target := by
  have hmantissa : nBits.toNat &&& 0x007fffff < 2 ^ 23 := and_lt_two_pow _ (by decide)
  unfold setCompact
  dsimp only
  split
  · next hsmall =>
    apply rounded_eq_self (k := 0) _ (one_dvd _)
    exact (shiftRight_le _ _).trans_lt hmantissa
  next hlarge =>
  rw [shiftLeft_eq]
  refine rounded_eq_self (k := nBits.toNat >>> 24 - 3) ?_ ?_
  · refine (mod_le _ _).trans_lt ?_
    rw [pow_add]
    exact mul_lt_mul_of_pos_right hmantissa (Nat.two_pow_pos _)
  · by_cases hfits : 8 * (nBits.toNat >>> 24 - 3) ≤ 256
    · rw [dvd_mod_iff (pow_dvd_pow 2 hfits)]
      exact dvd_mul_left _ _
    · rw [mod_eq_zero_of_dvd ((pow_dvd_pow 2 (Nat.le_of_not_le hfits)).trans (dvd_mul_left _ _))]
      exact dvd_zero _

theorem derived_target {nBits : UInt32} {pow_limit : Uint256}
    (h : (deriveTarget nBits pow_limit).isSome) :
    (setCompact nBits).fNegative = false ∧ (setCompact nBits).target ≠ 0 ∧
      (setCompact nBits).fOverflow = false ∧ (setCompact nBits).target ≤ pow_limit.toNat := by
  unfold deriveTarget at h
  dsimp only at h
  split at h
  · cases h
  next hvalid =>
  rwa [not_or, not_or, not_or, not_lt, Bool.not_eq_true, Bool.not_eq_true] at hvalid

/-- What is left of the number is divided by the divisor that is shifted back. -/
theorem divideLoop_eq {num b quotient rounds : Nat} (hnum : num < b * 2 ^ rounds)
    (hquotient : 2 ^ rounds ∣ quotient) :
    divideLoop rounds num (b * 2 ^ rounds / 2) quotient = quotient + num / b := by
  induction rounds generalizing num quotient with
  | zero => rw [divideLoop, div_eq_of_lt (by simpa using hnum), add_zero]
  | succ shift ih =>
    have hdiv : b * 2 ^ (shift + 1) / 2 = b * 2 ^ shift := by
      rw [pow_succ, ← mul_assoc, Nat.mul_div_cancel _ (by decide)]
    have hpow := (pow_dvd_pow 2 (le_succ shift)).trans hquotient
    rw [divideLoop, hdiv, shiftRight_eq_div_pow]
    split
    next hle =>
      have hpos : 0 < b := Nat.pos_of_mul_pos_right (zero_lt_of_lt hnum)
      have hset : quotient ||| 1 <<< shift = quotient + 2 ^ shift := by
        obtain ⟨_, rfl⟩ := hquotient
        rw [shiftLeft_eq, one_mul, mul_comm, ← shiftLeft_eq, ← shiftLeft_add_eq_or_of_lt]
        exact Nat.pow_lt_pow_succ (by decide)
      have hrest : num - b * 2 ^ shift < b * 2 ^ shift := by
        rw [pow_succ, ← mul_assoc] at hnum
        omega
      rw [hset, ih hrest (Nat.dvd_add hpow (dvd_refl _)), sub_mul_div, add_assoc,
        Nat.add_sub_cancel' ((le_div_iff_mul_le hpos).mpr (mul_comm b _ ▸ hle))]
    next hlt => exact ih (not_le.mp hlt) hpow

theorem divide_eq {num div : Nat} (hnum : num < 2 ^ 256) (hdiv : div ≠ 0) :
    divide num div = some (num / div) := by
  have hpos : 0 < bits div := lt_bits_iff.mpr (one_le_iff_ne_zero.mpr hdiv)
  have hself : num < 2 ^ bits num := bits_le_iff.mp (le_refl _)
  have hdivself : div < 2 ^ bits div := bits_le_iff.mp (le_refl _)
  have hhigh : 2 ^ (bits div - 1) ≤ div := lt_bits_iff.mp (by omega)
  rw [divide, if_neg hpos.ne']
  split
  next hless =>
    rw [div_eq_of_lt]
    exact hself.trans_le ((Nat.pow_le_pow_right (by decide) (by omega)).trans hhigh)
  next hle =>
    have hshifted : div * 2 ^ (bits num - bits div) < 2 ^ 256 := by
      calc div * 2 ^ (bits num - bits div) < 2 ^ bits div * 2 ^ (bits num - bits div) :=
            mul_lt_mul_of_pos_right hdivself (Nat.two_pow_pos _)
        _ = 2 ^ bits num := (two_pow_split (by omega)).symm
        _ ≤ 2 ^ 256 := Nat.pow_le_pow_right (by decide) (bits_le_iff.mpr hnum)
    have hstart : div * 2 ^ (bits num - bits div + 1) / 2 = div * 2 ^ (bits num - bits div) := by
      rw [pow_succ, ← mul_assoc, Nat.mul_div_cancel _ (by decide)]
    have hfits : num < div * 2 ^ (bits num - bits div + 1) := by
      calc num < 2 ^ bits num := hself
        _ = 2 ^ (bits div - 1) * 2 ^ (bits num - bits div + 1) := two_pow_split (by omega)
        _ ≤ div * 2 ^ (bits num - bits div + 1) := mul_le_mul_right _ hhigh
    dsimp only
    rw [shiftLeft_eq, mod_eq_of_lt hshifted, ← hstart, divideLoop_eq hfits (dvd_zero _), zero_add]

/-- A target is rounded down to the nearest one that has a compact form. -/
theorem getCompact_rounds (hx : x < 2 ^ 256) : (setCompact (getCompact x)).target ≤ x ∧
    ∀ nCompact, (setCompact nCompact).target ≤ x →
      (setCompact nCompact).target ≤ (setCompact (getCompact x)).target := by
  rw [target_getCompact hx]
  refine ⟨rounded_le _, fun nCompact hle => ?_⟩
  rw [← rounded_target]
  exact rounded_mono hle

section Derived

variable {nCompact : UInt32} {pow_limit : Uint256} (h : (deriveTarget nCompact pow_limit).isSome)

include h

/-- A target that was derived from a compact form keeps its value. -/
theorem target_of_derived :
    (setCompact (getCompact (setCompact nCompact).target)).target = (setCompact nCompact).target :=
  (target_getCompact ((derived_target h).2.2.2.trans_lt pow_limit.isLt)).trans
    (rounded_target nCompact)

/-- The work of a block is the number of hashes that are tried on average. -/
theorem getBlockProof_of_derived :
    getBlockProof nCompact = some (2 ^ 256 / ((setCompact nCompact).target + 1)) := by
  obtain ⟨hnegative, hzero, hoverflow, hle⟩ := derived_target h
  have hlt := hle.trans_lt pow_limit.isLt
  have hnotmax : (setCompact nCompact).target ≠ 2 ^ 256 - 1 := by
    intro hmax
    have hrounded := rounded_target nCompact
    rw [hmax] at hrounded
    exact absurd hrounded (by decide)
  rw [getBlockProof, if_neg (by simp [hnegative, hoverflow, hzero])]
  generalize (setCompact nCompact).target = target at *
  have hproof : (2 ^ 256 - 1 - target) / (target + 1) + 1 = 2 ^ 256 / (target + 1) := by
    rw [← add_div_right _ (succ_pos target)]
    congr 1
    omega
  have hless : 2 ^ 256 / (target + 1) < 2 ^ 256 := div_lt_self (by decide) (by omega)
  rw [mod_eq_of_lt (by omega : target + 1 < 2 ^ 256), divide_eq (by omega) (succ_ne_zero _),
    Option.map_some, hproof, mod_eq_of_lt hless]

end Derived

namespace PowParams

/-- Parameters without blocks of lowest difficulty, whose products do not overflow. -/
structure Regular (params : PowParams) : Prop where
  noMinimum : params.fPowAllowMinDifficultyBlocks = false
  spacing : 0 < params.nPowTargetSpacing
  timespan : 4 ≤ params.nPowTargetTimespan
  multiple : params.nPowTargetSpacing ∣ params.nPowTargetTimespan
  product : params.powLimit.toNat * 4 * params.nPowTargetTimespan < 2 ^ 256

variable {params : PowParams} {nTime nBits : CBlockIndex → UInt32} {pindexLast : CBlockIndex}
    {target : Nat}

section Transition

variable (h : params.Regular) (hfits : params.nPowTargetTimespan * 4 < 2 ^ 32)
    (htarget : target ≤ params.powLimit.toNat)

include h hfits htarget

theorem scaleTarget_eq {timespan : Int} (hnonneg : 0 ≤ timespan)
    (hle : timespan ≤ params.nPowTargetTimespan * 4) : params.scaleTarget target timespan =
      min (target * timespan.toNat / params.nPowTargetTimespan.toNat) params.powLimit.toNat := by
  have hproduct : target * timespan.toNat < 2 ^ 256 := by
    have hmul :=
      Nat.mul_le_mul htarget (show timespan.toNat ≤ 4 * params.nPowTargetTimespan.toNat by omega)
    have hlimit := h.product
    rw [← Int.toNat_of_nonneg (show 0 ≤ params.nPowTargetTimespan by omega)] at hlimit
    rw [← mul_assoc] at hmul
    exact hmul.trans_lt (by exact_mod_cast hlimit)
  have htimespan := h.timespan
  unfold scaleTarget
  rw [Int.emod_eq_of_lt hnonneg (by omega), Int.emod_eq_of_lt (by omega) (by omega),
    mod_eq_of_lt hproduct, divide_eq hproduct (by omega), Option.getD_some]

theorem scaleTarget_mono {first second : Int} (hnonneg : 0 ≤ first) (hle : first ≤ second)
    (hsecond : second ≤ params.nPowTargetTimespan * 4) :
    params.scaleTarget target first ≤ params.scaleTarget target second := by
  rw [scaleTarget_eq h hfits htarget hnonneg (hle.trans hsecond),
    scaleTarget_eq h hfits htarget (hnonneg.trans hle) hsecond]
  exact min_le_min_right _ (Nat.div_le_div_right (mul_le_mul_left _ (Int.toNat_le_toNat hle)))

/-- A target is permitted that is rounded after it was scaled with a permitted timespan. -/
theorem permitted_of_scaled {height : Int} {old_nbits new_nbits : UInt32}
    (hold : (setCompact old_nbits).target = target)
    (timespan : Int) (hleast : params.nPowTargetTimespan.tdiv 4 ≤ timespan)
    (hmost : timespan ≤ params.nPowTargetTimespan * 4)
    (hnew : (setCompact new_nbits).target = rounded (params.scaleTarget target timespan))
    (hadjusts : height.tmod params.difficultyAdjustmentInterval = 0) :
    params.permittedDifficultyTransition height old_nbits new_nbits = true := by
  have hlimited : ∀ timespan, params.scaleTarget target timespan < 2 ^ 256 :=
    fun timespan => (min_le_right _ _).trans_lt params.powLimit.isLt
  have htimespan := h.timespan
  have hfourth := Int.tdiv_eq_ediv_of_nonneg (b := 4) (show 0 ≤ params.nPowTargetTimespan by omega)
  unfold permittedDifficultyTransition
  rw [h.noMinimum, if_pos hadjusts, hold, hnew]
  dsimp only
  rw [target_getCompact (hlimited _), target_getCompact (hlimited _)]
  exact decide_eq_true
    ⟨not_lt.mpr (rounded_mono (scaleTarget_mono h hfits htarget (by omega) hmost (le_refl _))),
    not_lt.mpr (rounded_mono (scaleTarget_mono h hfits htarget (by omega) hleast hmost))⟩

omit htarget in
/-- What is computed at the end of a period is permitted. -/
theorem permitted_calculateNextWorkRequired
    (hlast : (setCompact (nBits pindexLast)).target ≤ params.powLimit.toNat)
    {height : Int} (hadjusts : height.tmod params.difficultyAdjustmentInterval = 0)
    (hfirst : params.enforce_BIP94 = true →
      nBits (pindexLast.getAncestorInt (params.nHeightFirst pindexLast)) = nBits pindexLast)
        (nFirstBlockTime : Int) :
    params.permittedDifficultyTransition height (nBits pindexLast)
      (params.calculateNextWorkRequired nTime nBits pindexLast nFirstBlockTime) = true := by
  have htimespan := h.timespan
  have hfourth := Int.tdiv_eq_ediv_of_nonneg (b := 4) (show 0 ≤ params.nPowTargetTimespan by omega)
  unfold calculateNextWorkRequired
  split
  · apply permitted_of_scaled h hfits hlast rfl params.nPowTargetTimespan (by omega)
      (by omega) _ hadjusts
    rw [scaleTarget_eq h hfits hlast (by omega) (by omega), Nat.mul_div_cancel _ (by omega),
      min_eq_left hlast, rounded_target]
  have hfrom :
      (if params.enforce_BIP94 then nBits
        (pindexLast.getAncestorInt (params.nHeightFirst pindexLast))
      else nBits pindexLast) = nBits pindexLast := by
    split
    · next henforce => exact hfirst henforce
    · rfl
  dsimp only
  rw [hfrom]
  apply permitted_of_scaled h hfits hlast rfl _ _ _ (target_getCompact ?_) hadjusts
  · split <;> split <;> omega
  · split <;> split <;> omega
  · exact (min_le_right _ _).trans_lt params.powLimit.isLt

end Transition

section Required

variable (h : params.Regular)
include h

theorem Regular.interval_pos : 0 < params.difficultyAdjustmentInterval :=
  Int.tdiv_pos_of_pos_of_dvd (Int.lt_of_lt_of_le (by decide) h.timespan) h.spacing.le h.multiple

/-- A period that ends with a block has a first block. -/
theorem Regular.getAncestorInt_first (hne : pindexLast ≠ [])
    (hadjusts : ((pindexLast.nHeight : Int) + 1).tmod params.difficultyAdjustmentInterval = 0) :
    0 ≤ params.nHeightFirst pindexLast ∧
      pindexLast.getAncestorInt (params.nHeightFirst pindexLast) <:+ pindexLast ∧
      (pindexLast.getAncestorInt (params.nHeightFirst pindexLast)).length = params.nHeightFirst
        pindexLast + 1 := by
  have hinterval := h.interval_pos
  have hle := Int.le_of_dvd (by omega) (Int.dvd_of_tmod_eq_zero hadjusts)
  have hlength : pindexLast.length = pindexLast.nHeight + 1 :=
    (succ_pred (length_pos_iff.mpr hne).ne').symm
  have hfirst :
    params.nHeightFirst pindexLast = pindexLast.nHeight -
    (params.difficultyAdjustmentInterval - 1) := rfl
  rw [CBlockIndex.getAncestorInt, if_neg (by omega)]
  obtain ⟨hsuffix, hlevel, -⟩ :=
    @getAncestor_spec pindexLast (params.nHeightFirst pindexLast).toNat (by omega)
  exact ⟨by omega, hsuffix, by omega⟩

/-- The block before which a period ended has the target of the first block of its period. -/
def PeriodKept (params : PowParams) (nBits : CBlockIndex → UInt32) (pindexLast : CBlockIndex) :
    Prop :=
  ((pindexLast.nHeight : Int) + 1).tmod params.difficultyAdjustmentInterval = 0 →
    nBits (pindexLast.getAncestorInt (params.nHeightFirst pindexLast)) = nBits pindexLast

/-- All blocks above the first one pass the check of `nBits` in `ContextualCheckBlockHeader`. -/
def DiffbitsChecked (params : PowParams) (nTime nBits : CBlockIndex → UInt32) (tip : CBlockIndex) :
    Prop :=
  ∀ hash pprev, hash :: pprev <:+ tip → pprev ≠ [] →
    params.getNextWorkRequired nTime nBits pprev (nTime (hash :: pprev)) = some
      (nBits (hash :: pprev))

theorem Regular.getNextWorkRequired_within (hne : pindexLast ≠ [])
    (hwithin : ((pindexLast.nHeight : Int) + 1).tmod params.difficultyAdjustmentInterval ≠ 0)
      (blockTime : UInt32) :
    params.getNextWorkRequired nTime nBits pindexLast blockTime = some (nBits pindexLast) := by
  rw [getNextWorkRequired, if_neg hne, if_pos hwithin, h.noMinimum, if_neg Bool.false_ne_true]

/-- Blocks above a block keep its target as long as no period ends. -/
theorem DiffbitsChecked.nBits_eq {tip first last : CBlockIndex}
    (hchecked : params.DiffbitsChecked nTime nBits tip) (hlast : last <:+ tip)
      (hfirst : first <:+ last)
    (hne : first ≠ []) (hwithin : ∀ height : Nat, first.length ≤ height → height < last.length →
      (height : Int).tmod params.difficultyAdjustmentInterval ≠ 0) : nBits first = nBits last := by
  induction last with
  | nil => exact absurd (suffix_nil.mp hfirst) hne
  | cons hash pprev ih =>
    rcases suffix_cons_iff.mp hfirst with rfl | hfirst
    · rfl
    have hpprev : pprev ≠ [] := fun hnil => hne (suffix_nil.mp (hnil ▸ hfirst))
    have hheight : (CBlockIndex.nHeight pprev : Int) + 1 = pprev.length := by
      exact_mod_cast succ_pred (length_pos_iff.mpr hpprev).ne'
    have hnext := hchecked hash pprev hlast hpprev
    rw [h.getNextWorkRequired_within hpprev (hheight ▸ hwithin _ hfirst.length_le (lt_succ_self _))]
      at hnext
    rw [← Option.some.inj hnext]
    exact ih ((suffix_cons hash pprev).trans hlast) hfirst fun height hle hlt =>
      hwithin height hle (lt_succ_of_lt hlt)

theorem DiffbitsChecked.periodKept {tip : CBlockIndex}
    (hchecked : params.DiffbitsChecked nTime nBits tip) (hlast : pindexLast <:+ tip)
      (hne : pindexLast ≠ []) : params.PeriodKept nBits pindexLast := by
  intro hadjusts
  obtain ⟨hnonneg, hsuffix, hlength⟩ := h.getAncestorInt_first hne hadjusts
  apply hchecked.nBits_eq h hlast hsuffix (length_pos_iff.mp (by omega))
  intro height hle hlt hmultiple
  have hdvd := Int.dvd_sub (Int.dvd_of_tmod_eq_zero hadjusts) (Int.dvd_of_tmod_eq_zero hmultiple)
  unfold nHeightFirst CBlockIndex.nHeight at *
  have hinterval := Int.le_of_dvd (by omega) hdvd
  omega

theorem permitted_getNextWorkRequired (hfits : params.nPowTargetTimespan * 4 < 2 ^ 32)
    (hne : pindexLast ≠ []) (htarget : (deriveTarget (nBits pindexLast) params.powLimit).isSome)
    (hkept : params.enforce_BIP94 = true → params.PeriodKept nBits pindexLast)
      (blockTime : UInt32) :
    ∃ new_nbits, params.getNextWorkRequired nTime nBits pindexLast blockTime = some new_nbits ∧
      params.permittedDifficultyTransition (pindexLast.nHeight + 1) (nBits pindexLast)
        new_nbits = true := by
  by_cases hadjusts : ((pindexLast.nHeight : Int) + 1).tmod params.difficultyAdjustmentInterval = 0
  · obtain ⟨hnonneg, -, hlength⟩ := h.getAncestorInt_first hne hadjusts
    have hnext : params.getNextWorkRequired nTime nBits pindexLast blockTime =
        some (params.calculateNextWorkRequired nTime nBits pindexLast
          (nTime (pindexLast.getAncestorInt (params.nHeightFirst pindexLast))).toNat) := by
      rw [getNextWorkRequired, if_neg hne, if_neg (not_not.mpr hadjusts)]
      exact if_neg (not_or.mpr ⟨Int.not_lt.mpr hnonneg, length_pos_iff.mp (by omega)⟩)
    exact ⟨_, hnext, permitted_calculateNextWorkRequired h hfits
      (derived_target htarget).2.2.2 hadjusts (fun henforce => hkept henforce hadjusts) _⟩
  · refine ⟨_, h.getNextWorkRequired_within hne hadjusts blockTime, ?_⟩
    rw [permittedDifficultyTransition, h.noMinimum, if_neg hadjusts]
    exact decide_eq_true rfl

end Required

/-- The required work is always a permitted transition, so blocks that have it pass the check of
headers before they are synchronised. -/
theorem required_transitions_permitted (h : params.Regular)
    (hfits : params.nPowTargetTimespan * 4 < 2 ^ 32) (tip : CBlockIndex)
    (htargets : ∀ pindex, pindex <:+ tip → pindex ≠ [] →
      (deriveTarget (nBits pindex) params.powLimit).isSome) :
    (∀ (pindexLast : CBlockIndex) (blockTime : UInt32), pindexLast <:+ tip → pindexLast ≠ [] →
      (params.enforce_BIP94 = true → params.PeriodKept nBits pindexLast) →
      ∃ new_nbits, params.getNextWorkRequired nTime nBits pindexLast blockTime = some new_nbits ∧
        params.permittedDifficultyTransition (pindexLast.nHeight + 1) (nBits pindexLast)
          new_nbits = true) ∧
    (params.DiffbitsChecked nTime nBits tip → ∀ hash pprev, hash :: pprev <:+ tip → pprev ≠ [] →
      params.permittedDifficultyTransition (CBlockIndex.nHeight (hash :: pprev)) (nBits pprev)
        (nBits (hash :: pprev)) = true) := by
  constructor
  · intro pindexLast blockTime hlast hne hkept
    exact permitted_getNextWorkRequired h hfits hne (htargets pindexLast hlast hne) hkept blockTime
  intro hchecked hash pprev hmem hne
  have hpprev := (suffix_cons hash pprev).trans hmem
  obtain ⟨new_nbits, hnext, hpermitted⟩ :=
    permitted_getNextWorkRequired h hfits hne (htargets pprev hpprev hne)
    (fun _ => hchecked.periodKept h hpprev hne) (nTime (hash :: pprev))
  have hheight : (CBlockIndex.nHeight (hash :: pprev) : Int) = CBlockIndex.nHeight pprev + 1 := by
    exact_mod_cast (succ_pred (length_pos_iff.mpr hne).ne').symm
  rw [hheight, Option.some.inj ((hchecked hash pprev hmem hne).symm.trans hnext)]
  exact hpermitted

/-- Parameters with a limit so low that products do not overflow. -/
def sample (enforce_BIP94 : Bool) (nPowTargetSpacing nPowTargetTimespan : Int) : PowParams where
  powLimit := BitVec.ofNat 256 (2 ^ 200)
  fPowAllowMinDifficultyBlocks := false
  enforce_BIP94
  fPowNoRetargeting := false
  nPowTargetSpacing
  nPowTargetTimespan

theorem required_transitions_permitted_single :
    ∃ new_nbits, (sample false 1209600 1209600).getNextWorkRequired (fun _ => 0)
        (fun _ => 0x1a010000) [0] 0 = some new_nbits ∧
      (sample false 1209600 1209600).permittedDifficultyTransition 1 0x1a010000 new_nbits = true :=
  (required_transitions_permitted (by constructor <;> decide) (by decide) [0] fun _ _
    _ => by decide).1 [0] 0 suffix_rfl
    (cons_ne_nil 0 []) fun henforce => absurd henforce Bool.false_ne_true

/-- A first block with the greatest target and blocks with a lower one. -/
def lowered (pindex : CBlockIndex) : UInt32 := if pindex.length ≤ 1 then 0x1a010000 else 0x19010000

/-- The work that is required after a valid chain is not permitted. -/
def Rejects (params : PowParams) (tip : CBlockIndex) : Prop :=
  params.Regular ∧ (∀ pindex, (deriveTarget (lowered pindex) params.powLimit).isSome) ∧
    ∃ new_nbits, params.getNextWorkRequired (fun _ => 0) lowered tip 0 = some new_nbits ∧
      params.permittedDifficultyTransition (tip.nHeight + 1) (lowered tip) new_nbits = false

/-- Four times the timespan does not fit into 32 bits, or the first block of the period has another
target. -/
theorem required_transitions_rejected :
    (sample false (2 ^ 30) (2 ^ 30)).Rejects [0] ∧ (sample true 4 8).Rejects [1, 0] := by
  have hvalid : ∀ pindex, (deriveTarget (lowered pindex) (BitVec.ofNat 256 (2 ^ 200))).isSome := by
    intro pindex
    unfold lowered
    split <;> decide
  exact ⟨⟨by constructor <;> decide, hvalid, _, rfl, by decide +kernel⟩,
    by constructor <;> decide, hvalid, _, rfl, by decide +kernel⟩

end PowParams

end BtcSharp
