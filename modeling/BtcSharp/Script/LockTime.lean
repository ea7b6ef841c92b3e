/-
# Lock times in scripts

`CheckLockTime` and `CheckSequence` of `GenericTransactionSignatureChecker`: what the opcodes
`OP_CHECKLOCKTIMEVERIFY` and `OP_CHECKSEQUENCEVERIFY` ask of the transaction that a signature
checker is for. Script numbers are integers, and a mask is applied to their 64 bits in two's
complement.
-/

import Mathlib.Data.Nat.Bitwise
import BtcSharp.Consensus.TxVerify

namespace BtcSharp

def SEQUENCE_LOCKTIME_DISABLE_FLAG : Nat := 1 <<< 31
def SEQUENCE_LOCKTIME_TYPE_FLAG : Nat := 1 <<< 22
def SEQUENCE_LOCKTIME_MASK : Nat := 0x0000ffff

/-- The bits of a script number under a mask. -/
def scriptNumAnd (n : Int) (mask : Nat) : Nat := (n % 2 ^ 64).toNat &&& mask

/-- The transaction and the input that `GenericTransactionSignatureChecker` checks. -/
structure TransactionSignatureChecker where
  txTo : CTransaction
  nIn : Fin txTo.vin.length

namespace TransactionSignatureChecker

/-- The sequence number of the input. -/
def nSequence (checker : TransactionSignatureChecker) : UInt32 :=
    (checker.txTo.vin.get checker.nIn).nSequence

def checkLockTime (checker : TransactionSignatureChecker) (nLockTime : Int) : Bool :=
  let txLockTime : Int := checker.txTo.nLockTime.toNat
  if ¬ ((txLockTime < LOCKTIME_THRESHOLD ∧ nLockTime < LOCKTIME_THRESHOLD) ∨
      (txLockTime ≥ LOCKTIME_THRESHOLD ∧ nLockTime ≥ LOCKTIME_THRESHOLD)) then false
  else if nLockTime > txLockTime then false
  else if SEQUENCE_FINAL = checker.nSequence then false
  else true

def checkSequence (checker : TransactionSignatureChecker) (nSequence : Int) : Bool :=
  let txToSequence := checker.nSequence.toNat
  if checker.txTo.version < 2 then false
  else if txToSequence &&& SEQUENCE_LOCKTIME_DISABLE_FLAG ≠ 0 then false
  else
    let nLockTimeMask := SEQUENCE_LOCKTIME_TYPE_FLAG ||| SEQUENCE_LOCKTIME_MASK
    let txToSequenceMasked := txToSequence &&& nLockTimeMask
    let nSequenceMasked := scriptNumAnd nSequence nLockTimeMask
    if ¬ ((txToSequenceMasked < SEQUENCE_LOCKTIME_TYPE_FLAG ∧
        nSequenceMasked < SEQUENCE_LOCKTIME_TYPE_FLAG) ∨
        (txToSequenceMasked ≥ SEQUENCE_LOCKTIME_TYPE_FLAG ∧
        nSequenceMasked ≥ SEQUENCE_LOCKTIME_TYPE_FLAG)) then
      false
    else if nSequenceMasked > txToSequenceMasked then false
    else true

/-- What an accepted lock time says about the transaction. -/
theorem checkLockTime_iff {checker : TransactionSignatureChecker} {nLockTime : Int} :
    checker.checkLockTime nLockTime = true ↔
      (((checker.txTo.nLockTime.toNat : Int) < LOCKTIME_THRESHOLD ↔
        nLockTime < LOCKTIME_THRESHOLD) ∧
        nLockTime ≤ checker.txTo.nLockTime.toNat) ∧ checker.nSequence ≠ SEQUENCE_FINAL := by
  simp only [checkLockTime]
  grind

end TransactionSignatureChecker

/-! ## Masked sequence numbers -/

theorem and_typeFlag (bits : Nat) :
    bits &&& SEQUENCE_LOCKTIME_TYPE_FLAG = (bits.testBit 22).toNat * 2 ^ 22 :=
    Nat.and_two_pow bits 22

theorem and_mask_lt (bits : Nat) : bits &&& SEQUENCE_LOCKTIME_MASK < 2 ^ 16 :=
  Nat.and_lt_two_pow bits (by decide)

/-- The two parts of a masked number: the type and the value. -/
theorem and_lockTimeMask (bits : Nat) :
      bits &&& (SEQUENCE_LOCKTIME_TYPE_FLAG ||| SEQUENCE_LOCKTIME_MASK) =
      (bits &&& SEQUENCE_LOCKTIME_TYPE_FLAG) + (bits &&& SEQUENCE_LOCKTIME_MASK) := by
  have hvalue : bits &&& SEQUENCE_LOCKTIME_MASK < 2 ^ 22 := (and_mask_lt bits).trans (by decide)
  rw [Nat.and_or_distrib_left, and_typeFlag, Nat.mul_comm, Nat.two_pow_add_eq_or_of_lt hvalue]

/-- The comparison with the type flag tells the type. -/
theorem lt_typeFlag_iff (bits : Nat) :
    bits &&& (SEQUENCE_LOCKTIME_TYPE_FLAG ||| SEQUENCE_LOCKTIME_MASK) <
      SEQUENCE_LOCKTIME_TYPE_FLAG ↔ bits &&& SEQUENCE_LOCKTIME_TYPE_FLAG = 0 := by
  have hvalue := and_mask_lt bits
  have hflag : SEQUENCE_LOCKTIME_TYPE_FLAG = 2 ^ 22 := rfl
  rw [and_lockTimeMask, and_typeFlag]
  cases bits.testBit 22 with
  | false => simp only [Bool.toNat_false]; omega
  | true => simp only [Bool.toNat_true]; omega

/-- An accepted relative lock time: the input has the same type of lock and no smaller value. With
the same type the masked numbers differ by their values. -/
theorem TransactionSignatureChecker.checkSequence_spec {checker : TransactionSignatureChecker}
    {nSequence : Int} (h : checker.checkSequence nSequence = true) :
    ¬ checker.txTo.version < 2 ∧ checker.nSequence.toNat &&& SEQUENCE_LOCKTIME_DISABLE_FLAG = 0 ∧
      (checker.nSequence.toNat &&& SEQUENCE_LOCKTIME_TYPE_FLAG = 0 ↔
        scriptNumAnd nSequence SEQUENCE_LOCKTIME_TYPE_FLAG = 0) ∧
      scriptNumAnd nSequence SEQUENCE_LOCKTIME_MASK ≤ checker.nSequence.toNat &&&
        SEQUENCE_LOCKTIME_MASK := by
  simp only [checkSequence] at h
  split at h
  · cases h
  next hversion =>
  split at h
  · cases h
  next hdisable =>
  split at h
  · cases h
  next htypes =>
  split at h
  · cases h
  next hvalues =>
  unfold scriptNumAnd at htypes hvalues ⊢
  generalize (nSequence % 2 ^ 64).toNat = operand at htypes hvalues ⊢
  generalize checker.nSequence.toNat = sequence at hdisable htypes hvalues ⊢
  have htype : sequence &&& SEQUENCE_LOCKTIME_TYPE_FLAG = 0 ↔
      operand &&& SEQUENCE_LOCKTIME_TYPE_FLAG = 0 := by
    rw [← lt_typeFlag_iff, ← lt_typeFlag_iff]
    omega
  refine ⟨hversion, not_not.mp hdisable, htype, ?_⟩
  rw [and_lockTimeMask, and_lockTimeMask, and_typeFlag, and_typeFlag] at hvalues
  rw [and_typeFlag, and_typeFlag] at htype
  cases hsequence : sequence.testBit 22 <;> cases hoperand : operand.testBit 22 <;>
    simp_all

end BtcSharp
