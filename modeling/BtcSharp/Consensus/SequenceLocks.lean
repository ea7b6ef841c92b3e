/-
# Relative lock times of inputs

`CalculateSequenceLocks`, `EvaluateSequenceLocks` and `SequenceLocks` of `consensus/tx_verify.cpp`,
and that a block with a transaction keeps the lock times which the scripts of its inputs ask for.
`none` is a failed assertion or an addition that leaves the type `int`.
-/

import BtcSharp.Chain
import BtcSharp.Script.LockTime

namespace BtcSharp

open List Option

def LOCKTIME_VERIFY_SEQUENCE : Nat := 1 <<< 0
def SEQUENCE_LOCKTIME_GRANULARITY : Nat := 9

/-- Addition in the type `int`. -/
def addInt (left right : Int) : Option Int :=
  if -2147483648 ≤ left + right ∧ left + right < 2147483648 then some (left + right) else none

/-- `nMinHeight` and `nMinTime`: the last height and time at which the transaction is not valid. -/
structure LockPair where
  nMinHeight : Int
  nMinTime : Int
  deriving DecidableEq

/-- One round of the loop over the inputs, with the new entry of `prevHeights`. The height of an
input without a lock is not relevant. -/
def sequenceLockStep (nTime : CBlockIndex → UInt32) (block : CBlockIndex) (txin : CTxIn)
    (nCoinHeight : Int) (locks : LockPair) : Option (Int × LockPair) :=
  let nSequence := txin.nSequence.toNat
  if nSequence &&& SEQUENCE_LOCKTIME_DISABLE_FLAG ≠ 0 then
    some (0, locks)
  else if nSequence &&& SEQUENCE_LOCKTIME_TYPE_FLAG ≠ 0 then do
    let before ← addInt nCoinHeight (-1)
    let ancestor := block.getAncestorInt (max before 0)
    if ancestor = [] then none
    else
      let nCoinTime := getMedianTimePast nTime ancestor
      let last :=
        nCoinTime + ((nSequence &&& SEQUENCE_LOCKTIME_MASK) <<<
          SEQUENCE_LOCKTIME_GRANULARITY : Nat) - 1
      some (nCoinHeight, { locks with nMinTime := max locks.nMinTime last })
  else do
    let first ← addInt nCoinHeight (nSequence &&& SEQUENCE_LOCKTIME_MASK : Nat)
    let last ← addInt first (-1)
    some (nCoinHeight, { locks with nMinHeight := max locks.nMinHeight last })

/-- The loop over the inputs. -/
def sequenceLockLoop (nTime : CBlockIndex → UInt32) (block : CBlockIndex) :
    List CTxIn → List Int → LockPair → Option (List Int × LockPair)
  | txin :: vin, nCoinHeight :: prevHeights, locks => do
    let (height, locks) ← sequenceLockStep nTime block txin nCoinHeight locks
    let (heights, locks) ← sequenceLockLoop nTime block vin prevHeights locks
    return (height :: heights, locks)
  | _, _, locks => some ([], locks)

/-- `CalculateSequenceLocks`, with the changed `prevHeights`. -/
def calculateSequenceLocks (nTime : CBlockIndex → UInt32) (tx : CTransaction) (flags : Nat)
    (prevHeights : List Int) (block : CBlockIndex) : Option (List Int × LockPair) :=
  if prevHeights.length ≠ tx.vin.length then none
  else
    let fEnforceBIP68 := 2 ≤ tx.version ∧ flags &&& LOCKTIME_VERIFY_SEQUENCE ≠ 0
    if ¬ fEnforceBIP68 then some (prevHeights, ⟨-1, -1⟩)
    else sequenceLockLoop nTime block tx.vin prevHeights ⟨-1, -1⟩

def evaluateSequenceLocks (nTime : CBlockIndex → UInt32) (block : CBlockIndex)
    (lockPair : LockPair) : Option Bool :=
  if block.pprev = [] then none
  else
    let nBlockTime := getMedianTimePast nTime block.pprev
    some (!(decide (lockPair.nMinHeight ≥ block.nHeight) || decide
      (lockPair.nMinTime ≥ nBlockTime)))

def sequenceLocks (nTime : CBlockIndex → UInt32) (tx : CTransaction) (flags : Nat)
    (prevHeights : List Int) (block : CBlockIndex) : Option (Bool × List Int) := do
  let (heights, lockPair) ← calculateSequenceLocks nTime tx flags prevHeights block
  let valid ← evaluateSequenceLocks nTime block lockPair
  return (valid, heights)

/-! ## What the locks cover -/

variable {nTime : CBlockIndex → UInt32} {block : CBlockIndex}

/-- The lock of an input is contained in a pair of locks. -/
structure LockPair.Covers (nTime : CBlockIndex → UInt32) (block : CBlockIndex) (locks : LockPair)
    (txin : CTxIn) (nCoinHeight : Int) : Prop where
  height : txin.nSequence.toNat &&& SEQUENCE_LOCKTIME_DISABLE_FLAG = 0 →
    txin.nSequence.toNat &&& SEQUENCE_LOCKTIME_TYPE_FLAG = 0 →
    nCoinHeight + (txin.nSequence.toNat &&& SEQUENCE_LOCKTIME_MASK : Nat) - 1 ≤ locks.nMinHeight
  time : txin.nSequence.toNat &&& SEQUENCE_LOCKTIME_DISABLE_FLAG = 0 →
    txin.nSequence.toNat &&& SEQUENCE_LOCKTIME_TYPE_FLAG ≠ 0 →
    getMedianTimePast nTime (block.getAncestorInt (max (nCoinHeight - 1) 0)) +
      512 * (txin.nSequence.toNat &&& SEQUENCE_LOCKTIME_MASK : Nat) - 1 ≤ locks.nMinTime

/-- A pair of locks that is no weaker than another one. -/
def LockPair.Extends (locks before : LockPair) : Prop :=
  before.nMinHeight ≤ locks.nMinHeight ∧ before.nMinTime ≤ locks.nMinTime

theorem LockPair.Covers.mono {locks before : LockPair} {txin : CTxIn} {nCoinHeight : Int}
    (h : before.Covers nTime block txin nCoinHeight) (hextends : locks.Extends before) :
    locks.Covers nTime block txin nCoinHeight where
  height hdisable htype := (h.height hdisable htype).trans hextends.1
  time hdisable htype := (h.time hdisable htype).trans hextends.2

theorem addInt_eq_some {left right sum : Int} (h : addInt left right = some sum) :
    sum = left + right := by
  rw [addInt] at h
  split at h
  · exact (some.inj h).symm
  · cases h

/-- One round covers the lock of its input. -/
theorem sequenceLockStep_spec {txin : CTxIn} {nCoinHeight height : Int} {before locks : LockPair}
    (h : sequenceLockStep nTime block txin nCoinHeight before = some (height, locks)) :
    locks.Extends before ∧ locks.Covers nTime block txin nCoinHeight := by
  simp only [sequenceLockStep] at h
  split at h
  next hdisable =>
    obtain ⟨-, rfl⟩ := Prod.mk.inj (some.inj h)
    exact ⟨⟨le_refl _, le_refl _⟩, fun henabled => absurd henabled hdisable,
      fun henabled => absurd henabled hdisable⟩
  next =>
    split at h
    next htype =>
      obtain ⟨last, hlast, h⟩ := bind_eq_some_iff.mp h
      obtain rfl := addInt_eq_some hlast
      split at h
      · cases h
      obtain ⟨-, rfl⟩ := Prod.mk.inj (some.inj h)
      refine ⟨⟨le_refl _, le_max_left _ _⟩, fun _ hheight => absurd hheight htype, fun _ _ => ?_⟩
      apply le_max_of_le_right
      rw [Nat.shiftLeft_eq, Nat.mul_comm]
      exact le_refl _
    next htype =>
      obtain ⟨_, hfirst, h⟩ := bind_eq_some_iff.mp h
      obtain ⟨last, hlast, h⟩ := bind_eq_some_iff.mp h
      obtain rfl := addInt_eq_some hfirst
      obtain rfl := addInt_eq_some hlast
      obtain ⟨-, rfl⟩ := Prod.mk.inj (some.inj h)
      exact ⟨⟨le_max_left _ _, le_refl _⟩, fun _ _ => le_max_right _ _,
        fun _ hflag => absurd hflag htype⟩

/-- The loop covers the locks of all inputs. -/
theorem sequenceLockLoop_spec {vin : List CTxIn} :
      ∀ {prevHeights heights : List Int} {before locks : LockPair},
      sequenceLockLoop nTime block vin prevHeights before = some (heights, locks) →
      locks.Extends before ∧ ∀ (i : Nat) (txin : CTxIn) (nCoinHeight : Int), vin[i]? = some txin →
        prevHeights[i]? = some nCoinHeight → locks.Covers nTime block txin nCoinHeight := by
  induction vin with
  | nil =>
    intro prevHeights heights before locks h
    obtain ⟨-, rfl⟩ := Prod.mk.inj (some.inj h)
    exact ⟨⟨le_refl _, le_refl _⟩, nofun⟩
  | cons first vin ih =>
    intro prevHeights heights before locks h
    cases prevHeights with
    | nil =>
      obtain ⟨-, rfl⟩ := Prod.mk.inj (some.inj h)
      exact ⟨⟨le_refl _, le_refl _⟩, nofun⟩
    | cons nCoinHeight prevHeights =>
      obtain ⟨⟨height, _⟩, hstep, h⟩ := bind_eq_some_iff.mp h
      obtain ⟨⟨heights', _⟩, hloop, h⟩ := bind_eq_some_iff.mp h
      obtain ⟨-, rfl⟩ := Prod.mk.inj (some.inj h)
      obtain ⟨hextends, hcovers⟩ := sequenceLockStep_spec hstep
      obtain ⟨hextends', hcovers'⟩ := ih hloop
      refine ⟨⟨hextends.1.trans hextends'.1, hextends.2.trans hextends'.2⟩, ?_⟩
      intro i txin nCoinHeight' htxin hheight
      cases i with
      | zero =>
        cases htxin
        cases hheight
        exact hcovers.mono hextends'
      | succ i => exact hcovers' i txin nCoinHeight' htxin hheight

/-- If the locks are evaluated as met, the block and its parent are past them. -/
theorem sequenceLocks_spec {tx : CTransaction} {prevHeights heights : List Int}
    (hversion : ¬ tx.version < 2)
    (h : sequenceLocks nTime tx LOCKTIME_VERIFY_SEQUENCE prevHeights block = some (true, heights)) :
    prevHeights.length = tx.vin.length ∧ ∃ locks : LockPair,
      (∀ (i : Nat) (txin : CTxIn) (nCoinHeight : Int), tx.vin[i]? = some txin →
        prevHeights[i]? = some nCoinHeight → locks.Covers nTime block txin nCoinHeight) ∧
      locks.nMinHeight < CBlockIndex.nHeight block ∧
      locks.nMinTime < getMedianTimePast nTime (CBlockIndex.pprev block) := by
  obtain ⟨⟨heights', locks⟩, hlocks, h⟩ := bind_eq_some_iff.mp h
  obtain ⟨_, hvalid, h⟩ := bind_eq_some_iff.mp h
  obtain ⟨rfl, -⟩ := Prod.mk.inj (some.inj h)
  simp only [calculateSequenceLocks] at hlocks
  split at hlocks
  · cases hlocks
  next hlength =>
  have henforced :
    ¬ ¬ (2 ≤ tx.version ∧ LOCKTIME_VERIFY_SEQUENCE &&& LOCKTIME_VERIFY_SEQUENCE ≠ 0) :=
    not_not.mpr ⟨UInt32.not_lt.mp hversion, by decide⟩
  rw [if_neg henforced] at hlocks
  rw [evaluateSequenceLocks] at hvalid
  split at hvalid
  · cases hvalid
  have hmet := some.inj hvalid
  rw [Bool.not_eq_true', Bool.or_eq_false_iff, decide_eq_false_iff_not,
    decide_eq_false_iff_not] at hmet
  exact ⟨not_not.mp hlength, locks, (sequenceLockLoop_spec hlocks).2, not_le.mp hmet.1,
    not_le.mp hmet.2⟩

/-! ## Lock times in scripts are kept -/

/-- A block with a transaction keeps the lock times that its input scripts ask for. If the absolute
lock time of a script is accepted and the transaction is final, the height or the time is past it.
If the relative lock time is accepted and the sequence locks hold, the block is as many blocks above
the coin, or its parent's median time as many units of 512 seconds past that before the coin. -/
theorem timelocks_enforced (nTime : CBlockIndex → UInt32)
    (checker : TransactionSignatureChecker) (n : Int) :
    (0 ≤ n → checker.checkLockTime n = true → ∀ height time : Int, 1 ≤ height →
      LOCKTIME_THRESHOLD ≤ time →
      isFinalTx checker.txTo height time = true →
      if n < LOCKTIME_THRESHOLD then n < height else n < time) ∧
    (scriptNumAnd n SEQUENCE_LOCKTIME_DISABLE_FLAG = 0 → checker.checkSequence n = true →
      ∀ (prevHeights heights : List Int) (block : CBlockIndex),
        sequenceLocks nTime checker.txTo LOCKTIME_VERIFY_SEQUENCE prevHeights block = some
          (true, heights) →
        ∃ prevHeight, prevHeights[checker.nIn.val]? = some prevHeight ∧
          (scriptNumAnd n SEQUENCE_LOCKTIME_TYPE_FLAG = 0 →
            block.nHeight ≥ prevHeight + (scriptNumAnd n 0xffff : Nat)) ∧
          (scriptNumAnd n SEQUENCE_LOCKTIME_TYPE_FLAG ≠ 0 → getMedianTimePast nTime block.pprev ≥
              getMedianTimePast nTime (block.getAncestorInt (max (prevHeight - 1) 0)) +
                512 * (scriptNumAnd n 0xffff : Nat))) := by
  constructor
  · intro hn hcheck height time hheight htime hfinal
    obtain ⟨⟨htype, hle⟩, hsequence⟩ := TransactionSignatureChecker.checkLockTime_iff.mp hcheck
    have hnotall :
        (checker.txTo.vin.all fun txin => decide (txin.nSequence = SEQUENCE_FINAL)) = false := by
      apply all_eq_false.mpr
      exact ⟨_,
        get_mem _ checker.nIn, by simpa [TransactionSignatureChecker.nSequence] using hsequence⟩
    rw [isFinalTx] at hfinal
    unfold LOCKTIME_THRESHOLD at *
    grind
  · intro _ hcheck prevHeights heights block hlocks
    obtain ⟨hversion, hdisable, htype, hvalue⟩ :=
      TransactionSignatureChecker.checkSequence_spec hcheck
    obtain ⟨hlength, _, hcovers, hheight, htime⟩ := sequenceLocks_spec hversion hlocks
    have hindex : checker.nIn.val < prevHeights.length := by
      rw [hlength]
      exact checker.nIn.isLt
    have hcover := hcovers checker.nIn.val _ _ (getElem?_eq_getElem checker.nIn.isLt)
      (getElem?_eq_getElem hindex)
    have hvalue' : (scriptNumAnd n 0xffff : Int) ≤
        (checker.txTo.vin[checker.nIn.val].nSequence.toNat &&& SEQUENCE_LOCKTIME_MASK : Nat) :=
      Int.ofNat_le.mpr hvalue
    refine ⟨_, getElem?_eq_getElem hindex, fun hn => ?_, fun hn => ?_⟩
    · have hlock := hcover.height hdisable (htype.mpr hn)
      omega
    · have hlock := hcover.time hdisable (fun hzero => hn (htype.mp hzero))
      omega

/-- A transaction with lock time 100 and an input with a relative lock of three blocks. -/
def lockedChecker : TransactionSignatureChecker where
  txTo := { vin := [⟨⟨1, 0⟩, [], 3, []⟩], vout := [], version := 2, nLockTime := 100 }
  nIn := ⟨0, by decide⟩

/-- It is final above height 100, and its coin from block 1 can be spent in block 5. -/
theorem timelocks_enforced_lockedChecker :
    (100 : Int) < 101 ∧ ∃ prevHeight, [(1 : Int)][0]? = some prevHeight ∧ 5 ≥ prevHeight + 3 := by
  have hparent : (0 : Int) ≤ getMedianTimePast (fun _ => 0) [5, 4, 3, 2, 1] :=
    (le_getMedianTimePast_iff (cons_ne_nil _ _)).mpr (by decide)
  have hlocks : sequenceLocks (fun _ => 0) lockedChecker.txTo LOCKTIME_VERIFY_SEQUENCE [1]
      [6, 5, 4, 3, 2, 1] = some (true, [1]) := by
    have hcalculate :
        calculateSequenceLocks (fun _ => 0) lockedChecker.txTo LOCKTIME_VERIFY_SEQUENCE [1]
        [6, 5, 4, 3, 2, 1] = some ([1], ⟨3, -1⟩) := rfl
    have hevaluate : evaluateSequenceLocks (fun _ => 0) [6, 5, 4, 3, 2, 1] ⟨3, -1⟩ = some true := by
      have hlater : ¬ (-1 : Int) ≥ getMedianTimePast (fun _ => 0) [5, 4, 3, 2, 1] := by omega
      show some (!(false || decide ((-1 : Int) ≥ getMedianTimePast (fun _ => 0) [5, 4, 3, 2, 1]))) =
        some true
      rw [decide_eq_false hlater]
      rfl
    simp only [sequenceLocks, hcalculate, bind_eq_bind, bind_some, hevaluate]
    rfl
  constructor
  · exact (timelocks_enforced (fun _ => 0) lockedChecker 100).1 (by decide) (by decide) 101
      600000000 (by decide) (by decide) (by decide)
  obtain ⟨prevHeight, hprevHeight, hheight, -⟩ :=
    (timelocks_enforced (fun _ => 0) lockedChecker 3).2 (by decide)
    (by decide) [1] [1] [6, 5, 4, 3, 2, 1] hlocks
  exact ⟨prevHeight, hprevHeight, hheight (by decide)⟩

end BtcSharp
