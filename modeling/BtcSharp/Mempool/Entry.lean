/-
# Mempool entries

`CTxMemPoolEntry` with the totals it caches for the package of its in-mempool ancestors
and for that of its descendants, and the two functions that change these totals. Fees are
added with `SaturatingAdd`. The totals themselves are integers without bounds: what the
source converts to a narrower type is recorded when it does not fit, and from then on the
totals need not be those of the source.
-/

import BtcSharp.Consensus.TxVerify

namespace BtcSharp

open List

/-- The largest and the smallest `CAmount`. -/
def CAMOUNT_MAX : Int := 2 ^ 63 - 1
def CAMOUNT_MIN : Int := -2 ^ 63

/-- `SaturatingAdd` for `CAmount`. -/
def saturatingAdd (i j : Int) : Int :=
  if 0 < i ∧ CAMOUNT_MAX - i < j then CAMOUNT_MAX
  else if i < 0 ∧ j < CAMOUNT_MIN - i then CAMOUNT_MIN
  else i + j

/-- A `CAmount` that was computed without a check, which wraps around. -/
def toAmount (n : Int) : Int := n.bmod (2 ^ 64)

/-- A number that a `CAmount` can be. -/
def IsAmount (n : Int) : Prop := CAMOUNT_MIN ≤ n ∧ n ≤ CAMOUNT_MAX

instance (n : Int) : Decidable (IsAmount n) := inferInstanceAs (Decidable (_ ∧ _))

theorem IsAmount.toAmount_eq {n : Int} (h : IsAmount n) : toAmount n = n := by
  obtain ⟨hlow, hhigh⟩ := h
  unfold CAMOUNT_MIN at hlow
  unfold CAMOUNT_MAX at hhigh
  exact Int.bmod_eq_of_le (by omega) (by omega)

def getTransactionWeight (tx : CTransaction) : Nat :=
  (serializeTransaction false tx).length * (WITNESS_SCALE_FACTOR - 1) +
    (serializeTransaction true tx).length

def getVirtualTransactionSize (nWeight nSigOpCost bytes_per_sigop : Nat) : Nat :=
  (max nWeight (nSigOpCost * bytes_per_sigop) + WITNESS_SCALE_FACTOR - 1) / WITNESS_SCALE_FACTOR

/-! ## Package totals -/

/-- What a package total adds up. -/
inductive Quantity
  | count
  | size
  | fees
  | sigOps
  deriving DecidableEq, Repr

/-- The cached totals of a package. The totals with descendants have no signature
operation cost, which stays zero there. The last two fields record whether an assertion
failed, and whether a fee sum was clamped or a number did not fit its type. -/
structure PackageState where
  count : Int
  size : Int
  fees : Int
  sigOps : Int
  assertFailed : Bool := false
  saturated : Bool := false
  deriving DecidableEq, Repr

namespace PackageState

def get (state : PackageState) : Quantity → Int
  | .count => state.count
  | .size => state.size
  | .fees => state.fees
  | .sigOps => state.sigOps

/-- The common part of `UpdateDescendantState` and `UpdateAncestorState`. The callers pass
`modifySize` as an `int32_t`, and the cost of signature operations is compared as an `int`. -/
def update (state : PackageState) (modify : Quantity → Int) : PackageState :=
  { count := state.count + modify .count
    size := state.size + modify .size
    fees := saturatingAdd state.fees (modify .fees)
    sigOps := state.sigOps + modify .sigOps
    assertFailed := state.assertFailed ||
      decide (state.size + (modify .size).bmod (2 ^ 32) ≤ 0) ||
      decide (state.count + modify .count ≤ 0) ||
      decide ((state.sigOps + modify .sigOps).bmod (2 ^ 32) < 0)
    saturated := state.saturated ||
      decide ((modify .size).bmod (2 ^ 32) ≠ modify .size) ||
      decide ((state.sigOps + modify .sigOps).bmod (2 ^ 32) ≠ state.sigOps + modify .sigOps) ||
      decide (modify .fees < CAMOUNT_MIN ∨ CAMOUNT_MAX < modify .fees) ||
      decide (saturatingAdd state.fees (modify .fees) ≠ state.fees + modify .fees) }

/-- What the assertions ask for. -/
def Positive (state : PackageState) : Prop :=
  0 < state.size ∧ 0 < state.count ∧ 0 ≤ state.sigOps

section

variable {state : PackageState} {modify : Quantity → Int}

theorem saturated_update (h : (state.update modify).saturated = false) :
    state.saturated = false := by
  simp only [update, Bool.or_eq_false_iff] at h
  exact h.1.1.1.1

/-- An update adds up, unless it is the fee sum that was clamped. -/
theorem get_update {q : Quantity} (h : q = .fees → (state.update modify).saturated = false) :
    (state.update modify).get q = state.get q + modify q := by
  cases q with
  | fees =>
    have hflag := h rfl
    simp only [update, Bool.or_eq_false_iff, decide_eq_false_iff_not, not_not] at hflag
    exact hflag.2
  | count => rfl
  | size => rfl
  | sigOps => rfl

theorem assertFailed_update (h : state.assertFailed = false)
    (hflag : (state.update modify).saturated = false) (hpos : (state.update modify).Positive) :
    (state.update modify).assertFailed = false := by
  obtain ⟨hsize, hcount, hsigOps⟩ := hpos
  simp only [update, Bool.or_eq_false_iff, decide_eq_false_iff_not, not_not] at hflag
  obtain ⟨⟨⟨⟨-, hsizeFits⟩, hsigOpsFit⟩, -⟩, -⟩ := hflag
  simp only [update, hsizeFits, hsigOpsFit] at hsize hcount hsigOps ⊢
  simp [h, hsize, hcount, hsigOps]

variable {reached : Prop} [Decidable reached]

theorem saturated_ite_update
    (h : (if reached then state.update modify else state).saturated = false) :
    state.saturated = false := by
  split at h
  · exact saturated_update h
  · exact h

theorem assertFailed_ite_update (h : state.assertFailed = false)
    (hflag : (if reached then state.update modify else state).saturated = false)
    (hpos : (if reached then state.update modify else state).Positive) :
    (if reached then state.update modify else state).assertFailed = false := by
  by_cases hreached : reached
  · rw [if_pos hreached] at hflag hpos ⊢
    exact assertFailed_update h hflag hpos
  · rw [if_neg hreached]
    exact h

end

variable {modifies : List (Quantity → Int)}

theorem saturated_foldl_update :
      ∀ {state : PackageState}, (modifies.foldl update state).saturated = false →
      state.saturated = false := by
  induction modifies with
  | nil => exact fun h => h
  | cons modify modifies ih => exact fun h => saturated_update (ih h)

/-- A sequence of updates adds up, unless it is the fee sum that was clamped. -/
theorem get_foldl_update {q : Quantity} :
    ∀ {state : PackageState}, (q = .fees → (modifies.foldl update state).saturated = false) →
      (modifies.foldl update state).get q = state.get
        q + (modifies.map fun modify => modify q).sum := by
  induction modifies with
  | nil => exact fun _ => (Int.add_zero _).symm
  | cons modify modifies ih =>
    intro state h
    have hhead : q = .fees → (state.update modify).saturated = false := fun hq =>
      saturated_foldl_update (h hq)
    rw [foldl_cons, ih h, get_update hhead, map_cons, sum_cons, Int.add_assoc]

/-- No assertion fails in a sequence of decreases that ends in a positive state. -/
theorem foldl_update_assert_of_nonpos : ∀ {state : PackageState}, state.assertFailed = false →
      (modifies.foldl update state).saturated = false →
      (modifies.foldl update state).Positive →
      (∀ modify ∈ modifies, ∀ q, q ≠ .fees → modify q ≤ 0) →
      (modifies.foldl update state).assertFailed = false := by
  induction modifies with
  | nil => exact fun h _ _ _ => h
  | cons modify modifies ih =>
    intro state h hflag hpos hmodify
    have hrest : ∀ other ∈ modifies, ∀ q, q ≠ .fees → other q ≤ 0 := fun other hother =>
      hmodify other (mem_cons_of_mem _ hother)
    have hle : ∀ q, q ≠ .fees →
        ((modify :: modifies).foldl update state).get q ≤ (state.update modify).get q := by
      intro q hq
      have hsum : (modifies.map fun other => other q).sum ≤ 0 := by
        calc (modifies.map fun other => other q).sum ≤ (modifies.map fun _ => (0 : Int)).sum :=
              sum_le_sum fun other hother => hrest other hother q hq
          _ = 0 := by simp
      rw [foldl_cons, get_foldl_update fun heq => absurd heq hq]
      omega
    have hnext : (state.update modify).Positive :=
      ⟨Int.lt_of_lt_of_le hpos.1 (hle .size (by decide)),
        Int.lt_of_lt_of_le hpos.2.1 (hle .count (by decide)),
        Int.le_trans hpos.2.2 (hle .sigOps (by decide))⟩
    exact ih (assertFailed_update h (saturated_foldl_update hflag) hnext) hflag hpos hrest

end PackageState

/-! ## Entries -/

/-- `CTxMemPoolEntry`. Parents and children are sets of transaction ids. The last field
records whether the modified fee was clamped. -/
structure CTxMemPoolEntry where
  tx : CTransaction
  nFee : Int
  nTime : Int
  sigOpCost : Nat
  m_modified_fee : Int
  m_parents : List Uint256
  m_children : List Uint256
  withAncestors : PackageState
  withDescendants : PackageState
  saturated : Bool := false
  deriving DecidableEq, Repr

instance : Inhabited CTxMemPoolEntry :=
  ⟨{ tx := ⟨[], [], 0, 0⟩, nFee := 0, nTime := 0, sigOpCost := 0, m_modified_fee := 0
     m_parents := [], m_children := [], withAncestors := ⟨0, 0, 0, 0, false, false⟩
     withDescendants := ⟨0, 0, 0, 0, false, false⟩ }⟩

structure MemPoolLimits where
  ancestor_count : Int := 25
  ancestor_size_vbytes : Int := 101000
  descendant_count : Int := 25
  descendant_size_vbytes : Int := 101000
  deriving DecidableEq, Repr

/-- What the mempool asks of the rest of the node: the hash of a transaction, the setting
that counts signature operations as bytes, and the limits it was given. -/
structure MempoolEnv where
  txid : CTransaction → Uint256
  nBytesPerSigOp : Nat
  limits : MemPoolLimits

namespace CTxMemPoolEntry

variable (env : MempoolEnv)

/-- `GetTxSize`. The source narrows the size to an `int32_t`, for which `nBytesPerSigOp` has to
keep it below `2 ^ 31`; the weight of a transaction alone does. -/
def getTxSize (entry : CTxMemPoolEntry) : Nat :=
  getVirtualTransactionSize (getTransactionWeight entry.tx) entry.sigOpCost env.nBytesPerSigOp

/-- What the entry adds to a package total. -/
def quantity (entry : CTxMemPoolEntry) : Quantity → Int
  | .count => 1
  | .size => entry.getTxSize env
  | .fees => entry.m_modified_fee
  | .sigOps => entry.sigOpCost

variable (entry : CTxMemPoolEntry)

def updateDescendantState (modifySize modifyFee modifyCount : Int) : CTxMemPoolEntry :=
  { entry with withDescendants := entry.withDescendants.update fun
      | .count => modifyCount
      | .size => modifySize
      | .fees => modifyFee
      | .sigOps => 0 }

def updateAncestorState (modifySize modifyFee modifyCount modifySigOps : Int) : CTxMemPoolEntry :=
  { entry with withAncestors := entry.withAncestors.update fun
      | .count => modifyCount
      | .size => modifySize
      | .fees => modifyFee
      | .sigOps => modifySigOps }

def updateModifiedFee (fee_diff : Int) : CTxMemPoolEntry :=
  let addFee := fun state : PackageState =>
    { state with
      fees := saturatingAdd state.fees fee_diff
      saturated := state.saturated ||
        decide (saturatingAdd state.fees fee_diff ≠ state.fees + fee_diff) }
  { entry with
    withDescendants := addFee entry.withDescendants
    withAncestors := addFee entry.withAncestors
    m_modified_fee := saturatingAdd entry.m_modified_fee fee_diff
    saturated := entry.saturated ||
      decide (saturatingAdd entry.m_modified_fee fee_diff ≠ entry.m_modified_fee + fee_diff) }

theorem getTxSize_pos (entry : CTxMemPoolEntry) : 0 < entry.getTxSize env := by
  have hweight : 4 ≤ getTransactionWeight entry.tx := by
    have hlength : 4 ≤ (serializeTransaction true entry.tx).length := by
      simp only [serializeTransaction, length_append, length_uint32]
      omega
    unfold getTransactionWeight
    omega
  unfold getTxSize getVirtualTransactionSize WITNESS_SCALE_FACTOR
  omega

theorem quantity_nonneg (entry : CTxMemPoolEntry) {q : Quantity} (hq : q ≠ .fees) :
    0 ≤ entry.quantity env q := by
  cases q with
  | fees => exact absurd rfl hq
  | count => exact Int.zero_le_ofNat 1
  | size | sigOps => exact Int.natCast_nonneg _

/-- The constructor of `CTxMemPoolEntry`. -/
def new (tx : CTransaction) (fee time : Int) (sigops_cost : Nat) : CTxMemPoolEntry :=
  let size := getVirtualTransactionSize (getTransactionWeight tx) sigops_cost env.nBytesPerSigOp
  { tx := tx
    nFee := fee
    nTime := time
    sigOpCost := sigops_cost
    m_modified_fee := fee
    m_parents := []
    m_children := []
    withAncestors := { count := 1, size := size, fees := fee, sigOps := sigops_cost }
    withDescendants := { count := 1, size := size, fees := fee, sigOps := 0 } }

/-- No fee sum of the entry was clamped, and every number fitted its type. -/
def Unsaturated : Prop :=
  entry.withAncestors.saturated = false ∧ entry.withDescendants.saturated = false ∧
    entry.saturated = false

/-- No assertion failed in an update of the entry. -/
def NoAssert : Prop :=
  entry.withAncestors.assertFailed = false ∧ entry.withDescendants.assertFailed = false

end CTxMemPoolEntry

end BtcSharp
