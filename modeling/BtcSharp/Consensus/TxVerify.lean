/-
# Checks of a single transaction

`CheckTransaction`, `GetValueOut` and `Consensus::CheckTxInputs`. Amounts are added
as signed 64-bit integers: an addition whose result does not fit is the separate
outcome `overflow`, so that its absence can be proved.
-/

import BtcSharp.Coins.Stack
import Mathlib.Algebra.Order.BigOperators.Group.List

namespace BtcSharp

open List

def MAX_BLOCK_WEIGHT : Nat := 4000000
def MAX_BLOCK_SIGOPS_COST : Nat := 80000
def COINBASE_MATURITY : Int := 100
def WITNESS_SCALE_FACTOR : Nat := 4

def LOCKTIME_THRESHOLD : Int := 500000000
def SEQUENCE_FINAL : UInt32 := 0xffffffff

section

variable (tx : CTransaction)

def isFinalTx (nBlockHeight nBlockTime : Int) : Bool :=
  let nLockTime : Int := tx.nLockTime.toNat
  decide (nLockTime = 0) ||
    decide (nLockTime < if nLockTime < LOCKTIME_THRESHOLD then nBlockHeight else nBlockTime) ||
    tx.vin.all fun txin => decide (txin.nSequence = SEQUENCE_FINAL)

/-- `TxValidationResult`, without its initial value and the one of a node without a mempool. -/
inductive TxValidationResult
  | txConsensus
  | txInputsNotStandard
  | txNotStandard
  | txMissingInputs
  | txPrematureSpend
  | txWitnessMutated
  | txWitnessStripped
  | txConflict
  | txMempoolPolicy
  | txReconsiderable
  | txUnknown
  deriving DecidableEq, Repr

/-- Why a check of a transaction did not succeed. -/
inductive TxError
  /-- A sum left the range of its type. -/
  | overflow
  /-- An assertion failed. -/
  | assertion
  /-- `GetValueOut` threw. -/
  | valueOutOfRange
  /-- The state was marked invalid. -/
  | invalid (result : TxValidationResult) (reason : String)
  deriving DecidableEq, Repr

/-- Add two amounts. -/
def addAmount (left right : Int) : Except TxError Int :=
  if -9223372036854775808 ≤ left + right ∧ left + right < 9223372036854775808 then
    .ok (left + right)
  else .error .overflow

/-- The sum of the output values. -/
def CTransaction.valueOut : Int := (tx.vout.map (·.nValue)).sum

/-- The loop of `GetValueOut`. -/
def getValueOutLoop : List CTxOut → Int → Except TxError Int
  | [], nValueOut => .ok nValueOut
  | txout :: rest, nValueOut =>
    if !moneyRange txout.nValue then .error .valueOutOfRange
    else
      match addAmount nValueOut txout.nValue with
      | .error err => .error err
      | .ok sum => if !moneyRange sum then .error .valueOutOfRange else getValueOutLoop rest sum

def getValueOut : Except TxError Int := getValueOutLoop tx.vout 0

/-- The loop over the outputs in `CheckTransaction`. -/
def checkOutputs : List CTxOut → Int → Except TxError Unit
  | [], _ => .ok ()
  | txout :: rest, nValueOut =>
    if txout.nValue < 0 then .error (.invalid .txConsensus "bad-txns-vout-negative")
    else if MAX_MONEY < txout.nValue then
      .error (.invalid .txConsensus "bad-txns-vout-toolarge")
    else
      match addAmount nValueOut txout.nValue with
      | .error err => .error err
      | .ok sum =>
        if !moneyRange sum then
          .error (.invalid .txConsensus "bad-txns-txouttotal-toolarge")
        else checkOutputs rest sum

/-- The last part of `CheckTransaction`, which tells coinbases from the others. -/
def checkPrevouts : Except TxError Unit :=
  if tx.isCoinBase then
    let size := (tx.vin.head?.map (·.scriptSig.length)).getD 0
    if size < 2 ∨ 100 < size then .error (.invalid .txConsensus "bad-cb-length") else .ok ()
  else if tx.vin.any (·.prevout.isNull) then
    .error (.invalid .txConsensus "bad-txns-prevout-null")
  else .ok ()

def checkTransaction : Except TxError Unit :=
  if tx.vin.isEmpty then .error (.invalid .txConsensus "bad-txns-vin-empty")
  else if tx.vout.isEmpty then .error (.invalid .txConsensus "bad-txns-vout-empty")
  else if MAX_BLOCK_WEIGHT < (serializeTransaction false tx).length * WITNESS_SCALE_FACTOR then
    .error (.invalid .txConsensus "bad-txns-oversize")
  else
    match checkOutputs tx.vout 0 with
    | .error err => .error err
    | .ok () =>
      if ¬ (tx.vin.map (·.prevout)).Nodup then
        .error (.invalid .txConsensus "bad-txns-inputs-duplicate")
      else checkPrevouts tx

/-- The loop of `CCoinsViewCache::HaveInputs`. -/
def haveInputsLoop : List CTxIn → CacheView → Bool × CacheView
  | [], view => (true, view)
  | txin :: rest, view =>
    match view.haveCoin txin.prevout with
    | (false, view) => (false, view)
    | (true, view) => haveInputsLoop rest view

def haveInputs (view : CacheView) : Bool × CacheView :=
  if tx.isCoinBase then (true, view) else haveInputsLoop tx.vin view

/-- The loop of `CheckTxInputs` that sums up the inputs. The sum is formed before either range is
checked. -/
def sumInputs (nSpendHeight : Nat) :
    List CTxIn → Int → CacheView → Except TxError (Int × CacheView)
  | [], nValueIn, view => .ok (nValueIn, view)
  | txin :: rest, nValueIn, view =>
    match view.accessCoin txin.prevout with
    | (coin, view) =>
      if coin.isSpent then .error .assertion
      else if coin.fCoinBase ∧ (nSpendHeight : Int) - coin.nHeight < COINBASE_MATURITY then
        .error (.invalid .txPrematureSpend "bad-txns-premature-spend-of-coinbase")
      else
        match addAmount nValueIn coin.out.nValue with
        | .error err => .error err
        | .ok sum =>
          if !moneyRange coin.out.nValue || !moneyRange sum then
            .error (.invalid .txConsensus "bad-txns-inputvalues-outofrange")
          else sumInputs nSpendHeight rest sum view

/-- `Consensus::CheckTxInputs`: the fee, and the view with the coins looked at. -/
def checkTxInputs (view : CacheView) (nSpendHeight : Nat) : Except TxError (Int × CacheView) :=
  match haveInputs tx view with
  | (false, _) => .error (.invalid .txMissingInputs "bad-txns-inputs-missingorspent")
  | (true, view) =>
    match sumInputs nSpendHeight tx.vin 0 view with
    | .error err => .error err
    | .ok (nValueIn, view) =>
      match getValueOut tx with
      | .error err => .error err
      | .ok value_out =>
        if nValueIn < value_out then
          .error (.invalid .txConsensus "bad-txns-in-belowout")
        else if !moneyRange (nValueIn - value_out) then
          .error (.invalid .txConsensus "bad-txns-fee-outofrange")
        else .ok (nValueIn - value_out, view)

end

/-! ## Sums within the range of money -/

theorem eq_add_of_addAmount {left right sum : Int} (h : addAmount left right = .ok sum) :
    sum = left + right := by
  unfold addAmount at h
  split at h
  · exact (Except.ok.inj h).symm
  · cases h

theorem addAmount_of_moneyRange {left right : Int} (hleft : moneyRange left = true)
    (hright : moneyRange right = true) : addAmount left right = .ok (left + right) := by
  obtain ⟨hleft0, hleft1⟩ := moneyRange_iff.mp hleft
  obtain ⟨hright0, hright1⟩ := moneyRange_iff.mp hright
  have hmax : MAX_MONEY = 2100000000000000 := rfl
  exact if_pos ⟨by omega, by omega⟩

/-- Values in range sum up to something that is not negative. -/
theorem sum_nonneg {vout : List CTxOut} (h : ∀ txout ∈ vout, moneyRange txout.nValue = true) :
    0 ≤ (vout.map (·.nValue)).sum := by
  apply List.sum_nonneg
  intro value hvalue
  obtain ⟨txout, htxout, rfl⟩ := mem_map.mp hvalue
  exact (moneyRange_iff.mp (h txout htxout)).1

/-- From a sum in range, the output loop never overflows, and if it succeeds all the
values and the total are in range. -/
theorem checkOutputs_spec {vout : List CTxOut} : ∀ {nValueOut : Int}, moneyRange nValueOut = true →
      checkOutputs vout nValueOut ≠ .error .overflow ∧
      (checkOutputs vout nValueOut = .ok () → (∀ txout ∈ vout, moneyRange txout.nValue = true) ∧
          moneyRange (nValueOut + (vout.map (·.nValue)).sum) = true) := by
  induction vout with
  | nil =>
    intro nValueOut hrange
    exact ⟨by simp [checkOutputs], fun _ => by simpa using hrange⟩
  | cons txout rest ih =>
    intro nValueOut hrange
    rw [checkOutputs]
    split
    · exact ⟨by simp, by simp⟩
    next hnonneg =>
    split
    · exact ⟨by simp, by simp⟩
    next hsmall =>
    have hvalue : moneyRange txout.nValue = true :=
      moneyRange_iff.mpr ⟨by omega, by omega⟩
    rw [addAmount_of_moneyRange hrange hvalue]
    simp only
    split
    · exact ⟨by simp, by simp⟩
    next hsum =>
    obtain ⟨hnever, hok⟩ := ih (by simpa using hsum)
    refine ⟨hnever, fun hloop => ?_⟩
    obtain ⟨hvalues, htotal⟩ := hok hloop
    refine ⟨by simpa using ⟨hvalue, hvalues⟩, ?_⟩
    rwa [map_cons, sum_cons, ← Int.add_assoc]

/-- Outputs whose values and total are in range have that total. -/
theorem getValueOutLoop_eq {vout : List CTxOut} : ∀ {nValueOut : Int}, moneyRange nValueOut = true →
      (∀ txout ∈ vout, moneyRange txout.nValue = true) →
      moneyRange (nValueOut + (vout.map (·.nValue)).sum) = true →
      getValueOutLoop vout nValueOut = .ok (nValueOut + (vout.map (·.nValue)).sum) := by
  induction vout with
  | nil =>
    intro nValueOut _ _ _
    simp [getValueOutLoop]
  | cons txout rest ih =>
    intro nValueOut hrange hvalues htotal
    have hvalue := hvalues txout mem_cons_self
    have hrest : ∀ other ∈ rest, moneyRange other.nValue = true := fun other hother =>
      hvalues other (mem_cons_of_mem _ hother)
    rw [map_cons, sum_cons, ← Int.add_assoc] at htotal ⊢
    have hsum : moneyRange (nValueOut + txout.nValue) = true := by
      have hpos := sum_nonneg hrest
      have hlow := moneyRange_iff.mp hrange
      have hmid := moneyRange_iff.mp hvalue
      have hhigh := moneyRange_iff.mp htotal
      exact moneyRange_iff.mpr ⟨by omega, by omega⟩
    rw [getValueOutLoop, hvalue, addAmount_of_moneyRange hrange hvalue]
    simp only [hsum]
    exact ih hsum hrest htotal

/-! ## What a checked transaction satisfies -/

/-- The facts `CheckTransaction` establishes. -/
structure CTransaction.Checked (tx : CTransaction) : Prop where
  vin_ne_nil : tx.vin ≠ []
  vout_ne_nil : tx.vout ≠ []
  size : (serializeTransaction false tx).length * WITNESS_SCALE_FACTOR ≤ MAX_BLOCK_WEIGHT
  values : ∀ txout ∈ tx.vout, moneyRange txout.nValue = true
  total : moneyRange tx.valueOut = true
  nodup : (tx.vin.map (·.prevout)).Nodup

variable {tx : CTransaction} {vin : List CTxIn} {nSpendHeight : Nat}

theorem checkTransaction_checked (h : checkTransaction tx = .ok ()) : tx.Checked := by
  unfold checkTransaction at h
  split at h
  · cases h
  next hvin =>
  split at h
  · cases h
  next hvout =>
  split at h
  · cases h
  next hsize =>
  split at h
  · cases h
  next houtputs =>
  obtain ⟨hvalues, htotal⟩ := (checkOutputs_spec (by decide)).2 houtputs
  split at h
  · cases h
  next hnodup =>
  exact ⟨by simpa using hvin, by simpa using hvout, by omega, hvalues,
    by simpa [CTransaction.valueOut] using htotal, by simpa using hnodup⟩

theorem checkPrevouts_ne_overflow (tx : CTransaction) : checkPrevouts tx ≠ .error .overflow := by
  unfold checkPrevouts
  split
  · simp only
    split <;> simp
  · split <;> simp

/-- `CheckTransaction` never overflows. -/
theorem checkTransaction_ne_overflow (tx : CTransaction) :
    checkTransaction tx ≠ .error .overflow := by
  unfold checkTransaction
  split
  · simp
  split
  · simp
  split
  · simp
  split
  · next err herror =>
    have houtputs := (@checkOutputs_spec tx.vout 0 (by decide)).1
    rwa [herror] at houtputs
  split
  · simp
  · exact checkPrevouts_ne_overflow tx

theorem getValueOut_eq (h : tx.Checked) : getValueOut tx = .ok tx.valueOut := by
  have hloop := @getValueOutLoop_eq tx.vout 0 (by decide) h.values
    (by simpa [CTransaction.valueOut] using h.total)
  simpa [getValueOut, CTransaction.valueOut] using hloop

/-! ## What `CheckTxInputs` establishes -/

/-- The value a map gives to an input. -/
def inputValue (map : UtxoMap) (txin : CTxIn) : Int :=
  ((map txin.prevout).map (·.out.nValue)).getD 0

/-- The total value of the inputs of a transaction. -/
def CTransaction.valueIn (tx : CTransaction) (map : UtxoMap) : Int :=
  (tx.vin.map (inputValue map)).sum

variable {start : CacheView} {map : UtxoMap}

theorem haveInputsLoop_spec : ∀ {view : CacheView}, CacheView.Steps start view map →
      (haveInputsLoop vin view).1 = vin.all (fun txin => (map txin.prevout).isSome) ∧
        CacheView.Steps start (haveInputsLoop vin view).2 map := by
  induction vin with
  | nil => exact fun h => ⟨rfl, h⟩
  | cons txin rest ih =>
    intro view h
    obtain ⟨hhave, hsteps⟩ := CacheView.haveCoin_steps h txin.prevout
    rcases hcall : view.haveCoin txin.prevout with ⟨found, _⟩
    rw [hcall] at hhave hsteps
    cases found with
    | false => simp [haveInputsLoop, hcall, ← hhave, hsteps]
    | true =>
      obtain ⟨hrest, hrestSteps⟩ := ih hsteps
      refine ⟨?_, ?_⟩
      · simp [haveInputsLoop, hcall, hrest, ← hhave]
      · simpa [haveInputsLoop, hcall] using hrestSteps

theorem haveInputs_steps {view : CacheView} (h : CacheView.Steps start view map) :
    CacheView.Steps start (haveInputs tx view).2 map := by
  unfold haveInputs
  split
  · exact h
  · exact (haveInputsLoop_spec h).2

/-- The empty coin counts as spent, so the map has a coin that is not. -/
theorem exists_of_not_isSpent {outpoint : COutPoint}
    (hunspent : ¬ ((map outpoint).getD Coin.empty).isSpent = true) :
      ∃ coin, map outpoint = some coin := by
  cases hmap : map outpoint with
  | none =>
    rw [hmap] at hunspent
    simp at hunspent
  | some coin => exact ⟨coin, rfl⟩

/-- The summing loop: on success every coin was there with a value in range, the sum
is right, and the view still shows the same map. -/
theorem sumInputs_spec : ∀ {nValueIn total : Int} {view view' : CacheView},
      CacheView.Steps start view map →
      sumInputs nSpendHeight vin nValueIn view = .ok (total, view') →
      CacheView.Steps start view' map ∧ total = nValueIn + (vin.map (inputValue map)).sum ∧
        (moneyRange nValueIn = true → moneyRange total = true) ∧
        ∀ txin ∈ vin, ∃ coin, map txin.prevout = some coin := by
  induction vin with
  | nil =>
    intro nValueIn total view view' h hsum
    obtain ⟨rfl, rfl⟩ : nValueIn = total ∧ view = view' := by simpa [sumInputs] using hsum
    exact ⟨h, by simp, id, by simp⟩
  | cons txin rest ih =>
    intro nValueIn total view view' h hsum
    obtain ⟨hcoin, hsteps⟩ := CacheView.accessCoin_steps h txin.prevout
    rcases hcall : view.accessCoin txin.prevout with ⟨coin, _⟩
    rw [hcall] at hcoin hsteps
    simp only at hcoin hsteps
    simp only [sumInputs, hcall] at hsum
    split at hsum
    · cases hsum
    next hunspent =>
    obtain ⟨found, hfound⟩ := exists_of_not_isSpent (hcoin ▸ hunspent)
    obtain rfl : coin = found := by rw [hcoin, hfound, Option.getD_some]
    split at hsum
    · cases hsum
    split at hsum
    · cases hsum
    next sum hadd =>
    split at hsum
    · cases hsum
    next hranges =>
    obtain ⟨hvalue, hrange⟩ : moneyRange coin.out.nValue = true ∧
        moneyRange sum = true := by simpa using hranges
    obtain ⟨hrestSteps, htotal, htotalRange, hcoins⟩ := ih hsteps hsum
    refine ⟨hrestSteps, ?_, fun _ => htotalRange hrange,
      forall_mem_cons.mpr ⟨⟨coin, hfound⟩, hcoins⟩⟩
    rw [htotal, eq_add_of_addAmount hadd, map_cons, inputValue, hfound]
    simp [Int.add_assoc]

/-- `CheckTxInputs` of a checked transaction that is not a coinbase: on success its
inputs are there and pay for its outputs and the fee. -/
theorem checkTxInputs_spec {view view' : CacheView} {fee : Int} (h : CacheView.Steps start view map)
    (htx : tx.Checked) (hcheck : checkTxInputs tx view nSpendHeight = .ok (fee, view')) :
    CacheView.Steps start view' map ∧ (∀ txin ∈ tx.vin, ∃ coin, map txin.prevout = some coin) ∧
      tx.valueIn map = tx.valueOut + fee ∧ moneyRange fee = true := by
  have hhave := @haveInputs_steps tx _ _ view h
  unfold checkTxInputs at hcheck
  rcases hinputs : haveInputs tx view with ⟨found, _⟩
  rw [hinputs] at hhave hcheck
  cases found with
  | false => cases hcheck
  | true =>
    simp only at hcheck
    split at hcheck
    · cases hcheck
    next nValueIn last hsum =>
    obtain ⟨hsteps, htotal, -, hcoins⟩ := sumInputs_spec hhave hsum
    rw [getValueOut_eq htx] at hcheck
    simp only at hcheck
    split at hcheck
    · cases hcheck
    split at hcheck
    · cases hcheck
    next hfee =>
    cases hcheck
    refine ⟨hsteps, hcoins, ?_, by simpa using hfee⟩
    rw [CTransaction.valueIn]
    omega

/-! ## `CheckTxInputs` never overflows -/

/-- Every coin of the map has a value in the range of money. -/
def UtxoMap.InMoneyRange (map : UtxoMap) : Prop :=
  ∀ outpoint coin, map outpoint = some coin → moneyRange coin.out.nValue = true

theorem sumInputs_ne_overflow (hmoney : map.InMoneyRange) : ∀ {nValueIn : Int} {view : CacheView},
      CacheView.Steps start view map → moneyRange nValueIn = true →
      sumInputs nSpendHeight vin nValueIn view ≠ .error .overflow := by
  induction vin with
  | nil =>
    intro nValueIn view _ _
    simp [sumInputs]
  | cons txin rest ih =>
    intro nValueIn view h hrange
    obtain ⟨hcoin, hsteps⟩ := CacheView.accessCoin_steps h txin.prevout
    rcases hcall : view.accessCoin txin.prevout with ⟨coin, _⟩
    rw [hcall] at hcoin hsteps
    simp only at hcoin hsteps
    simp only [sumInputs, hcall]
    split
    · simp
    next hunspent =>
    obtain ⟨found, hfound⟩ := exists_of_not_isSpent (hcoin ▸ hunspent)
    have hvalue : moneyRange coin.out.nValue = true := by
      rw [hcoin, hfound]
      exact hmoney _ found hfound
    split
    · simp
    rw [addAmount_of_moneyRange hrange hvalue]
    simp only
    split
    · simp
    next hranges =>
    have hsum : moneyRange (nValueIn + coin.out.nValue) = true := by
      simpa [hvalue] using hranges
    exact ih hsteps hsum

theorem checkTxInputs_ne_overflow {view : CacheView} (h : CacheView.Steps start view map)
    (htx : tx.Checked) (hmoney : map.InMoneyRange) :
    checkTxInputs tx view nSpendHeight ≠ .error .overflow := by
  have hhave := @haveInputs_steps tx _ _ view h
  unfold checkTxInputs
  rcases hinputs : haveInputs tx view with ⟨found, mid⟩
  rw [hinputs] at hhave
  cases found with
  | false => simp
  | true =>
    simp only
    split
    · next err hsum =>
      have hnever : sumInputs nSpendHeight tx.vin 0 mid ≠ .error .overflow :=
        sumInputs_ne_overflow hmoney hhave (by decide)
      rwa [hsum] at hnever
    rw [getValueOut_eq htx]
    simp only
    split
    · simp
    · split <;> simp

end BtcSharp
