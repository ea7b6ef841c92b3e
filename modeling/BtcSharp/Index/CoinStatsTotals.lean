/-
# What a block adds to the statistics

The running totals and the running hash form a commutative group, and what `CustomAppend` and
`ReverseBlock` do to them is adding and subtracting: one amount for each output that is created and
one for each that is spent. The unclaimed rewards are a projection onto the totals that balance, so
that undoing a block leads back to where it was appended.

The amounts are integers here; the index keeps them modulo `2 ^ 64`.
-/

import BtcSharp.Index.CoinStatsIndex
import BtcSharp.Validation.NoInflation
import Mathlib.Algebra.BigOperators.Pi
import Mathlib.Tactic.Abel

namespace BtcSharp

open Math List RunningStats

/-- Totals without a bound on their size. -/
abbrev Totals := Total → ℤ

/-- Totals with the product that is hashed. -/
abbrev ChainStat (G : Type) := Totals × Additive G

/-- Totals of 64 bits with the product that is hashed. -/
abbrev WrappedStat (G : Type) := (Total → BitVec 64) × Additive G

section

variable {G : Type} [CommGroup G]

/-- An amount in one of the totals. -/
def single (total : Total) (amount : ℤ) : ChainStat G := (Pi.single total amount, 0)

/-- The totals modulo `2 ^ 64`. -/
def wrap : ChainStat G →+ WrappedStat G :=
  AddMonoidHom.prodMap (AddMonoidHom.compLeft (Int.castAddHom (BitVec 64)) Total)
    (AddMonoidHom.id _)

/-- The totals modulo `2 ^ 64`, to be taken back. -/
def unwrap : ChainStat G →+ WrappedStat G := -wrap (G := G)

theorem add_unwrap (before : WrappedStat G) (stat : ChainStat G) :
    before + unwrap stat = before - wrap stat := (sub_eq_add_neg _ _).symm

variable (stat : ChainStat G)

theorem wrap_fst (total : Total) :
    (wrap stat).1 total = BitVec.ofInt 64 (stat.1 total) := rfl

theorem wrap_snd : (wrap stat).2 = stat.2 := rfl

theorem update_add {M : Type*} [AddCommGroup M] (totals : Total → M) (total : Total) (amount : M) :
    Function.update totals total (totals total + amount) = totals + Pi.single total amount := by
  ext other
  by_cases h : other = total
  · subst h
    rw [Function.update_self, Pi.add_apply, Pi.single_eq_same]
  · rw [Function.update_of_ne h, Pi.add_apply, Pi.single_eq_of_ne h, add_zero]

theorem wrap_single (total : Total) (amount : ℤ) :
    wrap (single total amount : ChainStat G) = (Pi.single total (BitVec.ofInt 64 amount), 0) := by
  apply Prod.ext
  · ext1 other
    rw [wrap_fst]
    by_cases h : other = total
    · subst h
      simp only [single, Pi.single_eq_same]
    · simp only [single, Pi.single_eq_of_ne h]
      rfl
  · rfl

/-- The weight of a coin in the statistics of the coin set. -/
def coinStat (menv : MuHashEnv G) (outpoint : COutPoint) (coin : Coin) : ChainStat G :=
  single .m_transaction_output_count 1 + single .m_total_amount coin.out.nValue +
    single .m_bogo_size (getBogoSize coin.out.scriptPubKey) +
    (0, Additive.ofMul (menv.toNum3072 (txOutSer outpoint coin)))

/-- What an output adds to the other totals. -/
def createdStat (coin : Coin) : ChainStat G :=
  if coin.out.scriptPubKey.isUnspendable then
    single .m_total_unspendable_amount coin.out.nValue +
      single .m_total_unspendables_scripts coin.out.nValue
  else single (if coin.fCoinBase then .m_total_coinbase_amount
    else .m_total_new_outputs_ex_coinbase_amount) coin.out.nValue

/-- What an output adds. -/
def outputStat (menv : MuHashEnv G) (outpoint : COutPoint) (coin : Coin) : ChainStat G :=
  (if coin.out.scriptPubKey.isUnspendable then 0 else coinStat menv outpoint coin) +
    createdStat coin

/-- What a spent output adds. -/
def prevoutStat (menv : MuHashEnv G) (outpoint : COutPoint) (coin : Coin) : ChainStat G :=
  single .m_total_prevout_spent_amount coin.out.nValue - coinStat menv outpoint coin

/-- What the spent amounts and the subsidies exceed the other side of the balance by. -/
def imbalance {M : Type*} [AddCommGroup M] (totals : Total → M) : M :=
  (totals .m_total_prevout_spent_amount + totals .m_total_subsidy) -
    (totals .m_total_new_outputs_ex_coinbase_amount + totals .m_total_coinbase_amount +
      totals .m_total_unspendable_amount)

/-- Count what is missing as unclaimed. -/
def settle : ChainStat G →+ ChainStat G where
  toFun stat := stat + (single .m_total_unspendable_amount (imbalance stat.1) +
    single .m_total_unspendables_unclaimed_rewards (imbalance stat.1))
  map_zero' := by
    simp [imbalance, single]
  map_add' := by
    intro first second
    have himbalance : imbalance (first + second).1 = imbalance first.1 + imbalance second.1 := by
      simp only [imbalance, Prod.fst_add, Pi.add_apply]
      ring
    have hsingle :
        ∀ total a b, (single total (a + b) : ChainStat G) = single total a + single total b := by
      intro total a b
      simp only [single, Pi.single_add, Prod.mk_add_mk, add_zero]
    rw [himbalance, hsingle, hsingle]
    abel

theorem settle_apply :
    settle stat = stat + (single .m_total_unspendable_amount (imbalance stat.1) +
      single .m_total_unspendables_unclaimed_rewards (imbalance stat.1)) := rfl

theorem imbalance_settle : imbalance (settle stat).1 = 0 := by
  rw [settle_apply]
  simp only [imbalance, single, Prod.fst_add, Pi.add_apply, Pi.single_apply, reduceCtorEq,
    if_false, if_true]
  ring

theorem settle_settle : settle (settle stat) = settle stat := by
  rw [settle_apply (settle stat), imbalance_settle]
  simp [single]

end

namespace RunningStats

variable {G : Type} [CommGroup G]

/-- The totals and the product of the running hash. -/
def stat (running : RunningStats G) : WrappedStat G :=
  (running.totals, Additive.ofMul (running.m_muhash.m_numerator / running.m_muhash.m_denominator))

theorem stat_add (running : RunningStats G) (total : Total) (amount : ℤ) :
    (running.add total (BitVec.ofInt 64 amount)).stat = running.stat + wrap
      (single total amount) := by
  rw [wrap_single]
  apply Prod.ext
  · exact update_add running.totals total _
  · exact (add_zero (stat running).2).symm

theorem stat_sub (running : RunningStats G) (total : Total) (amount : ℤ) :
    (running.sub total (BitVec.ofInt 64 amount)).stat = running.stat - wrap
      (single total amount) := by
  rw [wrap_single]
  apply Prod.ext
  · have hadd := update_add running.totals total (-BitVec.ofInt 64 amount)
    rw [← sub_eq_add_neg, Pi.single_neg, ← sub_eq_add_neg] at hadd
    exact hadd
  · exact (sub_zero (stat running).2).symm

variable (menv : MuHashEnv G)

section

variable (running : RunningStats G)

theorem stat_apply (outpoint : COutPoint) (coin : Coin) :
    stat { running with m_muhash := applyCoinHash menv running.m_muhash outpoint coin } =
      running.stat + wrap (0, .ofMul (menv.toNum3072 (txOutSer outpoint coin))) := by
  apply Prod.ext
  · exact (add_zero running.totals).symm
  show Additive.ofMul (running.m_muhash.m_numerator * _ / running.m_muhash.m_denominator) = _
  rw [mul_div_right_comm]
  rfl

theorem stat_remove (outpoint : COutPoint) (coin : Coin) :
    stat { running with m_muhash := removeCoinHash menv running.m_muhash outpoint coin } =
      running.stat - wrap (0, .ofMul (menv.toNum3072 (txOutSer outpoint coin))) := by
  apply Prod.ext
  · exact (sub_zero running.totals).symm
  show Additive.ofMul (running.m_muhash.m_numerator / (running.m_muhash.m_denominator * _)) = _
  rw [← div_div]
  rfl

theorem stat_finalize :
    stat { running with m_muhash := (running.m_muhash.finalize menv).2 } = running.stat := by
  apply Prod.ext
  · rfl
  show Additive.ofMul (running.m_muhash.m_numerator / running.m_muhash.m_denominator / 1) = _
  rw [div_one]
  rfl

theorem finalize_fst : (running.m_muhash.finalize menv).1 = menv.digest running.stat.2.toMul := rfl

end

/-- Numbers of the model are casts of integers. -/
theorem ofNat_eq_ofInt (n : Nat) : BitVec.ofNat 64 n = BitVec.ofInt 64 n := by simp

theorem one_eq_ofInt : (1 : BitVec 64) = BitVec.ofInt 64 1 := rfl

section

variable (running : RunningStats G)

section

variable (outpoint : COutPoint) (coin : Coin)

include outpoint coin

theorem stat_appendOutput :
    (running.appendOutput menv outpoint coin).stat = running.stat + wrap
      (outputStat menv outpoint coin) := by
  unfold appendOutput outputStat createdStat
  split
  · rw [stat_add, stat_add, zero_add, map_add, add_assoc]
  · simp only [ofNat_eq_ofInt, one_eq_ofInt, stat_add, stat_apply, coinStat, map_add]
    abel

theorem stat_appendPrevout :
    (running.appendPrevout menv outpoint coin).stat = running.stat + wrap
      (prevoutStat menv outpoint coin) := by
  simp only [appendPrevout, ofNat_eq_ofInt, one_eq_ofInt, stat_add, stat_sub,
    stat_remove, prevoutStat, coinStat, map_add, map_sub]
  abel

theorem stat_reverseOutput :
    (running.reverseOutput menv outpoint coin).stat =
      running.stat + unwrap (outputStat menv outpoint coin) := by
  unfold reverseOutput outputStat createdStat
  rw [add_unwrap]
  split
  · rw [stat_sub, stat_sub, zero_add, map_add, sub_sub]
  · simp only [ofNat_eq_ofInt, one_eq_ofInt, stat_sub, stat_remove, coinStat, map_add]
    abel

theorem stat_reversePrevout :
    (running.reversePrevout menv outpoint coin).stat =
      running.stat + unwrap (prevoutStat menv outpoint coin) := by
  rw [add_unwrap]
  simp only [reversePrevout, ofNat_eq_ofInt, one_eq_ofInt, stat_add, stat_sub,
    stat_apply, prevoutStat, coinStat, map_add, map_sub]
  abel

end

end

section

variable {running : RunningStats G} {stat : ChainStat G} (h : running.stat = wrap stat)
include h

theorem imbalance_totals : imbalance running.totals = BitVec.ofInt 64 (imbalance stat.1) := by
  have htotals : running.totals = (wrap stat).1 := congrArg Prod.fst h
  show _ = ((imbalance stat.1 : ℤ) : BitVec 64)
  simp only [htotals, imbalance, Int.cast_sub, Int.cast_add]
  rfl

/-- What is missing is counted as unclaimed. -/
theorem stat_appendUnclaimed : running.appendUnclaimed.stat = wrap (settle stat) := by
  show ((running.add _ (imbalance running.totals)).add _ (imbalance running.totals)).stat = _
  rw [imbalance_totals h, stat_add, stat_add, h, settle_apply, map_add, map_add, add_assoc]

/-- The other sign is subtracted. -/
theorem stat_reverseUnclaimed : running.reverseUnclaimed.stat = wrap (settle stat) := by
  have hamount : (running.totals .m_total_new_outputs_ex_coinbase_amount +
        running.totals .m_total_coinbase_amount + running.totals .m_total_unspendable_amount) -
      (running.totals .m_total_prevout_spent_amount + running.totals .m_total_subsidy) =
        BitVec.ofInt 64 (-imbalance stat.1) := by
    rw [← neg_sub, BitVec.ofInt_neg, ← imbalance_totals h]
    rfl
  have hneg : ∀ total, (single total (-imbalance stat.1) : ChainStat G) = -single total
      (imbalance stat.1) := by
    intro total
    simp only [single, Pi.single_neg, Prod.neg_mk, neg_zero]
  unfold reverseUnclaimed
  rw [hamount, stat_sub, stat_sub, h, settle_apply, hneg, hneg, map_add, map_add, map_neg, map_neg,
    sub_neg_eq_add, sub_neg_eq_add, add_assoc]

end

end RunningStats

/-! ## The loops -/

/-- All outputs of a transaction as coins, from index `j` on. -/
def outputsFrom (txid : Uint256) (nHeight : Nat) (fCoinBase : Bool) :
    List CTxOut → Nat → List (COutPoint × Coin)
  | [], _ => []
  | out :: rest, j => (outPointAt txid j, Coin.ofTxOut out nHeight fCoinBase) ::
      outputsFrom txid nHeight fCoinBase rest (j + 1)

section

variable {G : Type} [CommGroup G] (menv : MuHashEnv G)

variable (env : ChainEnv)

/-- What the outputs and the inputs of a transaction add. -/
def txStat (nHeight : Nat) (tx : CTransaction) (vprevout : List Coin) : ChainStat G :=
  ((outputsFrom (env.txid tx) nHeight tx.isCoinBase tx.vout 0).map fun entry =>
    outputStat menv entry.1 entry.2).sum +
  ((tx.spends.zip vprevout).map fun entry => prevoutStat menv entry.1 entry.2).sum

/-- What transactions with their undo data add. -/
def txsStat (nHeight : Nat) (txs : List CTransaction) (undos : List CTxUndo) : ChainStat G :=
  ((txs.zip undos).map fun pair => txStat menv env nHeight pair.1 pair.2.vprevout).sum

theorem txsStat_cons (nHeight : Nat) (tx : CTransaction) (rest : List CTransaction)
    (txundo : CTxUndo) (later : List CTxUndo) :
    txsStat menv env nHeight (tx :: rest) (txundo :: later) =
      txStat menv env nHeight tx txundo.vprevout + txsStat menv env nHeight rest later := rfl

/-- What the transactions of a block add. -/
def blockTxsStat (nHeight : Nat) (block : CBlock) (blockundo : CBlockUndo) : ChainStat G :=
  match block.vtx with
  | [] => 0
  | coinbase :: rest =>
    txStat menv env nHeight coinbase [] + txsStat menv env nHeight rest blockundo.vtxundo

end

section

/-! A state is measured in a group, and each step adds the image of what it is for. -/

variable {G S M : Type} [CommGroup G] [AddCommGroup M] {menv : MuHashEnv G} (measure : S → M)
  (φ : ChainStat G →+ M) {onOutput onPrevout : COutPoint → Coin → S → S} {env : ChainEnv}
    {nHeight : Nat}
  (houtput : ∀ outpoint coin state,
    measure (onOutput outpoint coin state) = measure state + φ (outputStat menv outpoint coin))
  (hprevout : ∀ outpoint coin state,
    measure (onPrevout outpoint coin state) = measure state + φ (prevoutStat menv outpoint coin))

include houtput in
theorem measure_forOutputs (txid : Uint256) (fCoinBase : Bool) (vout : List CTxOut)
    (j : Nat) (state : S) :
    measure (forOutputs onOutput txid nHeight fCoinBase vout j state) = measure state +
      φ ((outputsFrom txid nHeight fCoinBase vout j).map fun entry => outputStat menv entry.1
        entry.2).sum := by
  induction vout generalizing j state with
  | nil => rw [forOutputs, outputsFrom, map_nil, sum_nil, map_zero, add_zero]
  | cons out rest ih =>
    rw [forOutputs, ih, houtput, outputsFrom, map_cons, sum_cons, map_add, add_assoc]

include hprevout in
theorem measure_forPrevouts {coins : List Coin} {vin : List CTxIn}
    (hlength : coins.length = vin.length) (state : S) :
    ∃ state', forPrevouts onPrevout coins vin state = .ok state' ∧ measure state' = measure state +
      φ (((vin.map (·.prevout)).zip coins).map fun entry => prevoutStat menv entry.1
        entry.2).sum := by
  induction coins generalizing vin state with
  | nil =>
    refine ⟨state, by rw [forPrevouts], ?_⟩
    rw [zip_nil_right, map_nil, sum_nil, map_zero, add_zero]
  | cons coin coins ih =>
    cases vin with
    | nil => cases hlength
    | cons txin vin =>
      obtain ⟨state', hrest, hmeasure⟩ :=
        ih (Nat.succ.inj hlength) (onPrevout txin.prevout coin state)
      refine ⟨state', by rw [forPrevouts, hrest], ?_⟩
      rw [hmeasure, hprevout, map_cons, zip_cons_cons, map_cons, sum_cons, map_add, add_assoc]

variable {fees : Int} {before after : UtxoMap} {blockundo : CBlockUndo}
include houtput hprevout

/-- The transactions after the coinbase. -/
theorem AppliesAll.measure_forTxs {txs : List CTransaction} {undos : List CTxUndo}
    (h : AppliesAll env nHeight txs undos fees before after) (i : Nat)
    (hundos : blockundo.vtxundo.drop i = undos) (state : S) :
    ∃ state', forTxs onOutput onPrevout env nHeight blockundo txs (i + 1) state = .ok state' ∧
      measure state' = measure state + φ (txsStat menv env nHeight txs undos) := by
  induction h generalizing i state with
  | nil map =>
    refine ⟨state, by rw [forTxs], ?_⟩
    rw [txsStat, zip_nil_left, map_nil, sum_nil, map_zero, add_zero]
  | @cons tx rest txundo later fees map after hcoinbase head tail ih =>
    have hspends := CTransaction.spends_of_not_isCoinBase hcoinbase
    have hlength : txundo.vprevout.length = tx.vin.length := by
      rw [← head.length_eq, hspends, length_map]
    have hat : blockundo.vtxundo[i]? = some txundo := by
      rw [← head?_drop, hundos, head?_cons]
    have hlater : blockundo.vtxundo.drop (i + 1) = later := by
      rw [← tail_drop, hundos, tail_cons]
    have hcreated :=
      @measure_forOutputs G S M _ _ menv measure φ onOutput nHeight houtput (env.txid tx)
      tx.isCoinBase tx.vout 0 state
    obtain ⟨spent, hspent, hmeasure⟩ := measure_forPrevouts measure φ hprevout hlength
      (forOutputs onOutput (env.txid tx) nHeight tx.isCoinBase tx.vout 0 state)
    obtain ⟨state', hrest, hstate⟩ := ih (i + 1) hlater spent
    refine ⟨state', ?_, ?_⟩
    · simp only [forTxs, forTx, hcoinbase, hat]
      rw [hcoinbase] at hspent
      rw [hspent]
      exact hrest
    · rw [hstate, hmeasure, hcreated, txsStat_cons, map_add, txStat, map_add, hspends]
      simp only [add_assoc]

/-- All transactions of a block. -/
theorem CBlock.Applies.measure_forTxs {block : CBlock} {coinbase : CTransaction}
    {rest : List CTransaction}
    (h : block.Applies env nHeight blockundo coinbase rest fees before after) (state : S) :
    ∃ state', forTxs onOutput onPrevout env nHeight blockundo block.vtx 0 state = .ok state' ∧
      measure state' = measure state + φ (blockTxsStat menv env nHeight block blockundo) := by
  have hcreated := @measure_forOutputs G S M _ _ menv measure φ onOutput nHeight houtput
    (env.txid coinbase) coinbase.isCoinBase coinbase.vout 0 state
  obtain ⟨state', hrest, hmeasure⟩ := h.spends.measure_forTxs measure φ houtput hprevout 0 rfl
    (forOutputs onOutput (env.txid coinbase) nHeight coinbase.isCoinBase coinbase.vout 0 state)
  refine ⟨state', ?_, ?_⟩
  · rw [h.vtx, forTxs, forTx, if_pos h.isCoinBase]
    exact hrest
  rw [hmeasure, hcreated, blockTxsStat, h.vtx]
  simp only [txStat, CTransaction.spends_of_isCoinBase h.isCoinBase, zip_nil_left, map_nil,
    sum_nil, add_zero, map_add, add_assoc]

end

section

variable {G : Type} [CommGroup G] {env : ChainEnv} {nHeight : Nat} {block : CBlock}
  {blockundo : CBlockUndo}
  {coinbase : CTransaction} {rest : List CTransaction} {fees : Int} {before after : UtxoMap}

section

variable (h : block.Applies env nHeight blockundo coinbase rest fees before after)
  (menv : MuHashEnv G) (running : RunningStats G)

include h menv running

/-- `CustomAppend` adds what the transactions are for. -/
theorem CBlock.Applies.stat_append :
    ∃ running', forTxs (RunningStats.appendOutput menv) (RunningStats.appendPrevout menv) env
        nHeight blockundo block.vtx 0 running = .ok running' ∧
      running'.stat = running.stat + wrap (blockTxsStat menv env nHeight block blockundo) := by
  refine h.measure_forTxs (M := WrappedStat G) stat wrap ?_ ?_ running
  · exact fun outpoint coin state => stat_appendOutput menv state outpoint coin
  · exact fun outpoint coin state => stat_appendPrevout menv state outpoint coin

/-- `ReverseBlock` takes it away. -/
theorem CBlock.Applies.stat_reverse :
    ∃ running', reverseTxs env menv nHeight blockundo block.vtx 0 running = .ok running' ∧
      running'.stat = running.stat - wrap (blockTxsStat menv env nHeight block blockundo) := by
  rw [← add_unwrap]
  refine h.measure_forTxs (M := WrappedStat G) stat unwrap ?_ ?_ running
  · exact fun outpoint coin state => stat_reverseOutput menv state outpoint coin
  · exact fun outpoint coin state => stat_reversePrevout menv state outpoint coin

end

end

end BtcSharp
