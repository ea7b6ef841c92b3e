/-
# No inflation

A transaction takes its fee out of the coin set, and an accepted coinbase puts at
most the fees and the subsidy of its height back. So the coins of a view that
`ConnectBlock` built up from nothing are worth at most the subsidies of the connected
heights, and none of the sums formed on the way leaves the range of its type.
-/

import BtcSharp.Coins.SanityCheck
import BtcSharp.Validation.Undoing
import Mathlib.Algebra.BigOperators.Intervals
import Mathlib.Algebra.Order.BigOperators.Group.Finset

namespace BtcSharp

open Math List

/-! ## The value of a coin set -/

/-- The value of what a map holds at an outpoint. -/
def coinValue (coin : Option Coin) : Int := (coin.map (·.out.nValue)).getD 0

/-- The sum of the values of all unspent coins. -/
noncomputable def UtxoMap.totalValue (map : UtxoMap) : Int := total coinValue map

variable {map : UtxoMap} {tx : CTransaction} {env : ChainEnv} {block : CBlock}
  {pindex : CBlockIndex} {start view : CacheView}

theorem UtxoMap.InMoneyRange.coinValue_nonneg (h : map.InMoneyRange)
    (outpoint : COutPoint) : 0 ≤ coinValue (map outpoint) := by
  cases hcoin : map outpoint with
  | none => exact le_refl 0
  | some coin => exact (moneyRange_iff.mp (h outpoint coin hcoin)).1

theorem UtxoMap.InMoneyRange.redo (h : map.InMoneyRange) (htx : tx.Checked) (env : ChainEnv)
    (nHeight : Nat) : UtxoMap.InMoneyRange (applyWrites map (tx.redoLog env nHeight)) := by
  apply applyWrites_forall h
  intro outpoint coin hmem
  obtain ⟨-, txout, -, -, -, htxout, -, rfl⟩ :=
    mem_outputCoins (CTransaction.mem_creates_of_redoLog hmem)
  exact htx.values txout htxout

/-- Outputs that are not stored only lower the value created. -/
theorem sum_outputCoins_le {txid : Uint256} {nHeight : Nat} {fCoinBase : Bool}
    {vout : List CTxOut} (hvalues : ∀ txout ∈ vout, moneyRange txout.nValue = true) (i : Nat) :
    ((outputCoins txid nHeight fCoinBase vout i).map (·.2.out.nValue)).sum ≤
    (vout.map (·.nValue)).sum := by
  induction vout generalizing i with
  | nil => exact le_refl _
  | cons txout rest ih =>
    have hhead := (moneyRange_iff.mp (hvalues txout mem_cons_self)).1
    have hrest := ih (fun other hother => hvalues other (mem_cons_of_mem _ hother)) (i + 1)
    rw [outputCoins, map_cons, sum_cons]
    split
    · omega
    · exact Int.add_le_add_left hrest txout.nValue

/-- Creating the outputs adds at most their value. -/
theorem totalValue_bindLog_le (htx : tx.Checked) (hmap : map.InMoneyRange) (env : ChainEnv)
    (nHeight : Nat) :
    UtxoMap.totalValue (applyWrites map (bindLog (tx.creates env nHeight))) ≤ map.totalValue +
    tx.valueOut := by
  have hnodup : ((bindLog (tx.creates env nHeight)).map Prod.fst).Nodup := by
    rw [map_fst_bindLog]
    exact nodup_outputCoins htx.length_vout
  have hadd := total_applyWrites coinValue hnodup map
  have hold :
    0 ≤ ((bindLog (tx.creates env nHeight)).map fun entry => coinValue (map entry.1)).sum :=
    List.sum_nonneg (forall_mem_map.mpr fun entry _ => hmap.coinValue_nonneg entry.1)
  have hsum : ((bindLog (tx.creates env nHeight)).map fun entry => coinValue entry.2).sum =
      ((tx.creates env nHeight).map (·.2.out.nValue)).sum := by
    rw [bindLog, map_map]
    rfl
  have hcreated : ((tx.creates env nHeight).map (·.2.out.nValue)).sum ≤ tx.valueOut :=
    sum_outputCoins_le htx.values 0
  unfold UtxoMap.totalValue
  omega

/-- A coinbase adds at most the value of its outputs. -/
theorem totalValue_redo_coinbase (htx : tx.Checked) (hcoinbase : tx.isCoinBase = true)
    (hmap : map.InMoneyRange) (env : ChainEnv) (nHeight : Nat) :
    UtxoMap.totalValue (applyWrites map (tx.redoLog env nHeight)) ≤ map.totalValue +
    tx.valueOut := by
  rw [CTransaction.redoLog, CTransaction.spends_of_isCoinBase hcoinbase]
  exact totalValue_bindLog_le htx hmap env nHeight

/-- Another transaction takes its fee out. -/
theorem totalValue_redo_spends (htx : tx.Checked) (hcoinbase : tx.isCoinBase = false)
    (hmap : map.InMoneyRange) (env : ChainEnv) (nHeight : Nat) :
    UtxoMap.totalValue (applyWrites map (tx.redoLog env nHeight)) + tx.fee map ≤
      map.totalValue := by
  have hspends := CTransaction.spends_of_not_isCoinBase hcoinbase
  have hnodup : ((unbindLog tx.spends).map Prod.fst).Nodup := by
    rw [map_fst_unbindLog]
    exact htx.nodup_spends
  have hspent := total_applyWrites coinValue hnodup map
  have hin : ((unbindLog tx.spends).map fun entry => coinValue (map entry.1)).sum =
      tx.valueIn map := by
    rw [unbindLog, map_map, hspends, map_map]
    rfl
  have hnone : ((unbindLog tx.spends).map fun entry => coinValue entry.2).sum = 0 := by
    rw [unbindLog, map_map]
    exact sum_eq_zero (by simp [coinValue])
  have hrange : UtxoMap.InMoneyRange (applyWrites map (unbindLog tx.spends)) :=
    applyWrites_forall hmap fun outpoint coin hmem => by simp [unbindLog] at hmem
  have hadd := totalValue_bindLog_le htx hrange env nHeight
  rw [CTransaction.redoLog, applyWrites_append, CTransaction.fee]
  rw [hin, hnone] at hspent
  have hmid : UtxoMap.totalValue (applyWrites map (unbindLog tx.spends)) =
      map.totalValue - tx.valueIn map + 0 := hspent
  omega

variable {nHeight : Nat} {fees : Int} {before after : UtxoMap} {view' : CacheView}

/-- Transactions take their fees out and keep amounts in range. -/
theorem AppliesAll.totalValue_le {txs : List CTransaction} {undos : List CTxUndo}
    (h : AppliesAll env nHeight txs undos fees before after) (hrange : before.InMoneyRange) :
    after.InMoneyRange ∧ after.totalValue + fees ≤ before.totalValue := by
  induction h with
  | nil map => exact ⟨hrange, by omega⟩
  | cons hcoinbase happlies hall ih =>
    obtain ⟨hafter, hvalue⟩ := ih (hrange.redo happlies.checked env nHeight)
    have hhead := totalValue_redo_spends happlies.checked hcoinbase hrange env nHeight
    exact ⟨hafter, by omega⟩

/-- A block adds at most the subsidy of its height. -/
theorem CBlock.Applies.totalValue_le {blockundo : CBlockUndo} {coinbase : CTransaction}
    {rest : List CTransaction}
    (h : block.Applies env nHeight blockundo coinbase rest fees before after)
    (hrange : before.InMoneyRange) :
    after.InMoneyRange ∧
    after.totalValue ≤ before.totalValue + getBlockSubsidy nHeight env.params := by
  obtain ⟨hafter, hvalue⟩ := h.spends.totalValue_le (hrange.redo h.checked env nHeight)
  have hfirst := totalValue_redo_coinbase h.checked h.isCoinBase hrange env nHeight
  have hreward := h.reward
  exact ⟨hafter, by omega⟩

/-! ## No sum overflows -/

theorem BlockError.ofTxError_ne_overflow {err : TxError} (h : err ≠ .overflow) :
    BlockError.ofTxError err ≠ .overflow := by
  cases err <;> simp_all [BlockError.ofTxError]

theorem checkTransactions_ne_overflow (txs : List CTransaction) :
    checkTransactions txs ≠ .error .overflow := by
  induction txs with
  | nil => simp [checkTransactions]
  | cons tx rest ih =>
    rw [checkTransactions]
    split
    · next err herr =>
      have htx := checkTransaction_ne_overflow tx
      rw [herr] at htx
      simpa using BlockError.ofTxError_ne_overflow (fun heq => htx (by rw [heq]))
    · exact ih

theorem checkBlock_ne_overflow (env : ChainEnv) (block : CBlock) :
    checkBlock env block ≠ .error .overflow := by
  unfold checkBlock
  split
  · simp
  split
  · simp
  split
  · simp
  split
  · simp
  split
  · next herr =>
    have htxs := checkTransactions_ne_overflow block.vtx
    rwa [herr] at htxs
  · split <;> simp

theorem checkSpends_ne_overflow {nFees : Int} (h : CacheView.Steps start view map)
    (htx : tx.Checked) (hrange : map.InMoneyRange) (hfees : moneyRange nFees = true) :
    checkSpends env pindex tx nFees view ≠ .error .overflow := by
  unfold checkSpends
  split
  · next err herr =>
    have hinputs := @checkTxInputs_ne_overflow tx pindex.nHeight _ _ view h htx hrange
    rw [herr] at hinputs
    simpa using BlockError.ofTxError_ne_overflow (fun heq => hinputs (by rw [heq]))
  next txfee mid hinputs =>
  obtain ⟨-, -, -, hfee⟩ := checkTxInputs_spec h htx hinputs
  rw [addAmount_of_moneyRange hfees hfee]
  simp only
  split
  · simp
  · split <;> simp

theorem connectTx_ne_overflow {i : Nat} {state : ConnectState}
    (h : CacheView.Steps start state.view map)
    (htx : tx.Checked) (hrange : map.InMoneyRange) (hfees : moneyRange state.nFees = true) :
    connectTx env pindex i tx state ≠ .error .overflow := by
  unfold connectTx
  split
  · next err herr =>
    split at herr
    · cases herr
    have hspends := @checkSpends_ne_overflow _ tx env pindex _ state.view state.nFees h
      htx hrange hfees
    rw [herr] at hspends
    simpa using hspends
  simp only
  split
  · simp
  split
  · simp
  · split <;> simp

theorem connectTxs_ne_overflow {txs : List CTransaction}
    (htxs : ∀ tx ∈ txs, tx.Checked ∧ tx.isCoinBase = false ∧
      ∀ entry ∈ tx.creates env pindex.nHeight, start.Shows entry.1) :
    ∀ {i : Nat} {state : ConnectState} {map : UtxoMap}, CacheView.Steps start state.view map →
      map.InMoneyRange → moneyRange state.nFees = true →
      connectTxs env pindex txs i state ≠ .error .overflow := by
  induction txs with
  | nil =>
    intro i state map _ _ _
    simp [connectTxs]
  | cons tx rest ih =>
    intro i state map h hrange hfees
    rw [forall_mem_cons] at htxs
    obtain ⟨⟨htx, hcoinbase, hshows⟩, hlater⟩ := htxs
    rw [connectTxs]
    split
    · next err herr =>
      have hhead := @connectTx_ne_overflow _ tx env pindex _ i state h htx hrange hfees
      rwa [herr] at hhead
    next mid hmid =>
    obtain ⟨_, -, hsteps, -, hmidFees, -⟩ := connectTx_spends h htx hcoinbase hshows hmid
    exact ih hlater hsteps (hrange.redo htx env pindex.nHeight) hmidFees

/-- The subsidy is an amount of at most fifty coins. -/
theorem getBlockSubsidy_range (nHeight : Nat) (params : ChainParams) :
    0 ≤ getBlockSubsidy nHeight params ∧ getBlockSubsidy nHeight params ≤ 50 * COIN := by
  unfold getBlockSubsidy
  simp only
  split
  · decide
  have hpow : (0 : Int) < 2 ^ (nHeight / params.nSubsidyHalvingInterval) :=
    Int.pow_pos (by decide)
  exact ⟨Int.ediv_nonneg (by decide) (le_of_lt hpow), Int.ediv_le_self _ (by decide)⟩

/-- The outputs of a block are searched or shown. -/
def OutputsKnown (env : ChainEnv) (block : CBlock) (pindex : CBlockIndex) (view : CacheView) :
    Prop :=
  enforcesBIP30 env.params pindex = true ∨
    ∀ tx ∈ block.vtx, ∀ entry ∈ tx.creates env pindex.nHeight, view.Shows entry.1

theorem connectBody_ne_overflow (hwf : view.view.WellFormed) (hblock : block.Checked)
    (hrange : UtxoMap.InMoneyRange view.view.utxo) (hknown : OutputsKnown env block pindex view) :
    connectBody env block pindex view ≠ .error .overflow := by
  obtain ⟨coinbase, rest, hvtx, hcoinbase, hrest⟩ := hblock.first
  have hchecked := hblock.txs coinbase (by simp [hvtx])
  unfold connectBody
  split
  · simp
  obtain ⟨searched, hsearched, hsteps, hnone⟩ := exists_searched env block pindex hwf
  simp only [← hsearched]
  split
  · simp
  next hfound =>
  have hshows : ∀ tx ∈ block.vtx, ∀ entry ∈ tx.creates env pindex.nHeight, view.Shows entry.1 := by
    rcases hknown with henforce | hshows
    · exact fun tx htx entry hentry => CacheView.shows_of_utxo_eq_none
        (hnone (Bool.eq_false_of_not_eq_true hfound) henforce tx htx entry hentry)
    · exact hshows
  have hhead := @connectTx_ne_overflow _ coinbase env pindex _ 0 { view := searched.2 }
    hsteps hchecked hrange rfl
  rw [hvtx, connectTxs]
  cases hfirst : connectTx env pindex 0 coinbase { view := searched.2 } with
  | error err =>
    rw [hfirst] at hhead
    simpa using hhead
  | ok first =>
    obtain ⟨hfirstSteps, hfees, -⟩ := connectTx_coinbase hsteps hchecked hcoinbase hfirst
    have hzero : moneyRange first.nFees = true := by rw [hfees]; rfl
    have hall : ∀ tx ∈ rest, tx.Checked ∧ tx.isCoinBase = false ∧
        ∀ entry ∈ tx.creates env pindex.nHeight, view.Shows entry.1 :=
      fun tx htx => ⟨hblock.txs tx (by simp [hvtx, htx]), hrest tx htx,
        hshows tx (by simp [hvtx, htx])⟩
    have hloop := @connectTxs_ne_overflow env pindex _ rest hall (0 + 1) first _
      hfirstSteps (hrange.redo hchecked env pindex.nHeight) hzero
    simp only
    cases hstate : connectTxs env pindex rest (0 + 1) first with
    | error err =>
      rw [hstate] at hloop
      simpa using hloop
    | ok state =>
      obtain ⟨-, -, -, -, -, -, hfeesRange, -⟩ :=
        connectTxs_spec hall Nat.one_pos hfirstSteps hstate
      have hsubsidy := getBlockSubsidy_range pindex.nHeight env.params
      have hmax : (50 : Int) * COIN ≤ MAX_MONEY := by decide
      have hadd := addAmount_of_moneyRange (hfeesRange hzero)
        (moneyRange_iff.mpr ⟨hsubsidy.1, hsubsidy.2.trans hmax⟩)
      simp only [hadd, head?_cons, Option.map_some, Option.getD_some, getValueOut_eq hchecked]
      split <;> simp

/-- `ConnectBlock` never overflows on amounts in range. -/
theorem connectBlock_ne_overflow (hwf : view.view.WellFormed)
    (hrange : UtxoMap.InMoneyRange view.view.utxo) (hknown : OutputsKnown env block pindex view) :
    connectBlock env block pindex view ≠ .error .overflow := by
  unfold connectBlock
  split
  · simp
  split
  · next herr =>
    have hcheck := checkBlock_ne_overflow env block
    rw [herr] at hcheck
    simpa using hcheck
  next hcheck =>
  obtain ⟨-, hasked⟩ := CacheView.getBestBlock_steps hwf
  simp only
  split
  · simp
  split
  · simp
  split
  · next herr =>
    rw [← hasked.utxo_eq] at hrange
    have hbody := @connectBody_ne_overflow env block pindex _ hasked.wellFormed
      (checkBlock_checked hcheck) hrange (hknown.imp_right fun hshows tx htx entry hentry =>
        hasked.shows_of _ (hshows tx htx entry hentry))
    rw [herr] at hbody
    simpa using hbody
  · simp

/-! ## Chains -/

/-- The views that `ConnectBlock` builds up from one without coins, connecting the blocks of a chain
one after another from the genesis block on. The chain is listed newest first. In between, calls are
made that change no coin, such as a flush, or blocks are connected in a new cache over the view,
which is left when it is empty. As long as the view is whole, nothing of this has happened, and the
outputs of the next block are known. -/
inductive ConnectedChain (env : ChainEnv) : Bool → CBlockIndex → CacheView → Prop
  | start {view : CacheView} (hwf : view.view.WellFormed)
      (hview : ∀ outpoint, view.view.utxo outpoint = none)
      (hbase : ∀ outpoint, view.base.utxo outpoint = none) : ConnectedChain env true [] view
  | connect {whole : Bool} {pindex : CBlockIndex} {view view' : CacheView} {block : CBlock}
      {hash : Uint256} {blockundo : Option CBlockUndo}
      (chain : ConnectedChain env whole pindex view)
      (hknown : whole = true ∨ OutputsKnown env block (hash :: pindex) view)
      (hconnect : connectBlock env block (hash :: pindex) view = .ok (blockundo, view')) :
      ConnectedChain env whole (hash :: pindex) view'
  | call {whole : Bool} {pindex : CBlockIndex} {view view' : CacheView} {op : CoinsView.Op}
      {result : CoinsView.Result} (chain : ConnectedChain env whole pindex view)
      (hready : op.Ready view) (hmap : ∀ map, op.onMap map = map)
      (hrun : op.run view = .ok (result, view')) : ConnectedChain env false pindex view'
  | child {whole : Bool} {pindex : CBlockIndex} {view : CacheView}
      (chain : ConnectedChain env whole pindex view) :
      ConnectedChain env false pindex ⟨{}, view.view⟩
  | parent {whole : Bool} {pindex : CBlockIndex} {top parent : CCoinsViewCache} {base : CoinsView}
      (chain : ConnectedChain env whole pindex ⟨top, .cache parent base⟩)
      (hempty : ∀ outpoint, top.cacheCoins outpoint = none) :
      ConnectedChain env false pindex ⟨parent, base⟩

/-- What holds of the view at every point of a chain. -/
structure ConnectedChain.Sound (env : ChainEnv) (whole : Bool) (pindex : CBlockIndex)
    (view : CacheView) : Prop where
  wellFormed : view.view.WellFormed
  shows_all : whole = true → ∀ outpoint, view.Shows outpoint
  inMoneyRange : UtxoMap.InMoneyRange view.view.utxo
  totalValue_le : UtxoMap.totalValue view.view.utxo ≤
    ∑ height ∈ Finset.Icc 1 pindex.nHeight, getBlockSubsidy height env.params

section Sound

variable {whole : Bool} (h : ConnectedChain.Sound env whole pindex view)

include h

theorem ConnectedChain.Sound.known {hash : Uint256}
    (hknown : whole = true ∨ OutputsKnown env block (hash :: pindex) view) :
    OutputsKnown env block (hash :: pindex) view :=
  hknown.elim (fun hwhole => .inr fun _ _ entry _ => h.shows_all hwhole entry.1) id

/-- Another view of the same coins is sound. -/
theorem ConnectedChain.Sound.of_utxo_eq (hwf : view'.view.WellFormed)
    (hutxo : view'.view.utxo = view.view.utxo) : Sound env false pindex view' :=
  ⟨hwf, fun hwhole => absurd hwhole Bool.false_ne_true, hutxo ▸ h.inMoneyRange,
    hutxo ▸ h.totalValue_le⟩

end Sound

/-- The genesis block leaves the view without coins. -/
theorem connectBlock_genesis (hwf : view.view.WellFormed)
    (hconnect : connectBlock env block pindex view = .ok (none, view')) :
    CacheView.Steps view view' view.view.utxo := by
  obtain ⟨-, hasked⟩ := CacheView.getBestBlock_steps hwf
  unfold connectBlock at hconnect
  split at hconnect
  · cases hconnect
  split at hconnect
  · cases hconnect
  simp only at hconnect
  split at hconnect
  · cases hconnect
  split at hconnect
  · obtain ⟨-, rfl⟩ := Prod.mk.inj (Except.ok.inj hconnect)
    exact CacheView.setBestBlock_steps hasked _
  split at hconnect <;> cases hconnect

/-- One block keeps the view sound. The height is the number of blocks before, and the first block
adds nothing. -/
theorem ConnectedChain.Sound.connect {whole : Bool} {hash : Uint256} {blockundo : Option CBlockUndo}
    (h : Sound env whole pindex view) (hknown : OutputsKnown env block (hash :: pindex) view)
    (hconnect : connectBlock env block (hash :: pindex) view = .ok (blockundo, view')) :
    Sound env whole (hash :: pindex) view' := by
  have hheight : CBlockIndex.nHeight (hash :: pindex) = pindex.length := rfl
  have hbound : ∑ height ∈ Finset.Icc 1 pindex.nHeight, getBlockSubsidy height env.params ≤
      ∑ height ∈ Finset.Icc 1 pindex.length, getBlockSubsidy height env.params := by
    apply Finset.sum_le_sum_of_subset_of_nonneg
    · exact Finset.Icc_subset_Icc_right (Nat.sub_le _ _)
    · exact fun height _ _ => (getBlockSubsidy_range height env.params).1
  cases blockundo with
  | none =>
    have hsteps := connectBlock_genesis h.wellFormed hconnect
    refine ⟨hsteps.wellFormed,
      fun hwhole outpoint => hsteps.shows_of _ (h.shows_all hwhole outpoint), ?_, ?_⟩
    · rw [hsteps.utxo_eq]
      exact h.inMoneyRange
    · rw [hsteps.utxo_eq, hheight]
      exact h.totalValue_le.trans hbound
  | some blockundo =>
    obtain ⟨-, hpos, -, _, _, _, _, happlies, hsteps, -⟩ :=
      connectBlock_spec h.wellFormed hknown hconnect
    obtain ⟨hrange, hvalue⟩ := happlies.totalValue_le h.inMoneyRange
    refine ⟨hsteps.wellFormed,
      fun hwhole outpoint => hsteps.shows_of _ (h.shows_all hwhole outpoint), ?_, ?_⟩
    · rw [hsteps.utxo_eq]
      exact hrange
    have hprev := h.totalValue_le
    rw [hheight] at hpos hvalue
    have hlast : ∑ height ∈ Finset.Icc 1 pindex.length, getBlockSubsidy height env.params =
        ∑ height ∈ Finset.Icc 1 pindex.nHeight, getBlockSubsidy height env.params +
          getBlockSubsidy pindex.length env.params := by
      obtain ⟨_, hn⟩ := Nat.exists_eq_succ_of_ne_zero (Nat.pos_iff_ne_zero.mp hpos)
      rw [CBlockIndex.nHeight, hn, Nat.succ_sub_one, Nat.succ_eq_add_one,
        Finset.sum_Icc_succ_top (by omega)]
    rw [hsteps.utxo_eq, hheight, hlast]
    omega

/-- The whole chain. -/
theorem ConnectedChain.sound {whole : Bool} (h : ConnectedChain env whole pindex view) :
    Sound env whole pindex view := by
  induction h with
  | @start view hwf hview hbase =>
    refine ⟨hwf, fun _ outpoint _ => hbase outpoint, ?_, ?_⟩
    · intro outpoint coin hcoin
      rw [hview outpoint] at hcoin
      cases hcoin
    have hzero : UtxoMap.totalValue view.view.utxo = 0 := by
      apply Finset.sum_eq_zero
      intro outpoint _
      rw [hview outpoint]
      rfl
    rw [hzero]
    exact Finset.sum_nonneg fun height _ => (getBlockSubsidy_range height env.params).1
  | connect chain hknown hconnect ih => exact ih.connect (ih.known hknown) hconnect
  | @call _ _ view _ op _ chain hready hmap hrun ih =>
    obtain ⟨_, _, hrun', heffect⟩ := op.run_effect ih.wellFormed hready
    obtain ⟨-, rfl⟩ := Prod.mk.inj (Except.ok.inj (hrun.symm.trans hrun'))
    exact ih.of_utxo_eq heffect.wellFormed (heffect.utxo_eq.trans (hmap _))
  | child chain ih => exact ih.of_utxo_eq ⟨ih.wellFormed, nofun, .nil, by simp⟩ rfl
  | parent chain hempty ih =>
    refine ih.of_utxo_eq ih.wellFormed.1 (funext fun outpoint => ?_)
    exact (CCoinsViewCache.Coherent.onto_of_none (hempty outpoint)).symm

/-- No inflation. At every point of a chain the unspent coins are worth at most the
subsidies of the connected heights, each of them is an amount of money, and no sum
that connecting any further block forms overflows. -/
theorem connectedChain_no_inflation {env : ChainEnv} {whole : Bool} {pindex : CBlockIndex}
    {view : CacheView} (hchain : ConnectedChain env whole pindex view) :
    UtxoMap.totalValue view.view.utxo ≤
        ∑ height ∈ Finset.Icc 1 pindex.nHeight, getBlockSubsidy height env.params ∧
      (∀ outpoint coin, view.view.utxo outpoint = some coin →
        0 ≤ coin.out.nValue ∧ coin.out.nValue ≤ MAX_MONEY) ∧
      ∀ (block : CBlock) (hash : Uint256),
        whole = true ∨ OutputsKnown env block (hash :: pindex) view →
        connectBlock env block (hash :: pindex) view ≠ .error .overflow := by
  have hsound := hchain.sound
  refine ⟨hsound.totalValue_le, ?_, ?_⟩
  · intro outpoint coin hcoin
    exact moneyRange_iff.mp (hsound.inMoneyRange outpoint coin hcoin)
  · intro block hash hknown
    exact connectBlock_ne_overflow hsound.wellFormed hsound.inMoneyRange (hsound.known hknown)

/-! ## A chain with a payment -/

def emptyView : CacheView := ⟨{}, .db {}⟩

theorem emptyView_wellFormed : emptyView.view.WellFormed :=
  CoinsView.IsFresh.wellFormed ⟨fun _ => rfl, rfl, nofun⟩

/-- A block is connected in a new cache, which is flushed into the view. -/
def connectFlushed (pindex : CBlockIndex) (view : CacheView) (block : CBlock) : Option CacheView :=
  match connectBlock sampleEnv block pindex ⟨{}, view.view⟩ with
  | .ok (_, ⟨child, .cache parent base⟩) =>
    match CacheView.flush ⟨child, .cache parent base⟩ with
    | .ok ⟨_, .cache parent base⟩ => some ⟨parent, base⟩
    | _ => none
  | _ => none

/-- So are blocks one after another, if their outputs are searched. -/
def connectAll : CBlockIndex → CacheView → List CBlock → Option (CBlockIndex × CacheView)
  | pindex, view, [] => some (pindex, view)
  | pindex, view, block :: rest =>
    if enforcesBIP30 sampleEnv.params (sampleEnv.blockHash block :: pindex) then
      (connectFlushed (sampleEnv.blockHash block :: pindex) view block).bind fun view =>
        connectAll (sampleEnv.blockHash block :: pindex) view rest
    else none

theorem flush_empty (h : view.flush = .ok view') (outpoint : COutPoint) :
    view'.top.cacheCoins outpoint = none := by
  unfold CacheView.flush at h
  split at h <;> cases h
  rfl

theorem ConnectedChain.connectFlushed {whole : Bool} {hash : Uint256}
    (h : ConnectedChain sampleEnv whole pindex view)
    (henforce : enforcesBIP30 sampleEnv.params (hash :: pindex) = true)
    (hconnect : connectFlushed (hash :: pindex) view block = some view') :
    ConnectedChain sampleEnv false (hash :: pindex) view' := by
  unfold BtcSharp.connectFlushed at hconnect
  split at hconnect
  · next child parent base hchild =>
    have hconnected := h.child.connect (.inr (.inl henforce)) hchild
    split at hconnect
    · next top parent' base' hflush =>
      cases hconnect
      have hrun : CoinsView.Op.flush.run ⟨child, .cache parent base⟩ =
          .ok (.done, ⟨top, .cache parent' base'⟩) := by
        rw [CoinsView.Op.run, hflush]
      have hready : CoinsView.Op.flush.Ready ⟨child, .cache parent base⟩ := trivial
      exact (hconnected.call hready (fun _ => rfl) hrun).parent (flush_empty hflush)
    · cases hconnect
  · cases hconnect

theorem ConnectedChain.connectAll {whole : Bool} {blocks : List CBlock}
    (h : ConnectedChain sampleEnv whole pindex view)
    {pindex' : CBlockIndex} (hconnect : connectAll pindex view blocks = some (pindex', view')) :
    ∃ whole, ConnectedChain sampleEnv whole pindex' view' := by
  induction blocks generalizing whole pindex view with
  | nil =>
    cases hconnect
    exact ⟨whole, h⟩
  | cons block rest ih =>
    rw [BtcSharp.connectAll] at hconnect
    split at hconnect
    · next henforce =>
      obtain ⟨_, hblock, hrest⟩ := Option.bind_eq_some_iff.mp hconnect
      exact ih (h.connectFlushed henforce hblock) hrest
    · cases hconnect

/-- One hundred blocks, and one with a payment of the first reward. -/
def payingChain : List CBlock :=
  (List.range 101).map (fun i => sampleBlockOf (UInt32.ofNat (i + 1))) ++ [{
    header := ⟨102, 0, 0, 0, 0, 0⟩
    vtx := [⟨[⟨⟨0, COutPoint.NULL_INDEX⟩, [0, 0], 0, []⟩], [⟨50 * COIN + 1, []⟩], 102, 0⟩,
      ⟨[⟨⟨2, 0⟩, [], 0, []⟩], [⟨50 * COIN - 1, []⟩], 200, 0⟩] }]

/-- Its coins have moved to the view with the flushes, and the payment has taken out its fee. -/
theorem connectedChain_no_inflation_paying : ∃ whole pindex view,
    ConnectedChain sampleEnv whole pindex view ∧ pindex.length = 102 ∧
      (view.view.utxo ⟨2, 0⟩).isNone ∧
      (view.view.utxo ⟨200, 0⟩).map (·.out.nValue) = some (50 * COIN - 1) ∧
      UtxoMap.totalValue view.view.utxo ≤
        ∑ height ∈ Finset.Icc 1 pindex.nHeight, getBlockSubsidy height sampleEnv.params := by
  have hall : (connectAll [] emptyView payingChain).any (fun (pindex, view) =>
      pindex.length == 102 && (view.view.utxo ⟨2, 0⟩).isNone &&
        (view.view.utxo ⟨200, 0⟩).map (·.out.nValue) == some (50 * COIN - 1)) = true := by
    decide +kernel
  obtain ⟨⟨pindex, view⟩, hconnect, hchecked⟩ := (Option.any_eq_true _ _).mp hall
  simp only [Bool.and_eq_true, beq_iff_eq] at hchecked
  obtain ⟨whole, hchain⟩ :=
    (ConnectedChain.start emptyView_wellFormed (fun _ => rfl) fun _ => rfl).connectAll hconnect
  exact ⟨whole, pindex, view, hchain, hchecked.1.1, hchecked.1.2, hchecked.2,
    (connectedChain_no_inflation hchain).1⟩

end BtcSharp
