/-
# The statistics of a chain

What the blocks of a chain add up to: the weights of its unspent coins, and the amounts that its
blocks created, spent and left unclaimed. The first is a scan of the coin set, and each of the
others is written here as a sum over the blocks.
-/

import BtcSharp.Index.CoinStatsTotals

namespace BtcSharp

open Math List

/-! ## Chains of valid blocks -/

/-- Chains of valid blocks with their coin sets. The undo data of a block is the coins that it
spent, and its coinbase creates outputs that are not there. -/
inductive ValidChain (env : ChainEnv) (store : BlockStore) : CBlockIndex → UtxoMap → Prop
  | genesis : ValidChain env store [env.params.hashGenesisBlock] fun _ => none
  | block {pindex : CBlockIndex} {hash : Uint256} {before after : UtxoMap} {block : CBlock}
      {blockundo : CBlockUndo} {coinbase : CTransaction} {rest : List CTransaction} {fees : Int}
      (parent : ValidChain env store pindex before)
      (hread : store.readBlock (hash :: pindex) = some block)
      (hundo : store.readBlockUndo (hash :: pindex) = some blockundo)
      (happlies : block.Applies env pindex.length blockundo coinbase rest fees before after)
      (hfresh : ∀ entry ∈ coinbase.creates env pindex.length, before entry.1 = none)
      (hunspendable : isBIP30Unspendable (hash :: pindex) = false) :
      ValidChain env store (hash :: pindex) after

namespace ValidChain

variable {env : ChainEnv} {store : BlockStore} {pindex : CBlockIndex} {map : UtxoMap}

theorem ne_nil (h : ValidChain env store pindex map) : pindex ≠ [] := by
  cases h <;> exact cons_ne_nil _ _

/-- The blocks that `ConnectBlock` connected one after the other. -/
theorem of_chainUtxo (h : ChainUtxo env store pindex map)
    (hunspendable : ∀ block, block <:+ pindex → isBIP30Unspendable block = false) :
    ValidChain env store pindex map := by
  induction h with
  | genesis => exact .genesis
  | @block hash pindex view view' block blockundo parent hwf hheight hread hundo hbip30
    hconnect ih =>
    have hbefore := ih fun block hblock => hunspendable block (hblock.trans (suffix_cons _ _))
    have hfresh := fresh_of_bip30 (CBlockIndex.nHeight (hash :: pindex)) hbip30
    obtain ⟨-, -, -, coinbase, _, _, _, happlies, hsteps, -⟩ :=
      connectBlock_spec hwf (.inr fun tx htx entry hentry =>
        CacheView.shows_of_utxo_eq_none (hfresh tx htx entry hentry)) hconnect
    rw [hsteps.utxo_eq]
    apply ValidChain.block hbefore hread hundo happlies
    · exact hfresh coinbase happlies.coinbase_mem
    · exact hunspendable _ (suffix_refl _)

end ValidChain

/-! ## The coin set -/

section

variable {G : Type} [CommGroup G] (menv : MuHashEnv G) {env : ChainEnv} {nHeight : Nat}

/-- The statistics of a coin set. -/
noncomputable def utxoStat (map : UtxoMap) : ChainStat G := boundTotal (coinStat menv) map

/-- What a transaction adds to the totals that are not about the coin set. -/
def flowStat (env : ChainEnv) (nHeight : Nat) (tx : CTransaction) (vprevout : List Coin) :
    ChainStat G :=
  ((outputsFrom (env.txid tx) nHeight tx.isCoinBase tx.vout 0).map fun entry => createdStat
    entry.2).sum +
    (vprevout.map fun coin => single .m_total_prevout_spent_amount coin.out.nValue).sum

theorem sum_outputStat (txid : Uint256) (fCoinBase : Bool) (vout : List CTxOut) (j : Nat) :
    ((outputsFrom txid nHeight fCoinBase vout j).map fun entry => outputStat menv entry.1
      entry.2).sum =
      ((outputCoins txid nHeight fCoinBase vout j).map fun entry => coinStat menv entry.1
        entry.2).sum +
      ((outputsFrom txid nHeight fCoinBase vout j).map fun entry => createdStat entry.2).sum := by
  induction vout generalizing j with
  | nil => exact (add_zero 0).symm
  | cons out rest ih =>
    have hscript : (Coin.ofTxOut out nHeight fCoinBase).out.scriptPubKey = out.scriptPubKey := rfl
    rw [outputsFrom, outputCoins, map_cons, map_cons, sum_cons, sum_cons, ih, outputStat, hscript]
    split
    · abel
    · rw [map_cons, sum_cons]
      abel

/-- A transaction adds what the coin set changes by. -/
theorem CTransaction.Applies.txStat_eq {tx : CTransaction} {map : UtxoMap} {vprevout : List Coin}
    (h : tx.Applies env nHeight map vprevout) :
    txStat menv env nHeight tx vprevout =
      utxoStat menv (applyWrites map (tx.redoLog env nHeight)) - utxoStat menv map +
        flowStat env nHeight tx vprevout := by
  have hfst := h.map_fst_zip
  have hsnd := map_snd_zip (le_of_eq h.length_eq.symm)
  have hspent : utxoStat menv (applyWrites map (unbindLog tx.spends)) = utxoStat menv map -
      ((tx.spends.zip vprevout).map fun entry => coinStat menv entry.1 entry.2).sum := by
    have hunbind := @boundTotal_unbind_all COutPoint Coin _ (ChainStat G) _ _ (coinStat menv) map
      (tx.spends.zip vprevout) (by rw [hfst]; exact h.checked.nodup_spends) fun _ => h.eq_of_mem_zip
    have hlog :
        unbindLog tx.spends = (tx.spends.zip vprevout).map fun entry => (entry.1, none) := by
      conv_lhs => rw [← hfst]
      rw [unbindLog, map_map]
      rfl
    rw [hlog]
    exact hunbind
  have hcreated : utxoStat menv (applyWrites map (tx.redoLog env nHeight)) =
      utxoStat menv (applyWrites map (unbindLog tx.spends)) +
        ((tx.creates env nHeight).map fun entry => coinStat menv entry.1 entry.2).sum := by
    rw [CTransaction.redoLog, applyWrites_append]
    exact boundTotal_bind_all (nodup_outputCoins h.checked.length_vout) h.fresh
  have hprevouts :
      ((tx.spends.zip vprevout).map fun entry => prevoutStat menv entry.1 entry.2).sum =
      (vprevout.map fun coin => single .m_total_prevout_spent_amount coin.out.nValue).sum -
        ((tx.spends.zip vprevout).map fun entry => coinStat menv entry.1 entry.2).sum := by
    apply eq_sub_of_add_eq
    conv_rhs => rw [← hsnd, map_map]
    rw [← sum_map_add]
    simp only [prevoutStat, sub_add_cancel]
    rfl
  rw [txStat, flowStat, sum_outputStat, hprevouts, hcreated, hspent, CTransaction.creates]
  abel

variable {fees : Int} {before after : UtxoMap}

theorem AppliesAll.txsStat_eq {txs : List CTransaction} {undos : List CTxUndo}
    (h : AppliesAll env nHeight txs undos fees before after) :
    txsStat menv env nHeight txs undos = utxoStat menv after - utxoStat menv before +
      ((txs.zip undos).map fun pair => flowStat env nHeight pair.1 pair.2.vprevout).sum := by
  induction h with
  | nil map => rw [sub_self, zero_add]; rfl
  | cons hcoinbase head tail ih =>
    rw [txsStat_cons, head.txStat_eq, ih, zip_cons_cons, map_cons, sum_cons]
    abel

/-- What a block adds to the totals that are not about the coin set. -/
def blockFlowStat (env : ChainEnv) (nHeight : Nat) (block : CBlock) (blockundo : CBlockUndo) :
    ChainStat G :=
  match block.vtx with
  | [] => 0
  | coinbase :: rest => flowStat env nHeight coinbase [] +
      ((rest.zip blockundo.vtxundo).map fun pair => flowStat env nHeight pair.1 pair.2.vprevout).sum

/-- A block adds what the coin set changes by. -/
theorem CBlock.Applies.blockTxsStat_eq {block : CBlock} {blockundo : CBlockUndo}
    {coinbase : CTransaction} {rest : List CTransaction}
    (h : block.Applies env nHeight blockundo coinbase rest fees before after)
    (hfresh : ∀ entry ∈ coinbase.creates env nHeight, before entry.1 = none) :
    blockTxsStat menv env nHeight block blockundo =
      utxoStat menv after - utxoStat menv before + blockFlowStat env nHeight block blockundo := by
  rw [blockTxsStat, blockFlowStat, h.vtx]
  simp only
  rw [(h.coinbase_applies hfresh).txStat_eq, h.spends.txsStat_eq]
  abel

/-- The coin set does not change the balance. -/
theorem settle_utxoStat (map : UtxoMap) : settle (utxoStat menv map) = utxoStat menv map := by
  have hcoin : ∀ outpoint coin, settle (coinStat menv outpoint coin) = coinStat menv
      outpoint coin := by
    intro outpoint coin
    have hbalance : imbalance (coinStat menv outpoint coin).1 = 0 := by
      simp [imbalance, coinStat, single]
    rw [settle_apply, hbalance]
    simp [single]
  rw [utxoStat, map_boundTotal]
  simp [hcoin]

end

/-! ## The amounts of a block -/

/-- Outputs of coinbases. -/
def ofCoinbase (fCoinBase : Bool) (script : CScript) : Bool := fCoinBase && !script.isUnspendable

/-- Outputs of other transactions. -/
def exCoinbase (fCoinBase : Bool) (script : CScript) : Bool := !fCoinBase && !script.isUnspendable

/-- Outputs that cannot be spent. -/
def toScripts (_ : Bool) (script : CScript) : Bool := script.isUnspendable

/-- The value of the outputs that are selected. -/
def outputValue (select : Bool → CScript → Bool) (fCoinBase : Bool) (vout : List CTxOut) : ℤ :=
  ((vout.filter fun out => select fCoinBase out.scriptPubKey).map (·.nValue)).sum

/-- The value of the outputs of transactions. -/
def createdValue (select : Bool → CScript → Bool) (txs : List CTransaction) : ℤ :=
  (txs.map fun tx => outputValue select tx.isCoinBase tx.vout).sum

/-- The value of the coins in undo data. -/
def spentValue (undos : List CTxUndo) : ℤ :=
  (undos.map fun txundo => (txundo.vprevout.map (·.out.nValue)).sum).sum

/-- Amounts that are created, by what is created, and spent. -/
def amounts (created : (Bool → CScript → Bool) → ℤ) (spent : ℤ) : Totals
  | .m_total_prevout_spent_amount => spent
  | .m_total_new_outputs_ex_coinbase_amount => created exCoinbase
  | .m_total_coinbase_amount => created ofCoinbase
  | .m_total_unspendables_scripts => created toScripts
  | .m_total_unspendable_amount => created toScripts
  | _ => 0

theorem amounts_add (created created' : (Bool → CScript → Bool) → ℤ) (spent spent' : ℤ) :
    amounts (created + created') (spent + spent') = amounts created spent + amounts
      created' spent' := by
  ext total
  cases total <;> rfl

section

variable {G : Type} [CommGroup G] {env : ChainEnv} {nHeight : Nat}

/-- The outputs of a transaction, one total at a time. -/
theorem sum_createdStat (txid : Uint256) (fCoinBase : Bool) (vout : List CTxOut) (j : Nat) :
    ((outputsFrom txid nHeight fCoinBase vout j).map
      fun entry => (createdStat entry.2 : ChainStat G)).sum =
      (amounts (fun select => outputValue select fCoinBase vout) 0, 0) := by
  induction vout generalizing j with
  | nil =>
    apply Prod.ext
    · ext total
      cases total <;> rfl
    · rfl
  | cons out rest ih =>
    rw [outputsFrom, map_cons, sum_cons, ih]
    apply Prod.ext
    · ext total
      cases hscript : out.scriptPubKey.isUnspendable <;> cases fCoinBase <;> cases total <;>
        simp [createdStat, Coin.ofTxOut, single, amounts, outputValue, exCoinbase,
          ofCoinbase, toScripts, hscript]
    · unfold createdStat
      split <;> simp [single]

theorem sum_spent (vprevout : List Coin) :
    (vprevout.map fun coin => (single .m_total_prevout_spent_amount coin.out.nValue
      : ChainStat G)).sum = (amounts 0 (vprevout.map (·.out.nValue)).sum, 0) := by
  induction vprevout with
  | nil =>
    apply Prod.ext
    · ext total
      cases total <;> rfl
    · rfl
  | cons coin rest ih =>
    rw [map_cons, sum_cons, ih]
    apply Prod.ext
    · ext total
      cases total <;> simp [single, amounts]
    · exact add_zero 0

theorem flowStat_eq (tx : CTransaction) (vprevout : List Coin) :
    (flowStat env nHeight tx vprevout : ChainStat G) =
      (amounts (fun select => createdValue select [tx]) (spentValue [⟨vprevout⟩]), 0) := by
  have hsplit := amounts_add (fun select => createdValue select [tx]) 0 0 (spentValue [⟨vprevout⟩])
  rw [add_zero, zero_add] at hsplit
  rw [flowStat, sum_createdStat, sum_spent, hsplit]
  simp [createdValue, spentValue]

variable {fees : Int} {before after : UtxoMap}

theorem AppliesAll.flowStat_eq {txs : List CTransaction} {undos : List CTxUndo}
    (h : AppliesAll env nHeight txs undos fees before after) :
    ((txs.zip undos).map fun pair => (flowStat env nHeight pair.1 pair.2.vprevout
      : ChainStat G)).sum =
      (amounts (fun select => createdValue select txs) (spentValue undos), 0) := by
  induction h with
  | nil map =>
    apply Prod.ext
    · ext total
      cases total <;> rfl
    · rfl
  | @cons tx rest txundo later fees map after hcoinbase head tail ih =>
    rw [zip_cons_cons, map_cons, sum_cons, ih, BtcSharp.flowStat_eq, Prod.mk_add_mk,
      ← amounts_add, add_zero]
    congr 2
    · ext select
      simp [createdValue]
    · simp [spentValue]

theorem CBlock.Applies.blockFlowStat_eq {block : CBlock} {blockundo : CBlockUndo}
    {coinbase : CTransaction} {rest : List CTransaction}
    (h : block.Applies env nHeight blockundo coinbase rest fees before after) :
    (blockFlowStat env nHeight block blockundo : ChainStat G) =
      (amounts (fun select => createdValue select block.vtx) (spentValue blockundo.vtxundo),
      0) := by
  rw [blockFlowStat, h.vtx]
  simp only
  rw [h.spends.flowStat_eq, flowStat_eq, Prod.mk_add_mk, ← amounts_add, add_zero]
  congr 2
  · ext select
    simp [createdValue]
  · exact zero_add _

end

/-! ## The chain -/

section

variable {G : Type} [CommGroup G] (menv : MuHashEnv G) (env : ChainEnv) (store : BlockStore)

/-- What the last block of a chain adds, before the unclaimed rewards are counted. -/
def blockStat (pindex : CBlockIndex) : ChainStat G :=
  single .m_total_subsidy (getBlockSubsidy pindex.nHeight env.params) +
    if pindex.nHeight = 0 then
      single .m_total_unspendable_amount (getBlockSubsidy pindex.nHeight env.params) +
        single .m_total_unspendables_genesis_block (getBlockSubsidy pindex.nHeight env.params)
    else
      match store.readBlock pindex, store.readBlockUndo pindex with
      | some block, some blockundo => blockTxsStat menv env pindex.nHeight block blockundo
      | _, _ => 0

/-- What the blocks of a chain add up to. -/
def chainStat : CBlockIndex → ChainStat G
  | [] => 0
  | hash :: pprev => chainStat pprev + settle (blockStat menv env store (hash :: pprev))

theorem settle_chainStat (pindex : CBlockIndex) :
    settle (chainStat menv env store pindex) = chainStat menv env store pindex := by
  induction pindex with
  | nil => exact map_zero settle
  | cons hash pprev ih => rw [chainStat, map_add, ih, settle_settle]

end

section

variable (env : ChainEnv) (store : BlockStore)

/-- The blocks of a chain after the genesis block, with their undo data. -/
def chainBlocks : CBlockIndex → List (CBlock × CBlockUndo)
  | [] => []
  | [_] => []
  | hash :: prev :: rest =>
    match store.readBlock (hash :: prev :: rest), store.readBlockUndo (hash :: prev :: rest) with
    | some block, some blockundo => (block, blockundo) :: chainBlocks (prev :: rest)
    | _, _ => chainBlocks (prev :: rest)

/-- The value of the outputs that the blocks of a chain created. -/
def createdOnChain (select : Bool → CScript → Bool) (pindex : CBlockIndex) : ℤ :=
  ((chainBlocks store pindex).map fun entry => createdValue select entry.1.vtx).sum

variable (pindex : CBlockIndex)

/-- The value of the outputs that they spent. -/
def spentOnChain : ℤ :=
  ((chainBlocks store pindex).map fun entry => spentValue entry.2.vtxundo).sum

/-- The subsidies of the blocks of a chain. -/
def subsidies : ℤ :=
  ∑ height ∈ Finset.range pindex.length, getBlockSubsidy height env.params

/-- What the blocks after the genesis block could have claimed and did not. -/
def unclaimedOnChain : ℤ :=
  (subsidies env pindex - getBlockSubsidy 0 env.params) + spentOnChain store pindex -
    createdOnChain store (fun _ _ => true) pindex

/-- The totals of the blocks of a chain. -/
def chainFlow : Totals
  | .m_total_subsidy => subsidies env pindex
  | .m_total_prevout_spent_amount => spentOnChain store pindex
  | .m_total_new_outputs_ex_coinbase_amount => createdOnChain store exCoinbase pindex
  | .m_total_coinbase_amount => createdOnChain store ofCoinbase pindex
  | .m_total_unspendables_genesis_block => getBlockSubsidy 0 env.params
  | .m_total_unspendables_scripts => createdOnChain store toScripts pindex
  | .m_total_unspendables_unclaimed_rewards => unclaimedOnChain env store pindex
  | .m_total_unspendable_amount => getBlockSubsidy 0 env.params + createdOnChain store
      toScripts pindex + unclaimedOnChain env store pindex
  | _ => 0

/-- The totals of a coin set. -/
noncomputable def coinTotals (map : UtxoMap) : Totals
  | .m_transaction_output_count => boundTotal (fun _ _ => 1) map
  | .m_bogo_size => boundTotal (fun _ coin => (getBogoSize coin.out.scriptPubKey : ℤ)) map
  | .m_total_amount => boundTotal (fun _ coin => coin.out.nValue) map
  | _ => 0

/-- The totals of a chain with its coin set. -/
noncomputable def chainTotals (map : UtxoMap) : Totals :=
  coinTotals map + chainFlow env store pindex

end

section

variable {store : BlockStore} {hash : Uint256} {pindex : CBlockIndex} {block : CBlock}
  {blockundo : CBlockUndo}
  (hpindex : pindex ≠ []) (hread : store.readBlock (hash :: pindex) = some block)
  (hundo : store.readBlockUndo (hash :: pindex) = some blockundo)
include hpindex hread hundo

/-- A block after the genesis block adds its subsidy and what its transactions add. -/
theorem blockStat_eq {G : Type} [CommGroup G] (menv : MuHashEnv G) (env : ChainEnv) :
    blockStat menv env store (hash :: pindex) = single .m_total_subsidy
      (getBlockSubsidy pindex.length env.params) +
      blockTxsStat menv env pindex.length block blockundo := by
  have hheight : CBlockIndex.nHeight (hash :: pindex) = pindex.length := rfl
  rw [blockStat, hheight, if_neg (length_pos_iff.mpr hpindex).ne', hread, hundo]

theorem chainBlocks_cons : chainBlocks store (hash :: pindex) = (block, blockundo) :: chainBlocks
    store pindex := by
  cases pindex with
  | nil => exact absurd rfl hpindex
  | cons prev pprev => simp only [chainBlocks, hread, hundo]

theorem createdOnChain_cons (select : Bool → CScript → Bool) :
      createdOnChain store select (hash :: pindex) =
      createdValue select block.vtx + createdOnChain store select pindex := by
  rw [createdOnChain, chainBlocks_cons hpindex hread hundo]
  rfl

theorem spentOnChain_cons :
    spentOnChain store (hash :: pindex) = spentValue blockundo.vtxundo + spentOnChain
      store pindex := by
  rw [spentOnChain, chainBlocks_cons hpindex hread hundo]
  rfl

end

/-- Every output is of one of the three kinds. -/
theorem createdValue_all (txs : List CTransaction) : createdValue (fun _ _ => true) txs =
      createdValue exCoinbase txs + createdValue ofCoinbase txs + createdValue toScripts txs := by
  have houtputs : ∀ (fCoinBase : Bool) (vout : List CTxOut),
      outputValue (fun _ _ => true) fCoinBase vout =
      outputValue exCoinbase fCoinBase vout + outputValue ofCoinbase fCoinBase vout +
        outputValue toScripts fCoinBase vout := by
    intro fCoinBase vout
    induction vout with
    | nil => rfl
    | cons out rest ih =>
      simp only [outputValue, exCoinbase, ofCoinbase, toScripts, filter_cons] at ih ⊢
      cases fCoinBase <;> cases out.scriptPubKey.isUnspendable <;>
        simp only [Bool.not_true, Bool.not_false, Bool.and_true, Bool.and_false,
          Bool.false_eq_true, if_true, if_false, map_cons, sum_cons] at ih ⊢ <;> omega
  induction txs with
  | nil => rfl
  | cons tx rest ih =>
    simp only [createdValue, map_cons, sum_cons] at ih ⊢
    rw [houtputs, ih]
    ring

section

variable {G : Type} [CommGroup G] (menv : MuHashEnv G) {env : ChainEnv} {store : BlockStore}

theorem utxoStat_eq (map : UtxoMap) : utxoStat menv map = (coinTotals map,
    boundTotal (fun outpoint coin => Additive.ofMul (menv.toNum3072 (txOutSer outpoint coin)))
      map) := by
  have hfst : ∀ total, (utxoStat menv map).1 total =
      boundTotal (fun outpoint coin => (coinStat menv outpoint coin).1 total) map := fun total =>
    map_boundTotal ((Pi.evalAddMonoidHom (fun _ => ℤ) total).comp (.fst Totals (Additive G)))
  have hsnd :
    (utxoStat menv map).2 = boundTotal (fun outpoint coin => (coinStat menv outpoint coin).2) map :=
    map_boundTotal (.snd Totals (Additive G))
  have hnone : boundTotal (fun (_ : COutPoint) (_ : Coin) => (0 : ℤ)) map = 0 := by
    apply Finset.sum_eq_zero
    intro outpoint _
    cases map outpoint <;> rfl
  apply Prod.ext
  · ext total
    rw [hfst]
    cases total <;> simp [coinStat, single, coinTotals, hnone]
  · rw [hsnd]
    simp [coinStat, single]

/-- The totals of one block, with what was not claimed. -/
theorem settle_amounts (subsidy : ℤ) (created : (Bool → CScript → Bool) → ℤ) (spent : ℤ) :
    settle (single .m_total_subsidy subsidy + (amounts created spent, 0) : ChainStat G) =
      (amounts created spent + Pi.single .m_total_subsidy subsidy +
        (Pi.single .m_total_unspendable_amount (subsidy + spent -
          (created exCoinbase + created ofCoinbase + created toScripts)) +
        Pi.single .m_total_unspendables_unclaimed_rewards (subsidy + spent -
          (created exCoinbase + created ofCoinbase + created toScripts))), 0) := by
  have himbalance :
      imbalance (single .m_total_subsidy subsidy + (amounts created spent, 0) : ChainStat G).1 =
      subsidy + spent - (created exCoinbase + created ofCoinbase + created toScripts) := by
    simp [imbalance, single, amounts]
    ring
  rw [settle_apply, himbalance]
  apply Prod.ext
  · simp only [single, Prod.fst_add]
    abel
  · simp [single]

variable {pindex : CBlockIndex} {map : UtxoMap}

section

variable (h : ValidChain env store pindex map)

include h

/-- The statistics of a chain are those of its coin set and of its blocks. -/
theorem ValidChain.chainStat_eq :
    chainStat menv env store pindex = utxoStat menv map + (chainFlow env store pindex, 0) := by
  induction h with
  | genesis =>
    rw [chainStat, chainStat, utxoStat, boundTotal_empty, blockStat, settle_apply]
    apply Prod.ext
    · ext total
      cases total <;>
        simp [CBlockIndex.nHeight, imbalance, single, chainFlow, subsidies, spentOnChain,
        createdOnChain, unclaimedOnChain, chainBlocks]
    · simp [CBlockIndex.nHeight, single]
  | @block pindex hash before after block blockundo coinbase rest fees parent hread hundo happlies
    hfresh _ ih =>
    have hsettle : settle (blockStat menv env store (hash :: pindex)) =
        utxoStat menv after - utxoStat menv before +
          settle (single .m_total_subsidy (getBlockSubsidy pindex.length env.params) +
            (amounts (fun select => createdValue select block.vtx) (spentValue blockundo.vtxundo),
            0)) := by
      rw [blockStat_eq parent.ne_nil hread hundo, happlies.blockTxsStat_eq menv hfresh,
        happlies.blockFlowStat_eq]
      simp only [map_add, map_sub, settle_utxoStat]
      abel
    have hcreated := createdOnChain_cons parent.ne_nil hread hundo
    have hspent := spentOnChain_cons parent.ne_nil hread hundo
    have hsubsidies : subsidies env (hash :: pindex) =
        subsidies env pindex + getBlockSubsidy pindex.length env.params := by
      rw [subsidies, length_cons, Finset.sum_range_succ]
      rfl
    rw [chainStat, ih, hsettle, settle_amounts]
    apply Prod.ext
    · ext total
      cases total <;> simp [amounts, chainFlow, hcreated, hspent, hsubsidies, unclaimedOnChain,
        createdValue_all] <;> ring
    · simp

theorem ValidChain.chainStat_fst :
    (chainStat menv env store pindex).1 = chainTotals env store pindex map := by
  rw [h.chainStat_eq, utxoStat_eq]
  rfl

theorem ValidChain.chainStat_snd : (chainStat menv env store pindex).2 =
      boundTotal (fun outpoint coin => Additive.ofMul (menv.toNum3072 (txOutSer outpoint coin)))
        map := by
  rw [h.chainStat_eq, utxoStat_eq]
  exact add_zero _

end

end

theorem ValidChain.inMoneyRange {env : ChainEnv} {store : BlockStore} {pindex : CBlockIndex}
    {map : UtxoMap} (h : ValidChain env store pindex map) : map.InMoneyRange := by
  induction h with
  | genesis => exact nofun
  | block _ _ _ happlies _ _ ih => exact (happlies.totalValue_le ih).1

end BtcSharp
