/-
# What `ConnectBlock` does to the coin set

The cache that `ConnectBlock` works on is left showing the map it showed before with
the logs of the block's transactions applied. Each transaction but the coinbase
finds its inputs, creates outputs that were not there and pays its fee, and the undo
data lists the coins it found.
-/

import BtcSharp.Validation.BlockLog

namespace BtcSharp

open Math List

/-- The fee a transaction pays on a map. -/
def CTransaction.fee (tx : CTransaction) (map : UtxoMap) : Int := tx.valueIn map - tx.valueOut

/-- A transaction fits a map: it finds the given coins, and once they are spent none
of the outputs it creates is there. -/
structure CTransaction.Applies (tx : CTransaction) (env : ChainEnv) (nHeight : Nat)
    (map : UtxoMap) (vprevout : List Coin) : Prop where
  checked : tx.Checked
  coins : vprevout.map some = tx.spends.map map
  fresh : ∀ entry ∈ tx.creates env nHeight,
    applyWrites map (unbindLog tx.spends) entry.1 = none

/-- Transactions other than coinbases that fit a map one after the other, with their
undo data, the sum of their fees and the map they lead to. -/
inductive AppliesAll (env : ChainEnv) (nHeight : Nat) :
    List CTransaction → List CTxUndo → Int → UtxoMap → UtxoMap → Prop
  | nil (map : UtxoMap) : AppliesAll env nHeight [] [] 0 map map
  | cons {tx : CTransaction} {rest : List CTransaction} {txundo : CTxUndo}
      {later : List CTxUndo} {fees : Int} {map after : UtxoMap}
      (coinbase : tx.isCoinBase = false)
      (head : tx.Applies env nHeight map txundo.vprevout)
      (tail : AppliesAll env nHeight rest later fees
        (applyWrites map (tx.redoLog env nHeight)) after) :
      AppliesAll env nHeight (tx :: rest) (txundo :: later) (tx.fee map + fees) map after

/-- What an accepted block consists of, on a map. -/
structure CBlock.Applies (block : CBlock) (env : ChainEnv) (nHeight : Nat) (blockundo : CBlockUndo)
    (coinbase : CTransaction) (rest : List CTransaction) (fees : Int) (before after : UtxoMap) :
    Prop where
  vtx : block.vtx = coinbase :: rest
  isCoinBase : coinbase.isCoinBase = true
  checked : coinbase.Checked
  spends : AppliesAll env nHeight rest blockundo.vtxundo fees
    (applyWrites before (coinbase.redoLog env nHeight)) after
  reward : coinbase.valueOut ≤ fees + getBlockSubsidy nHeight env.params

/-! ## Sizes -/

theorem length_le_length_writeVector {α : Type} {write : α → List UInt8} {values : List α}
    (hwrite : ∀ value ∈ values, write value ≠ []) :
    values.length ≤ (writeVector write values).length := by
  have hitems : values.length ≤ (values.flatMap write).length := by
    induction values with
    | nil => exact le_refl _
    | cons value rest ih =>
      have hhead := length_pos_iff.mpr (hwrite value mem_cons_self)
      have htail := ih fun other hother => hwrite other (mem_cons_of_mem _ hother)
      rw [flatMap_cons, length_append, length_cons]
      omega
  rw [writeVector, length_append]
  omega

variable {tx : CTransaction} {env : ChainEnv} {view view' : CacheView} {pindex : CBlockIndex}
  {block : CBlock} {start : CacheView} {map : UtxoMap}

/-- A transaction has fewer inputs and outputs than its serialization has bytes. -/
theorem CTransaction.Checked.length_le (h : tx.Checked) :
    tx.vin.length ≤ 1000000 ∧ tx.vout.length ≤ 1000000 := by
  have hvin : tx.vin.length ≤ (writeVector txInCodec.write tx.vin).length := by
    apply length_le_length_writeVector
    intro txin _ hnil
    have hfields : txInCodec.write txin = outPointCodec.write txin.prevout ++
        (bytesCodec.write txin.scriptSig ++ uint32Codec.write txin.nSequence) := rfl
    have hlast := length_uint32 txin.nSequence
    rw [hfields, append_eq_nil_iff, append_eq_nil_iff] at hnil
    rw [hnil.2.2] at hlast
    cases hlast
  have hvout : tx.vout.length ≤ (writeVector txOutCodec.write tx.vout).length := by
    apply length_le_length_writeVector
    intro txout _ hnil
    have hfields : txOutCodec.write txout = amountCodec.write txout.nValue ++
        bytesCodec.write txout.scriptPubKey := rfl
    have hfirst : (amountCodec.write txout.nValue).length = 8 := length_writeLE 8 _
    rw [hfields, append_eq_nil_iff] at hnil
    rw [hnil.1] at hfirst
    cases hfirst
  have hsize := h.size
  simp only [serializeTransaction, length_append, WITNESS_SCALE_FACTOR, MAX_BLOCK_WEIGHT] at hsize
  omega

theorem CTransaction.Checked.length_vout (h : tx.Checked) : 0 + tx.vout.length ≤ 2 ^ 32 := by
  have := h.length_le.2
  omega

theorem CTransaction.spends_of_isCoinBase (h : tx.isCoinBase = true) : tx.spends = [] := by
  rw [spends, if_pos h]

theorem CTransaction.spends_of_not_isCoinBase (h : tx.isCoinBase = false) :
    tx.spends = tx.vin.map (·.prevout) := by
  rw [spends, if_neg (by simp [h])]

/-! ## One transaction -/

/-- Adding the outputs of a coinbase always succeeds. -/
theorem updateCoins_coinbase (h : CacheView.Steps start view map) (htx : tx.Checked)
    (hcoinbase : tx.isCoinBase = true) (nHeight : Nat) :
    ∃ view', updateCoins env tx view nHeight = .ok (⟨[]⟩, view') ∧
      CacheView.Steps start view' (applyWrites map (tx.redoLog env nHeight)) := by
  obtain ⟨view', hadd, hsteps⟩ := @addCoinsFrom_steps (env.txid tx) nHeight tx.vout tx.isCoinBase _
    false (.inr hcoinbase) 0 view _ h htx.values
  refine ⟨view', ?_, ?_⟩
  · simp only [updateCoins, hcoinbase, if_true, addCoins]
    rw [hcoinbase] at hadd
    rw [hadd]
  · rw [CTransaction.redoLog, CTransaction.spends_of_isCoinBase hcoinbase]
    exact hsteps

/-- Spending inputs that are there and adding outputs that the cache shows. -/
theorem updateCoins_spends {nHeight : Nat} {txundo : CTxUndo} (h : CacheView.Steps start view map)
    (htx : tx.Checked) (hcoinbase : tx.isCoinBase = false)
    (hinputs : ∀ txin ∈ tx.vin, ∃ coin, map txin.prevout = some coin)
    (hshows : ∀ entry ∈ tx.creates env nHeight, start.Shows entry.1)
    (hupdate : updateCoins env tx view nHeight = .ok (txundo, view')) :
    tx.Applies env nHeight map txundo.vprevout ∧
      CacheView.Steps start view' (applyWrites map (tx.redoLog env nHeight)) := by
  have hspends := CTransaction.spends_of_not_isCoinBase hcoinbase
  obtain ⟨_, _, hspend, hcoins, hmid⟩ := spendInputs_spec h htx.nodup hinputs
  rw [← hspends] at hmid
  simp only [updateCoins, hcoinbase, Bool.false_eq_true, if_false, hspend] at hupdate
  split at hupdate
  · cases hupdate
  next last hadd =>
  cases hupdate
  have hcreates : outputCoins (env.txid tx) nHeight false tx.vout 0 = tx.creates env nHeight := by
    rw [CTransaction.creates, hcoinbase]
  rw [addCoins, hcoinbase] at hadd
  have hfresh := addCoinsFrom_fresh hmid htx.values htx.length_vout (by rwa [hcreates]) hadd
  rw [hcreates, ← applyWrites_append] at hfresh
  refine ⟨⟨htx, ?_, ?_⟩, hfresh.1⟩
  · rw [hcoins, hspends, map_map]
    rfl
  · exact hfresh.2

theorem accessCoins_steps {vin : List CTxIn} :
      ∀ {view : CacheView}, CacheView.Steps start view map →
      CacheView.Steps start (accessCoins vin view).2 map := by
  induction vin with
  | nil => exact fun h => h
  | cons txin rest ih => exact fun h => ih (CacheView.accessCoin_steps h txin.prevout).2

/-- The checks of a transaction's inputs leave the map alone. -/
theorem checkSpends_spec {nFees nFees' : Int} {coins : List Coin}
    (h : CacheView.Steps start view map)
    (htx : tx.Checked) (hcheck : checkSpends env pindex tx nFees view = .ok (nFees', coins, view'))
      :
    CacheView.Steps start view' map ∧ (∀ txin ∈ tx.vin, ∃ coin, map txin.prevout = some coin) ∧
      nFees' = nFees + tx.fee map ∧ moneyRange nFees' = true := by
  unfold checkSpends at hcheck
  split at hcheck
  · cases hcheck
  next txfee mid htxInputs =>
  obtain ⟨hmid, hinputs, hvalue, -⟩ := checkTxInputs_spec h htx htxInputs
  split at hcheck
  · cases hcheck
  next total htotal =>
  have hsum := eq_add_of_addAmount htotal
  split at hcheck
  · cases hcheck
  next hrange =>
  simp only at hcheck
  split at hcheck
  · cases hcheck
  obtain ⟨rfl, hpair⟩ := Prod.mk.inj (Except.ok.inj hcheck)
  obtain rfl := (Prod.mk.inj hpair).2
  refine ⟨accessCoins_steps hmid, hinputs, ?_, by simpa using hrange⟩
  rw [CTransaction.fee, hsum]
  omega

/-- The undo data grows by one record for each transaction after the first. -/
def pushUndo (i : Nat) (vtxundo : List CTxUndo) (txundo : CTxUndo) : List CTxUndo :=
  if 0 < i then vtxundo ++ [txundo] else vtxundo

variable {i : Nat} {state state' : ConnectState} {txs : List CTransaction} {blockundo : CBlockUndo}

theorem connectTx_coinbase (h : CacheView.Steps start state.view map) (htx : tx.Checked)
    (hcoinbase : tx.isCoinBase = true) (hconnect : connectTx env pindex i tx state = .ok state') :
    CacheView.Steps start state'.view (applyWrites map (tx.redoLog env pindex.nHeight)) ∧
      state'.nFees = state.nFees ∧ state'.vtxundo = pushUndo i state.vtxundo ⟨[]⟩ := by
  obtain ⟨_, hupdate, hsteps⟩ :=
    @updateCoins_coinbase tx env state.view _ _ h htx hcoinbase pindex.nHeight
  simp only [connectTx, hcoinbase, if_true, Bool.not_true, Bool.false_and, Bool.false_eq_true,
    if_false, hupdate] at hconnect
  split at hconnect
  · cases hconnect
  · cases hconnect
    exact ⟨hsteps, rfl, rfl⟩

theorem connectTx_spends (h : CacheView.Steps start state.view map) (htx : tx.Checked)
    (hcoinbase : tx.isCoinBase = false) (hshows : ∀ entry ∈ tx.creates env pindex.nHeight,
      start.Shows entry.1)
    (hconnect : connectTx env pindex i tx state = .ok state') :
    ∃ txundo : CTxUndo, tx.Applies env pindex.nHeight map txundo.vprevout ∧
      CacheView.Steps start state'.view (applyWrites map (tx.redoLog env pindex.nHeight)) ∧
      state'.nFees = state.nFees + tx.fee map ∧
      moneyRange state'.nFees = true ∧ state'.vtxundo = pushUndo i state.vtxundo txundo := by
  simp only [connectTx, hcoinbase, Bool.false_eq_true, if_false] at hconnect
  split at hconnect
  · cases hconnect
  next nFees coins mid hcheck =>
  obtain ⟨hmid, hinputs, hfees, hrange⟩ := checkSpends_spec h htx hcheck
  split at hconnect
  · cases hconnect
  split at hconnect
  · cases hconnect
  split at hconnect
  · cases hconnect
  next txundo view' hupdate =>
  cases hconnect
  obtain ⟨happlies, hsteps⟩ := updateCoins_spends hmid htx hcoinbase hinputs hshows hupdate
  exact ⟨txundo, happlies, hsteps, hfees, hrange, rfl⟩

/-! ## The transaction loop -/

theorem connectTxs_spec (htxs : ∀ tx ∈ txs, tx.Checked ∧ tx.isCoinBase = false ∧
      ∀ entry ∈ tx.creates env pindex.nHeight, start.Shows entry.1) :
    ∀ {i : Nat} {state state' : ConnectState} {map : UtxoMap}, 0 < i →
      CacheView.Steps start state.view map → connectTxs env pindex txs i state = .ok state' →
      ∃ undos fees after, AppliesAll env pindex.nHeight txs undos fees map after ∧
        CacheView.Steps start state'.view after ∧ state'.nFees = state.nFees + fees ∧
        (moneyRange state.nFees = true → moneyRange state'.nFees = true) ∧
        state'.vtxundo = state.vtxundo ++ undos := by
  induction txs with
  | nil =>
    intro i state state' map _ h hconnect
    cases hconnect
    exact ⟨[], 0, _, .nil _, h, by simp, id, by simp⟩
  | cons tx rest ih =>
    intro i state state' map hi h hconnect
    rw [forall_mem_cons] at htxs
    obtain ⟨⟨htx, hcoinbase, hshows⟩, hlater⟩ := htxs
    rw [connectTxs] at hconnect
    split at hconnect
    · cases hconnect
    next mid hhead =>
    obtain ⟨txundo, happlies, hsteps, hfees, hrange, hundo⟩ :=
      connectTx_spends h htx hcoinbase hshows hhead
    obtain ⟨undos, fees, after, hall, hrest, hrestFees, hrestRange, hrestUndo⟩ :=
      ih hlater (Nat.succ_pos i) hsteps hconnect
    refine ⟨txundo :: undos, _, after, .cons hcoinbase happlies hall, hrest, ?_,
      fun _ => hrestRange hrange, ?_⟩
    · omega
    · rw [hrestUndo, hundo, pushUndo, if_pos hi, append_assoc, singleton_append]

/-! ## The block -/

theorem anyOutputExists_spec {txid : Uint256} {vout : List CTxOut} :
    ∀ {i : Nat} {view : CacheView}, CacheView.Steps start view map →
      CacheView.Steps start (anyOutputExists txid vout i view).2 map ∧
        ((anyOutputExists txid vout i view).1 = false → ∀ j, i ≤ j → j < i + vout.length →
          map (outPointAt txid j) = none) := by
  induction vout with
  | nil => exact fun h => ⟨h, fun _ j hlow hhigh => by simp at hhigh; omega⟩
  | cons txout rest ih =>
    intro i view h
    obtain ⟨hhave, hsteps⟩ := CacheView.haveCoin_steps h (outPointAt txid i)
    obtain ⟨hrest, hnone⟩ := @ih (i + 1) _ hsteps
    refine ⟨hrest, ?_⟩
    intro hfalse j hlow hhigh
    simp only [anyOutputExists, Bool.or_eq_false_iff] at hfalse
    rw [length_cons] at hhigh
    rcases Nat.eq_or_lt_of_le hlow with rfl | hlater
    · have hisSome := hhave.symm.trans hfalse.1
      simpa using hisSome
    · exact hnone hfalse.2 j hlater (by omega)

theorem anyTxExists_spec {nHeight : Nat} :
    ∀ {view : CacheView}, CacheView.Steps start view map →
      CacheView.Steps start (anyTxExists env txs view).2 map ∧
        ((anyTxExists env txs view).1 = false → ∀ tx ∈ txs, ∀ entry ∈ tx.creates env nHeight,
          map entry.1 = none) := by
  induction txs with
  | nil => exact fun h => ⟨h, by simp⟩
  | cons tx rest ih =>
    intro view h
    obtain ⟨hsteps, hnone⟩ := @anyOutputExists_spec _ _ (env.txid tx) tx.vout 0 view h
    obtain ⟨hrest, hrestNone⟩ := ih hsteps
    refine ⟨hrest, fun hfalse => ?_⟩
    simp only [anyTxExists, Bool.or_eq_false_iff] at hfalse
    refine forall_mem_cons.mpr ⟨fun entry hentry => ?_, hrestNone hfalse.2⟩
    obtain ⟨j, -, hlow, hhigh, heq, -⟩ := mem_outputCoins hentry
    rw [heq]
    exact hnone hfalse.1 j hlow hhigh

/-- The search for existing outputs leaves the map alone, and rules them out. -/
theorem exists_searched (env : ChainEnv) (block : CBlock) (pindex : CBlockIndex)
    (hwf : view.view.WellFormed) :
    ∃ searched, searched = (if enforcesBIP30 env.params pindex then anyTxExists env block.vtx view
        else (false, view)) ∧ CacheView.Steps view searched.2 view.view.utxo ∧
      (searched.1 = false → enforcesBIP30 env.params pindex = true → ∀ tx ∈ block.vtx,
        ∀ entry ∈ tx.creates env pindex.nHeight, view.view.utxo entry.1 = none) := by
  refine ⟨_, rfl, ?_⟩
  split
  · have hspec := @anyTxExists_spec env _ _ block.vtx pindex.nHeight view (.refl hwf)
    exact ⟨hspec.1, fun hfalse _ => hspec.2 hfalse⟩
  · next henforce => exact ⟨.refl hwf, fun _ h => absurd h henforce⟩

theorem checkTransactions_checked (h : checkTransactions txs = .ok ()) :
    ∀ tx ∈ txs, tx.Checked := by
  induction txs with
  | nil => simp
  | cons head rest ih =>
    rw [checkTransactions] at h
    split at h
    · cases h
    next hhead =>
    intro tx htx
    rcases mem_cons.mp htx with rfl | hlater
    · exact checkTransaction_checked hhead
    · exact ih h tx hlater

/-- What `CheckBlock` establishes. -/
structure CBlock.Checked (block : CBlock) : Prop where
  count : block.vtx.length ≤ 1000000
  first : ∃ coinbase rest, block.vtx = coinbase :: rest ∧ coinbase.isCoinBase = true ∧
    ∀ tx ∈ rest, tx.isCoinBase = false
  txs : ∀ tx ∈ block.vtx, tx.Checked

theorem checkBlock_checked (h : checkBlock env block = .ok ()) : block.Checked := by
  unfold checkBlock at h
  split at h
  · cases h
  split at h
  · cases h
  next hlength =>
  split at h
  · cases h
  next hfirst =>
  split at h
  · cases h
  next hothers =>
  split at h
  · cases h
  next htxs =>
  simp only [not_or, WITNESS_SCALE_FACTOR, MAX_BLOCK_WEIGHT] at hlength
  refine ⟨by omega, ?_, checkTransactions_checked htxs⟩
  cases hvtx : block.vtx with
  | nil => simp [hvtx] at hlength
  | cons coinbase rest =>
    simp only [hvtx, head?_cons, Option.any_some, Bool.not_eq_true', Bool.not_eq_false] at hfirst
    simp only [hvtx, tail_cons, any_eq_true, not_exists, not_and, Bool.not_eq_true] at hothers
    exact ⟨coinbase, rest, rfl, hfirst, hothers⟩

variable (hwf : view.view.WellFormed) (hshows : enforcesBIP30 env.params pindex = true ∨
  ∀ tx ∈ block.vtx, ∀ entry ∈ tx.creates env pindex.nHeight, view.Shows entry.1)

include hwf hshows

/-- `ConnectBlock` after the best block was compared, on a view that shows the
outputs of the block unless they are searched. -/
theorem connectBody_spec (hblock : block.Checked)
    (hconnect : connectBody env block pindex view = .ok (blockundo, view')) :
    0 < pindex.nHeight ∧ ∃ coinbase rest fees after,
      block.Applies env pindex.nHeight blockundo coinbase rest fees view.view.utxo after ∧
      CacheView.Steps view view' after ∧
      (enforcesBIP30 env.params pindex = true → ∀ tx ∈ block.vtx,
        ∀ entry ∈ tx.creates env pindex.nHeight, view.view.utxo entry.1 = none) := by
  obtain ⟨coinbase, rest, hvtx, hcoinbase, hrest⟩ := hblock.first
  have hcbChecked := hblock.txs coinbase (by simp [hvtx])
  unfold connectBody at hconnect
  split at hconnect
  · cases hconnect
  next hpprev =>
  have hpos : 0 < pindex.nHeight := by
    cases pindex with
    | nil => simp [CBlockIndex.pprev] at hpprev
    | cons hash pprev => exact length_pos_iff.mpr (by simpa [CBlockIndex.pprev] using hpprev)
  refine ⟨hpos, ?_⟩
  obtain ⟨_, hsearched, hsteps, hsearch⟩ := exists_searched env block pindex hwf
  simp only [← hsearched] at hconnect
  split at hconnect
  · cases hconnect
  next hnotFound =>
  have hnone := hsearch (by simpa using hnotFound)
  have hshown : ∀ tx ∈ block.vtx, ∀ entry ∈ tx.creates env pindex.nHeight, view.Shows entry.1 := by
    intro tx htx entry hentry
    rcases hshows with henforce | hshows
    · exact CacheView.shows_of_utxo_eq_none (hnone henforce tx htx entry hentry)
    · exact hshows tx htx entry hentry
  rw [hvtx, connectTxs] at hconnect
  split at hconnect
  · cases hconnect
  next state hloop =>
  split at hloop
  · cases hloop
  next first hfirst =>
  obtain ⟨hfirstSteps, hfirstFees, hfirstUndo⟩ :=
    connectTx_coinbase hsteps hcbChecked hcoinbase hfirst
  obtain ⟨undos, fees, after, hall, hrestSteps, hfees, -, hundo⟩ :=
    connectTxs_spec (fun tx htx => ⟨hblock.txs tx (by simp [hvtx, htx]), hrest tx htx,
      hshown tx (by simp [hvtx, htx])⟩) Nat.one_pos hfirstSteps hloop
  split at hconnect
  · cases hconnect
  next blockReward hreward =>
  simp only [head?_cons, Option.map_some, Option.getD_some, getValueOut_eq hcbChecked] at hconnect
  split at hconnect
  · cases hconnect
  next hamount =>
  cases hconnect
  have hsum := eq_add_of_addAmount hreward
  rw [hfees, hfirstFees, zero_add] at hsum
  have hundos : state.vtxundo = undos := by
    rw [hundo, hfirstUndo, pushUndo, if_neg (by omega), nil_append]
  exact ⟨coinbase, rest, fees, after,
    ⟨hvtx, hcoinbase, hcbChecked, by rw [hundos]; exact hall, by omega⟩, hrestSteps, hnone⟩

/-- `ConnectBlock` of a block other than the genesis block. -/
theorem connectBlock_spec
    (hconnect : connectBlock env block pindex view = .ok (some blockundo, view')) :
    block.Checked ∧ 0 < pindex.nHeight ∧ view.view.bestBlock = pindex.pprev.getBlockHash ∧
      ∃ coinbase rest fees after,
        block.Applies env pindex.nHeight blockundo coinbase rest fees view.view.utxo after ∧
        CacheView.Steps view view' after ∧
        (enforcesBIP30 env.params pindex = true → ∀ tx ∈ block.vtx,
          ∀ entry ∈ tx.creates env pindex.nHeight, view.view.utxo entry.1 = none) := by
  obtain ⟨hbest, hasked⟩ := CacheView.getBestBlock_steps hwf
  unfold connectBlock at hconnect
  split at hconnect
  · cases hconnect
  split at hconnect
  · cases hconnect
  next hcheck =>
  have hblock := checkBlock_checked hcheck
  simp only at hconnect
  split at hconnect
  · cases hconnect
  next hprev =>
  split at hconnect
  · cases hconnect
  split at hconnect
  · cases hconnect
  next undo body hbody =>
  obtain ⟨hundo, rfl⟩ := Prod.mk.inj (Except.ok.inj hconnect)
  cases hundo
  obtain ⟨hpos, coinbase, rest, fees, after, happlies, hsteps, hnone⟩ :=
    connectBody_spec hasked.wellFormed (hshows.imp_right fun hshows tx htx entry hentry =>
        hasked.shows_of _ (hshows tx htx entry hentry)) hblock hbody
  rw [hasked.utxo_eq] at happlies hnone
  exact ⟨hblock, hpos, hbest.symm.trans (not_not.mp hprev).symm, coinbase, rest, fees,
    after, happlies, CacheView.setBestBlock_steps (hasked.trans hsteps) _, hnone⟩

end BtcSharp
