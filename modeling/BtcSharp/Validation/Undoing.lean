/-
# Undoing a block

The loops of `DisconnectBlock` apply the undo logs of the block's transactions to any
view, and they report a clean result when every output is found as it was created
and every restored coin is missing. On a map the undo log of a transaction inverts its
log, so disconnecting a block that was just connected is clean and gives back the
coins and the best block there were before.
-/

import BtcSharp.Validation.Connect
import BtcSharp.Coins.Refinement

namespace BtcSharp

open Math CTransaction Function List

/-! ## Mined coins -/

/-- A coin of a block after the genesis block. -/
structure Coin.Mined (coin : Coin) : Prop extends Coin.Valid coin where
  mined : 0 < coin.nHeight

variable {coin : Coin} {tx coinbase : CTransaction} {env : ChainEnv} {nHeight : Nat}
  {txs rest : List CTransaction} {undos : List CTxUndo} {fees : Int} {before after : UtxoMap}
    {block : CBlock}
  {blockundo : CBlockUndo}

theorem Coin.Mined.isSpent (h : coin.Mined) : coin.isSpent = false := by
  have hnonneg := (moneyRange_iff.mp h.value).1
  simp only [Coin.isSpent, CTxOut.isNull, beq_eq_false_iff_ne]
  omega

/-- Every coin of the map was mined. -/
def UtxoMap.Mined (map : UtxoMap) : Prop := ∀ outpoint coin, map outpoint = some coin → coin.Mined

/-- The coins a transaction creates are mined. -/
theorem CTransaction.Checked.mined_creates (h : tx.Checked) (hmined : 0 < nHeight)
    (hheight : nHeight < 2 ^ 31)
    {outpoint : COutPoint} (hmem : (outpoint, coin) ∈ tx.creates env nHeight) : coin.Mined := by
  obtain ⟨-, txout, -, -, -, htxout, hscript, rfl⟩ := mem_outputCoins hmem
  have hfield := Nat.mod_eq_of_lt hheight
  exact ⟨⟨hfield.trans_lt hheight, h.values txout htxout, hscript⟩, hmined.trans_eq hfield.symm⟩

/-- A map written to keeps a property of its coins if what is written has it. -/
theorem applyWrites_forall {P : Coin → Prop} {map : UtxoMap}
    {log : List (COutPoint × Option Coin)} (hmap : ∀ outpoint coin, map outpoint = some coin →
      P coin)
    (hlog : ∀ outpoint coin, (outpoint, some coin) ∈ log → P coin) :
    ∀ outpoint coin, applyWrites map log outpoint = some coin → P coin := by
  induction log generalizing map with
  | nil => exact hmap
  | cons entry rest ih =>
    rw [applyWrites_cons]
    apply ih
    · intro outpoint coin hcoin
      by_cases heq : outpoint = entry.1
      · rw [heq, update_self] at hcoin
        apply hlog entry.1 coin
        rw [← hcoin]
        exact mem_cons_self
      · rw [update_of_ne heq] at hcoin
        exact hmap outpoint coin hcoin
    · exact fun outpoint coin hmem => hlog outpoint coin (mem_cons_of_mem _ hmem)

/-- What a transaction's log writes, it creates. -/
theorem CTransaction.mem_creates_of_redoLog
    {outpoint : COutPoint} (h : (outpoint, some coin) ∈ tx.redoLog env nHeight) :
    (outpoint, coin) ∈ tx.creates env nHeight := by
  simpa [redoLog, unbindLog, bindLog] using h

theorem UtxoMap.Mined.redo {map : UtxoMap} (h : map.Mined) (htx : tx.Checked) (hmined : 0 < nHeight)
    (hheight : nHeight < 2 ^ 31) : UtxoMap.Mined (applyWrites map (tx.redoLog env nHeight)) :=
  applyWrites_forall h fun _ _ hmem =>
    htx.mined_creates hmined hheight (mem_creates_of_redoLog hmem)

/-! ## Undoing on a map -/

theorem CTransaction.Checked.nodup_spends (h : tx.Checked) : tx.spends.Nodup := by
  unfold spends
  split
  · exact nodup_nil
  · exact h.nodup

namespace CTransaction.Applies

variable {map : UtxoMap} {vprevout : List Coin}

section

variable (h : tx.Applies env nHeight map vprevout)

include h

theorem length_eq : tx.spends.length = vprevout.length := by
  simpa using (congrArg length h.coins).symm

theorem map_fst_zip : (tx.spends.zip vprevout).map Prod.fst = tx.spends :=
  List.map_fst_zip (le_of_eq h.length_eq)

/-- The undo data pairs each input with the coin it had. -/
theorem eq_of_mem_zip {outpoint : COutPoint} (hmem : (outpoint, coin) ∈ tx.spends.zip vprevout) :
    map outpoint = some coin := by
  obtain ⟨i, hi, heq⟩ := mem_iff_getElem.mp hmem
  rw [length_zip] at hi
  have hcoins := congrArg (fun coins => coins[i]?) h.coins
  simp only [getElem_zip, Prod.mk.injEq] at heq
  rw [← heq.1, ← heq.2]
  simpa [getElem?_eq_getElem (show i < tx.spends.length by omega),
    getElem?_eq_getElem (show i < vprevout.length by omega)] using hcoins.symm

/-- Undoing a transaction gives back the map it was applied to. -/
theorem undo_redo :
    applyWrites (applyWrites map (tx.redoLog env nHeight)) (tx.undoLog env nHeight vprevout) =
      map := by
  funext outpoint
  rw [undoLog, applyWrites_append]
  have hnodup : ((tx.spends.zip vprevout).reverse.map Prod.fst).Nodup := by
    rw [map_reverse, h.map_fst_zip]
    exact nodup_reverse.mpr h.checked.nodup_spends
  by_cases hspent : outpoint ∈ tx.spends
  · rw [← h.map_fst_zip] at hspent
    obtain ⟨⟨outpoint, _⟩, hmem, rfl⟩ := mem_map.mp hspent
    rw [applyWrites_bindLog_of_mem hnodup _ (mem_reverse.mpr hmem), h.eq_of_mem_zip hmem]
  rw [applyWrites_bindLog_of_notMem _ (by rwa [map_reverse, mem_reverse, h.map_fst_zip]),
    applyWrites_unbindLog]
  split
  · next hcreated =>
      obtain ⟨entry, hentry, rfl⟩ := mem_map.mp hcreated
      have hfresh := h.fresh entry hentry
      rwa [applyWrites_unbindLog, if_neg hspent, eq_comm] at hfresh
  · next hcreated =>
    rw [redoLog, applyWrites_append, applyWrites_bindLog_of_notMem _ hcreated,
      applyWrites_unbindLog, if_neg hspent]

/-- The outputs are there right after the transaction was applied. -/
theorem created : ∀ entry ∈ tx.creates env nHeight,
      applyWrites map (tx.redoLog env nHeight) entry.1 = some entry.2 := by
  intro entry hentry
  rw [redoLog, applyWrites_append]
  exact applyWrites_bindLog_of_mem (nodup_outputCoins h.checked.length_vout) _ hentry

end

/-- The inputs are not there when the outputs have been removed again. -/
theorem missing (tx : CTransaction) (env : ChainEnv) (nHeight : Nat) (map : UtxoMap) :
    ∀ outpoint ∈ tx.spends, applyWrites (applyWrites map (tx.redoLog env nHeight))
      (unbindLog ((tx.creates env nHeight).map Prod.fst)) outpoint = none := by
  intro outpoint hspent
  rw [applyWrites_unbindLog]
  split
  · rfl
  next hcreated =>
  rw [redoLog, applyWrites_append, applyWrites_bindLog_of_notMem _ hcreated,
    applyWrites_unbindLog, if_pos hspent]

/-- The undo data of a transaction on a map of mined coins is made of mined coins. -/
theorem mined (h : tx.Applies env nHeight map vprevout) (hmap : map.Mined) :
    ∀ coin ∈ vprevout, coin.Mined := by
  intro coin hcoin
  have hmem : some coin ∈ tx.spends.map map := by
    rw [← h.coins]
    exact mem_map_of_mem hcoin
  obtain ⟨outpoint, -, heq⟩ := mem_map.mp hmem
  exact hmap outpoint coin heq

end CTransaction.Applies

/-! ## The loops of `DisconnectBlock` -/

variable {start view : CacheView} {map : UtxoMap} {pindex : CBlockIndex} {enforce fClean : Bool}

/-- Removing outputs unbinds them, and is clean if they are as they were created. -/
theorem removeOutputs_spec {txid : Uint256} {is_coinbase exception : Bool} {vout : List CTxOut}
    (hheight : nHeight < 2 ^ 31) :
    ∀ {o : Nat} {fClean : Bool} {view : CacheView} {map : UtxoMap}, o + vout.length ≤ 2 ^ 32 →
      CacheView.Steps start view map →
      CacheView.Steps start (removeOutputs txid nHeight is_coinbase exception vout o fClean view).2
          (applyWrites map (unbindLog ((outputCoins txid nHeight is_coinbase vout o).map Prod.fst)))
            ∧
        ((∀ entry ∈ outputCoins txid nHeight is_coinbase vout o, map entry.1 = some entry.2) →
          (removeOutputs txid nHeight is_coinbase exception vout o fClean view).1 = fClean) := by
  induction vout with
  | nil => exact fun _ h => ⟨h, fun _ => rfl⟩
  | cons txout rest ih =>
    intro o fClean view map hbound h
    rw [length_cons] at hbound
    rw [removeOutputs, outputCoins]
    split
    · exact ih (by omega) h
    obtain ⟨-, hsteps⟩ := CacheView.spendCoin_steps h (outPointAt txid o)
    have hreturns := fun coin => @CacheView.spendCoin_eq_some view (outPointAt txid o) coin _ _ h
    rcases hcall : view.spendCoin (outPointAt txid o) with ⟨moved, mid⟩
    rw [hcall] at hsteps hreturns
    simp only at hsteps hreturns ⊢
    obtain ⟨hrest, hclean⟩ := @ih (o + 1) (fClean && (!(moved.isNone ||
      txout != (moved.getD .empty).out || nHeight != (moved.getD .empty).nHeight ||
      is_coinbase != (moved.getD .empty).fCoinBase) || exception)) mid _ (by omega) hsteps
    refine ⟨hrest, ?_⟩
    intro hthere
    rw [forall_mem_cons] at hthere
    have hlater : ∀ entry ∈ outputCoins txid nHeight is_coinbase rest (o + 1),
        update map (outPointAt txid o) none entry.1 = some entry.2 := by
      intro entry hentry
      rw [update_of_ne (ne_outPointAt_of_mem_outputCoins (by omega) hentry)]
      exact hthere.2 entry hentry
    have hfield : nHeight % 2147483648 = nHeight := Nat.mod_eq_of_lt hheight
    rw [hclean hlater, hreturns _ hthere.1]
    simp [Coin.ofTxOut, hfield]

/-- `ApplyTxInUndo` of a mined coin. -/
theorem applyTxInUndo_spec {undo : Coin} {view : CacheView} {out : COutPoint}
    (h : CacheView.Steps start view map) (hmined : undo.Mined) :
    ∃ view', applyTxInUndo undo view out = .ok (if (map out).isSome
        then .DISCONNECT_UNCLEAN else .DISCONNECT_OK, view') ∧
      CacheView.Steps start view' (update map out (some undo)) := by
  obtain ⟨hhave, hsteps⟩ := CacheView.haveCoin_steps h out
  have hfree : (view.haveCoin out).1 = false → map out = none := by
    intro hnone
    have hisSome := hhave.symm.trans hnone
    simpa using hisSome
  obtain ⟨view', hadd, haddSteps⟩ := CacheView.addCoin_steps hsteps hmined.isSpent hfree
  rw [CacheView.bindCoin, if_neg (by simp [hmined.script])] at haddSteps
  refine ⟨view', ?_, haddSteps⟩
  have hheight := Nat.pos_iff_ne_zero.mp hmined.mined
  rw [applyTxInUndo]
  simp only [if_neg hheight]
  rw [hadd, hhave]

/-- Restoring inputs binds their coins, and is clean if they were missing. -/
theorem restoreInputs_spec {inputs : List (CTxIn × Coin)} :
    ∀ {fClean : Bool} {view : CacheView} {map : UtxoMap}, CacheView.Steps start view map →
      (∀ input ∈ inputs, input.2.Mined) →
      ∃ clean view', restoreInputs inputs fClean view = .ok (some (clean, view')) ∧
        CacheView.Steps start view' (applyWrites map
          (bindLog (inputs.map fun input => (input.1.prevout, input.2)))) ∧
        ((inputs.map (·.1.prevout)).Nodup →
          (∀ input ∈ inputs, map input.1.prevout = none) → clean = fClean) := by
  induction inputs with
  | nil => exact fun {fClean view _} h _ => ⟨fClean, view, rfl, h, fun _ _ => rfl⟩
  | cons input rest ih =>
    intro fClean view map h hmined
    rw [forall_mem_cons] at hmined
    obtain ⟨mid, happly, hsteps⟩ := @applyTxInUndo_spec _ _ input.2 view input.1.prevout h hmined.1
    obtain ⟨clean, view', hrest, hrestSteps, hclean⟩ :=
      @ih (fClean && !(map input.1.prevout).isSome) mid _ hsteps hmined.2
    refine ⟨clean, view', ?_, hrestSteps, ?_⟩
    · rw [restoreInputs, happly]
      cases hthere : (map input.1.prevout).isSome with
      | true | false => simpa [hthere] using hrest
    intro hnodup hmissing
    rw [map_cons, nodup_cons] at hnodup
    rw [forall_mem_cons] at hmissing
    rw [hclean hnodup.2, hmissing.1]
    · simp
    intro other hother
    have hne : other.1.prevout ≠ input.1.prevout := fun heq =>
      hnodup.1 (heq ▸ mem_map_of_mem (f := fun input => input.1.prevout) hother)
    rw [update_of_ne hne]
    exact hmissing.2 other hother

/-- Undoing a coinbase. -/
theorem disconnectTx_coinbase (h : CacheView.Steps start view map) (htx : tx.Checked)
    (hheight : pindex.nHeight < 2 ^ 31) (hcoinbase : tx.isCoinBase = true) :
    ∃ clean view', disconnectTx env pindex enforce tx none fClean view = .ok (some (clean, view')) ∧
      CacheView.Steps start view' (applyWrites map (tx.undoLog env pindex.nHeight [])) ∧
      ((∀ entry ∈ tx.creates env pindex.nHeight, map entry.1 = some entry.2) → clean = fClean) := by
  have hremove := @removeOutputs_spec _ _ (env.txid tx) tx.isCoinBase
    (tx.isCoinBase && !enforce) tx.vout hheight 0 fClean view map htx.length_vout h
  refine ⟨_, _, rfl, ?_, hremove.2⟩
  rw [undoLog, spends_of_isCoinBase hcoinbase, zip_nil_left]
  exact (append_nil _).symm ▸ hremove.1

/-- Undoing another transaction with as many mined coins as it has inputs. -/
theorem disconnectTx_spends {txundo : CTxUndo} (h : CacheView.Steps start view map)
    (htx : tx.Checked) (hheight : pindex.nHeight < 2 ^ 31) (hcoinbase : tx.isCoinBase = false)
    (hlength : tx.spends.length = txundo.vprevout.length)
    (hmined : ∀ coin ∈ txundo.vprevout, coin.Mined) :
    ∃ clean view', disconnectTx env pindex enforce tx (some txundo) fClean view = .ok
      (some (clean, view')) ∧
      CacheView.Steps start view'
        (applyWrites map (tx.undoLog env pindex.nHeight txundo.vprevout)) ∧
      ((∀ entry ∈ tx.creates env pindex.nHeight, map entry.1 = some entry.2) →
        (∀ outpoint ∈ tx.spends, applyWrites map
          (unbindLog ((tx.creates env pindex.nHeight).map Prod.fst)) outpoint = none) →
        clean = fClean) := by
  have hspends := spends_of_not_isCoinBase hcoinbase
  have hremove := @removeOutputs_spec _ _ (env.txid tx) tx.isCoinBase
    (tx.isCoinBase && !enforce) tx.vout hheight 0 fClean view map htx.length_vout h
  rcases hcall : removeOutputs (env.txid tx) pindex.nHeight tx.isCoinBase
    (tx.isCoinBase && !enforce) tx.vout 0 fClean view with ⟨removedClean, mid⟩
  rw [hcall] at hremove
  simp only at hremove
  obtain ⟨hsteps, hremoveClean⟩ := hremove
  have hcount : txundo.vprevout.length = tx.vin.length := by
    rw [← hlength, hspends, length_map]
  obtain ⟨clean, view', hrestore, hrestoreSteps, hclean⟩ :=
    @restoreInputs_spec _ (tx.vin.zip txundo.vprevout).reverse removedClean mid _ hsteps
      fun input hinput => hmined _ (of_mem_zip (mem_reverse.mp hinput)).2
  have hpairs : (tx.vin.zip txundo.vprevout).reverse.map
      (fun input => (input.1.prevout, input.2)) = (tx.spends.zip txundo.vprevout).reverse := by
    rw [hspends, zip_map_left, map_reverse]
    rfl
  have hprevouts : (tx.vin.zip txundo.vprevout).reverse.map (·.1.prevout) =
      tx.spends.reverse := by
    rw [← map_fst_zip (le_of_eq hlength), ← map_reverse, ← hpairs, map_map]
    rfl
  refine ⟨clean, view', ?_, ?_, ?_⟩
  · simp only [disconnectTx, hcall]
    rw [if_neg (not_not.mpr hcount)]
    exact hrestore
  · rw [hpairs] at hrestoreSteps
    rwa [undoLog, applyWrites_append]
  intro hthere hmissing
  rw [hprevouts] at hclean
  rw [hclean (nodup_reverse.mpr htx.nodup_spends), hremoveClean hthere]
  intro input hinput
  apply hmissing
  rw [hspends]
  exact mem_map_of_mem (of_mem_zip (mem_reverse.mp hinput)).1

theorem disconnectTxs_append {pindex : CBlockIndex} {enforce : Bool}
    {first second : List (CTransaction × Option CTxUndo)} {fClean clean : Bool}
    {view mid : CacheView}
    (hfirst : disconnectTxs env pindex enforce first fClean view = .ok (some (clean, mid))) :
    disconnectTxs env pindex enforce (first ++ second) fClean view =
      disconnectTxs env pindex enforce second clean mid := by
  induction first generalizing fClean view with
  | nil =>
    obtain ⟨rfl, rfl⟩ : fClean = clean ∧ view = mid := by simpa [disconnectTxs] using hfirst
    rfl
  | cons head rest ih =>
    obtain ⟨_, _⟩ := head
    rw [disconnectTxs] at hfirst
    rw [cons_append, disconnectTxs]
    split at hfirst
    · cases hfirst
    · cases hfirst
    · next hhead => exact ih hfirst

theorem AppliesAll.length_eq
    (h : AppliesAll env nHeight txs undos fees before after) : txs.length = undos.length := by
  induction h with
  | nil => rfl
  | cons _ _ _ ih => rw [length_cons, length_cons, ih]

/-- The undo logs of transactions that applied one after the other invert them. -/
theorem AppliesAll.undo_redo (h : AppliesAll env nHeight txs undos fees before after) :
    applyWrites after (undoLogs env nHeight (txs.zip (undos.map some)).reverse) = before := by
  induction h with
  | nil map => rfl
  | @cons tx rest txundo later fees map after hcoinbase happlies hall ih =>
    rw [map_cons, zip_cons_cons, reverse_cons, undoLogs, flatMap_append,
      applyWrites_append]
    have hrest : applyWrites after ((rest.zip (later.map some)).reverse.flatMap fun pair =>
        pair.1.undoLog env nHeight ((pair.2.map (·.vprevout)).getD [])) =
        applyWrites map (tx.redoLog env nHeight) := ih
    rw [hrest, flatMap_singleton]
    exact happlies.undo_redo

/-- The loop undoes transactions that applied one after the other, last one first. It
does so on any view, and cleanly on one that shows what they led to. -/
theorem AppliesAll.disconnect
    (h : AppliesAll env pindex.nHeight txs undos fees before after) (hmined : before.Mined)
    (hpos : 0 < pindex.nHeight) (hheight : pindex.nHeight < 2 ^ 31) :
    ∀ {fClean : Bool} {view : CacheView} {now : UtxoMap}, CacheView.Steps start view now →
      ∃ clean view', disconnectTxs env pindex enforce (txs.zip (undos.map some)).reverse fClean
          view = .ok (some (clean, view')) ∧
        CacheView.Steps start view' (applyWrites now
          (undoLogs env pindex.nHeight (txs.zip (undos.map some)).reverse)) ∧
        (now = after → clean = fClean) := by
  induction h with
  | nil map => exact fun {fClean view _} h => ⟨fClean, view, rfl, h, fun _ => rfl⟩
  | @cons tx rest txundo later fees map after hcoinbase happlies hall ih =>
    intro fClean view now h
    obtain ⟨midClean, mid, hrest, hmid, hmidClean⟩ :=
      @ih (hmined.redo happlies.checked hpos hheight) fClean view now h
    obtain ⟨clean, view', htx, hsteps, hclean⟩ := @disconnectTx_spends tx env _ mid _ pindex
      enforce midClean txundo hmid happlies.checked hheight hcoinbase
      happlies.length_eq (happlies.mined hmined)
    refine ⟨clean, view', ?_, ?_, ?_⟩
    · rw [map_cons, zip_cons_cons, reverse_cons, disconnectTxs_append hrest, disconnectTxs, htx]
      rfl
    · rw [← applyWrites_append] at hsteps
      rwa [map_cons, zip_cons_cons, reverse_cons, undoLogs, flatMap_append, flatMap_singleton]
    rintro rfl
    rw [hall.undo_redo] at hclean
    rw [hclean happlies.created (CTransaction.Applies.missing tx env _ map), hmidClean rfl]

/-! ## The undo data -/

/-- The undo data of an accepted block is read back. -/
theorem AppliesAll.undo_valid (h : AppliesAll env nHeight txs undos fees before after)
    (hmined : before.Mined) (hpos : 0 < nHeight) (hheight : nHeight < 2 ^ 31) :
    ∀ txundo ∈ undos, txundo.vprevout.length ≤ MAX_SIZE ∧ ∀ coin ∈ txundo.vprevout, coin.Mined := by
  induction h with
  | nil => simp
  | @cons tx rest txundo later fees map after hcoinbase happlies hall ih =>
    intro other hother
    rcases mem_cons.mp hother with rfl | hlater
    · refine ⟨?_, happlies.mined hmined⟩
      have hcount := happlies.checked.length_le.1
      rw [← happlies.length_eq, spends_of_not_isCoinBase hcoinbase, length_map, MAX_SIZE]
      omega
    · exact ih (hmined.redo happlies.checked hpos hheight) other hlater

section

variable (h : block.Applies env nHeight blockundo coinbase rest fees before after)

include h

theorem CBlock.Applies.coinbase_mem : coinbase ∈ block.vtx := by
  rw [h.vtx]
  exact mem_cons_self

/-- A coinbase fits a map without its outputs. -/
theorem CBlock.Applies.coinbase_applies
    (hfresh : ∀ entry ∈ coinbase.creates env nHeight, before entry.1 = none) :
    coinbase.Applies env nHeight before [] := by
  have hspends := spends_of_isCoinBase h.isCoinBase
  refine ⟨h.checked, by rw [hspends]; rfl, ?_⟩
  rw [hspends]
  exact hfresh

/-- The transactions of an accepted block, last one first. -/
theorem CBlock.Applies.reverse_pairUndo : (pairUndo block blockundo).reverse =
      (rest.zip (blockundo.vtxundo.map some)).reverse ++ [(coinbase, none)] := by
  rw [pairUndo, h.vtx, zip_cons_cons, reverse_cons]

/-- On a map, undoing an accepted block inverts it. -/
theorem CBlock.Applies.undo_redo
    (hnone : ∀ tx ∈ block.vtx, ∀ entry ∈ tx.creates env nHeight, before entry.1 = none) :
    applyWrites after (undoLogs env nHeight (pairUndo block blockundo).reverse) = before := by
  rw [h.reverse_pairUndo, undoLogs, flatMap_append, applyWrites_append]
  have hrest := h.spends.undo_redo
  rw [undoLogs] at hrest
  rw [hrest, flatMap_singleton]
  exact (h.coinbase_applies (hnone coinbase h.coinbase_mem)).undo_redo

end

/-- Undoing an accepted block on any view, and cleanly on one that shows what it led
to. -/
theorem CBlock.Applies.disconnect
    (h : block.Applies env pindex.nHeight blockundo coinbase rest fees before after)
    (hnone : ∀ tx ∈ block.vtx, ∀ entry ∈ tx.creates env pindex.nHeight, before entry.1 = none)
    (hmined : before.Mined) (hpos : 0 < pindex.nHeight) (hheight : pindex.nHeight < 2 ^ 31)
    (hview : CacheView.Steps start view map) :
    ∃ clean last, disconnectBlock env block pindex blockundo view =
        .ok (if clean then .DISCONNECT_OK else .DISCONNECT_UNCLEAN,
          some (last.setBestBlock pindex.pprev.getBlockHash)) ∧
      CacheView.Steps start last (applyWrites map
        (undoLogs env pindex.nHeight (pairUndo block blockundo).reverse)) ∧
      (map = after → clean = true) := by
  have hcoinbase := h.coinbase_applies (hnone coinbase h.coinbase_mem)
  obtain ⟨midClean, mid, hrest, hmid, hmidClean⟩ := @AppliesAll.disconnect env rest
    blockundo.vtxundo fees _ after _ pindex (!isBIP30Unspendable pindex) h.spends
    (hmined.redo h.checked hpos hheight) hpos hheight true view map hview
  obtain ⟨clean, last, hfirst, hsteps, hclean⟩ := @disconnectTx_coinbase coinbase env _ mid _ pindex
    (!isBIP30Unspendable pindex) midClean hmid h.checked hheight h.isCoinBase
  refine ⟨clean, last, ?_, ?_, ?_⟩
  · rw [disconnectBlock, if_neg (by rw [h.vtx, length_cons, h.spends.length_eq]; simp),
      h.reverse_pairUndo, disconnectTxs_append hrest, disconnectTxs, hfirst]
    rfl
  · rw [← applyWrites_append] at hsteps
    rwa [h.reverse_pairUndo, undoLogs, flatMap_append, flatMap_singleton]
  rintro rfl
  rw [h.spends.undo_redo] at hclean
  rw [hclean hcoinbase.created, hmidClean rfl]

/-- No output of a block is there already. -/
theorem fresh_of_bip30 (nHeight : Nat)
    (h : ∀ tx ∈ block.vtx, ∀ i < tx.vout.length, before (outPointAt (env.txid tx) i) = none) :
    ∀ tx ∈ block.vtx, ∀ entry ∈ tx.creates env nHeight, before entry.1 = none := by
  intro tx htx entry hentry
  obtain ⟨j, -, -, hj, heq, -⟩ := mem_outputCoins hentry
  rw [heq]
  exact h tx htx j (by omega)

/-- Disconnecting a block undoes connecting it. The view is a stack of caches over a
database of mined coins, and the block is not one that is let through although it
overwrites coins: its outputs are searched, or none of them is there. -/
theorem disconnectBlock_connectBlock {env : ChainEnv} {block : CBlock} {pindex : CBlockIndex}
    {view view' : CacheView} {blockundo : CBlockUndo} (hwf : view.view.WellFormed)
    (hmined : UtxoMap.Mined view.view.utxo) (hheight : pindex.nHeight < 2 ^ 31)
    (hbip30 : enforcesBIP30 env.params pindex = true ∨ ∀ tx ∈ block.vtx, ∀ i < tx.vout.length,
      view.view.utxo (outPointAt (env.txid tx) i) = none)
    (hconnect : connectBlock env block pindex view = .ok (some blockundo, view')) :
    ∃ reread, unserBlockUndo env.curve (serBlockUndo env.curve blockundo) = .ok (reread, []) ∧
      ∃ view'', disconnectBlock env block pindex reread view' = .ok (.DISCONNECT_OK, some view'') ∧
        view''.view.utxo = view.view.utxo ∧ view''.view.bestBlock = view.view.bestBlock := by
  have hsearched := hbip30.imp_right (fresh_of_bip30 pindex.nHeight)
  obtain ⟨hblock, hpos, hbest, _, _, _, _, happlies, hsteps, hnone⟩ :=
    connectBlock_spec hwf (hsearched.imp_right fun hnone tx htx entry hentry =>
      CacheView.shows_of_utxo_eq_none (hnone tx htx entry hentry)) hconnect
  have hfresh : ∀ tx ∈ block.vtx, ∀ entry ∈ tx.creates env pindex.nHeight,
      view.view.utxo entry.1 = none := hsearched.elim hnone id
  have hvalid := happlies.spends.undo_valid (hmined.redo happlies.checked hpos hheight) hpos hheight
  have hread := @unserBlockUndo_reads env.curve blockundo (by
      have hcount := hblock.count
      rw [happlies.vtx, length_cons, happlies.spends.length_eq] at hcount
      rw [MAX_SIZE]
      omega)
    (fun txundo htxundo => (hvalid txundo htxundo).1)
    (fun txundo htxundo coin hcoin => ((hvalid txundo htxundo).2 coin hcoin).toValid)
  refine ⟨blockundo, by simpa using hread [], ?_⟩
  obtain ⟨_, _, hdisconnect, hlast, hclean⟩ :=
    happlies.disconnect hfresh hmined hpos hheight hsteps
  rw [happlies.undo_redo hfresh] at hlast
  rw [hclean rfl] at hdisconnect
  refine ⟨_, hdisconnect, hlast.utxo_eq, ?_⟩
  have hbase := hlast.base_best
  rw [hbest]
  refine (CoinsView.bestBlock_cache _ _).trans ?_
  split
  · next hnull =>
    have hzero : pindex.pprev.getBlockHash = 0 := Uint256.isNull_iff.mp hnull
    rw [CacheView.view, CoinsView.bestBlock_cache] at hbest
    rw [CacheView.setBestBlock, hbase, hzero]
    split at hbest
    · exact hbest.trans hzero
    · next hset => exact absurd (Uint256.isNull_iff.mpr (hbest.trans hzero)) hset
  · rfl

/-! ## A block with a spend -/

/-- A node whose hash function keeps the first byte, and whose other checks pass. -/
def sampleEnv : ChainEnv where
  params := ⟨150, 1, 0, 2⟩
  curve := .empty
  hash256 bytes := BitVec.ofNat 256 (bytes.headD 0).toNat
  checkHeader _ := true
  getLegacySigOpCount _ := 0
  getTransactionSigOpCost _ _ _ := 0
  sequenceLocks _ _ _ := true
  checkInputScripts _ _ _ := true

def sampleCoin : Coin := ⟨⟨10, []⟩, false, 1⟩

/-- A block whose only transaction takes the whole subsidy. -/
def sampleBlockOf (nVersion : UInt32) : CBlock where
  header := ⟨nVersion, 0, 0, 0, 0, 0⟩
  vtx := [⟨[⟨⟨0, COutPoint.NULL_INDEX⟩, [0, 0], 0, []⟩], [⟨50 * COIN, []⟩], nVersion, 0⟩]

/-- A coinbase and a transaction that spends the coin and pays a fee. -/
def sampleBlock : CBlock where
  header := ⟨80, 7, 0, 0, 0, 0⟩
  vtx := [⟨[⟨⟨0, COutPoint.NULL_INDEX⟩, [0, 0], 0, []⟩], [⟨3 * COIN, []⟩], 3, 0⟩,
    ⟨[⟨⟨5, 0⟩, [], 0, []⟩], [⟨9, []⟩], 4, 0⟩]

/-- An empty cache over a database that holds the coin. -/
def sampleView : CacheView :=
  ⟨{}, .db { coins := fun outpoint => if outpoint = ⟨5, 0⟩ then some sampleCoin else none,
             bestBlock := some 7 }⟩

theorem sampleView_mined : UtxoMap.Mined sampleView.view.utxo := by
  intro outpoint coin hcoin
  have hsome : (if outpoint = ⟨5, 0⟩ then some sampleCoin else none) = some coin := hcoin
  obtain ⟨-, rfl⟩ : outpoint = ⟨5, 0⟩ ∧ sampleCoin = coin := by simpa using hsome
  exact ⟨⟨by decide, by decide, by decide⟩, by decide⟩

theorem sampleView_wellFormed : sampleView.view.WellFormed :=
  CoinsView.IsFresh.wellFormed ⟨fun _ => rfl, rfl, fun outpoint coin hcoin =>
    (sampleView_mined outpoint coin hcoin).isSpent⟩

theorem exists_eq_ok_of_map_fst {ε α β : Type} {result : Except ε (α × β)} {value : α}
    (h : result.toOption.map Prod.fst = some value) : ∃ other, result = .ok (value, other) := by
  cases result with
  | error err => cases h
  | ok pair => exact ⟨pair.2, by rw [← Option.some.inj h]⟩

/-- The sample block is connected and disconnected again. -/
theorem disconnectBlock_connectBlock_sample :
        ∃ view', connectBlock sampleEnv sampleBlock [80, 7] sampleView =
        .ok (some ⟨[⟨[sampleCoin]⟩]⟩, view') ∧
      ∃ reread, unserBlockUndo sampleEnv.curve
          (serBlockUndo sampleEnv.curve ⟨[⟨[sampleCoin]⟩]⟩) = .ok (reread, []) ∧
        ∃ view'', disconnectBlock sampleEnv sampleBlock [80, 7] reread view' =
            .ok (.DISCONNECT_OK, some view'') ∧
          view''.view.utxo = sampleView.view.utxo ∧
          view''.view.bestBlock = sampleView.view.bestBlock := by
  obtain ⟨view', hconnect⟩ : ∃ view', connectBlock sampleEnv sampleBlock [80, 7] sampleView =
      .ok (some ⟨[⟨[sampleCoin]⟩]⟩, view') := exists_eq_ok_of_map_fst (by decide +kernel)
  exact ⟨view', hconnect, disconnectBlock_connectBlock sampleView_wellFormed sampleView_mined
    (by decide) (.inl (by decide)) hconnect⟩

end BtcSharp
