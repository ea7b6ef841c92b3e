/-
# A block as a log of point writes

On the coin set a transaction is a log: its inputs are unbound and its spendable
outputs are bound. Undoing it is another log. The loops of `UpdateCoins`,
`AddCoins`, `ApplyTxInUndo` and `DisconnectBlock` apply these logs to the map of
the view they work on.
-/

import BtcSharp.Validation.Block

namespace BtcSharp

open Math CacheView Function List

/-! ## The logs -/

/-- The coins of the spendable outputs, from index `i` on. -/
def outputCoins (txid : Uint256) (nHeight : Nat) (fCoinBase : Bool) :
    List CTxOut → Nat → List (COutPoint × Coin)
  | [], _ => []
  | txout :: rest, i =>
    if txout.scriptPubKey.isUnspendable then outputCoins txid nHeight fCoinBase rest (i + 1)
    else (outPointAt txid i, Coin.ofTxOut txout nHeight fCoinBase) ::
      outputCoins txid nHeight fCoinBase rest (i + 1)

variable (tx : CTransaction) (env : ChainEnv)

/-- The coins a transaction creates. -/
def CTransaction.creates (nHeight : Nat) : List (COutPoint × Coin) :=
  outputCoins (env.txid tx) nHeight tx.isCoinBase tx.vout 0

/-- The outpoints a transaction spends. -/
def CTransaction.spends : List COutPoint :=
  if tx.isCoinBase then [] else tx.vin.map (·.prevout)

/-- Bind coins. -/
def bindLog (coins : List (COutPoint × Coin)) : List (COutPoint × Option Coin) :=
  coins.map fun entry => (entry.1, some entry.2)

/-- Unbind outpoints. -/
def unbindLog (outpoints : List COutPoint) : List (COutPoint × Option Coin) :=
  outpoints.map fun outpoint => (outpoint, none)

/-- The effect of a transaction: spend the inputs, then create the outputs. -/
def CTransaction.redoLog (nHeight : Nat) : List (COutPoint × Option Coin) :=
  unbindLog tx.spends ++ bindLog (tx.creates env nHeight)

/-- The effect of undoing it: remove the outputs, then restore the inputs from the
last to the first. -/
def CTransaction.undoLog (nHeight : Nat) (vprevout : List Coin) : List (COutPoint × Option Coin) :=
  unbindLog ((tx.creates env nHeight).map Prod.fst) ++ bindLog (tx.spends.zip vprevout).reverse

/-- The log of a block. -/
def CBlock.redoLog (block : CBlock) (env : ChainEnv) (nHeight : Nat) :
    List (COutPoint × Option Coin) :=
  block.vtx.flatMap fun tx => tx.redoLog env nHeight

/-- The log of undoing transactions, in the order given. -/
def undoLogs (nHeight : Nat) (txs : List (CTransaction × Option CTxUndo)) :
    List (COutPoint × Option Coin) :=
  txs.flatMap fun pair => pair.1.undoLog env nHeight ((pair.2.map (·.vprevout)).getD [])

theorem map_fst_bindLog (coins : List (COutPoint × Coin)) :
    (bindLog coins).map Prod.fst = coins.map Prod.fst := by
  simp [bindLog]

theorem map_fst_unbindLog (outpoints : List COutPoint) :
    (unbindLog outpoints).map Prod.fst = outpoints := by
  rw [unbindLog, map_map]
  exact map_id outpoints

/-- Unbinding, evaluated. -/
theorem applyWrites_unbindLog (map : UtxoMap) (outpoints : List COutPoint) (outpoint : COutPoint) :
    applyWrites map (unbindLog outpoints) outpoint =
      if outpoint ∈ outpoints then none else map outpoint := by
  rw [applyWrites_of_agrees (fun _ => none)]
  · rw [map_fst_unbindLog]
  · simp [unbindLog]

variable {outpoint : COutPoint} {txid : Uint256} {i nHeight : Nat} {vout : List CTxOut}
  {coins : List (COutPoint × Coin)} {coin : Coin} {fCoinBase : Bool} {start : CacheView}

/-- Binding coins with distinct outpoints, evaluated at one of them. -/
theorem applyWrites_bindLog_of_mem (hnodup : (coins.map Prod.fst).Nodup) (map : UtxoMap)
    (hmem : (outpoint, coin) ∈ coins) : applyWrites map (bindLog coins) outpoint = some coin := by
  induction coins generalizing map with
  | nil => cases hmem
  | cons head rest ih =>
    rw [map_cons, nodup_cons] at hnodup
    have hstep : applyWrites map (bindLog (head :: rest)) =
        applyWrites (update map head.1 (some head.2)) (bindLog rest) := rfl
    rw [hstep]
    rcases mem_cons.mp hmem with rfl | hrest
    · rw [applyWrites_of_notMem _ (by rw [map_fst_bindLog]; exact hnodup.1), update_self]
    · exact ih hnodup.2 _ hrest

theorem applyWrites_bindLog_of_notMem (map : UtxoMap) (hnot : outpoint ∉ coins.map Prod.fst) :
    applyWrites map (bindLog coins) outpoint = map outpoint :=
  applyWrites_of_notMem map (by rwa [map_fst_bindLog])

/-! ## Outputs have distinct outpoints -/

theorem outPointAt_inj {j : Nat} (hi : i < 2 ^ 32) (hj : j < 2 ^ 32)
    (h : outPointAt txid i = outPointAt txid j) : i = j := by
  have hn : UInt32.ofNat i = UInt32.ofNat j := congrArg COutPoint.n h
  have hnat := congrArg UInt32.toNat hn
  rwa [UInt32.toNat_ofNat_of_lt' hi, UInt32.toNat_ofNat_of_lt' hj] at hnat

theorem mem_outputCoins (hmem : (outpoint, coin) ∈ outputCoins txid nHeight fCoinBase vout i) :
    ∃ j txout, i ≤ j ∧ j < i + vout.length ∧ outpoint = outPointAt txid j ∧ txout ∈ vout ∧
      txout.scriptPubKey.isUnspendable = false ∧
      coin = Coin.ofTxOut txout nHeight fCoinBase := by
  induction vout generalizing i with
  | nil => cases hmem
  | cons head rest ih =>
    have hlater : (outpoint, coin) ∈ outputCoins txid nHeight fCoinBase rest (i + 1) →
        ∃ j txout, i ≤ j ∧ j < i + (head :: rest).length ∧ outpoint = outPointAt txid j ∧
          txout ∈ head :: rest ∧ txout.scriptPubKey.isUnspendable = false ∧
          coin = .ofTxOut txout nHeight fCoinBase := by
      intro hrest
      obtain ⟨j, txout, hlow, hhigh, heq, htxout, hscript, hcoin⟩ := ih hrest
      exact ⟨j, txout, by omega, by rw [length_cons]; omega, heq, mem_cons_of_mem _ htxout,
        hscript, hcoin⟩
    rw [outputCoins] at hmem
    split at hmem
    · exact hlater hmem
    next hscript =>
    rcases mem_cons.mp hmem with heq | hrest
    · cases heq
      exact ⟨i, head, le_refl i, by simp, rfl, mem_cons_self, by simpa using hscript,
        rfl⟩
    · exact hlater hrest

/-- The outputs after one have other outpoints. -/
theorem ne_outPointAt_of_mem_outputCoins {entry : COutPoint × Coin}
    (hbound : i + 1 + vout.length ≤ 2 ^ 32)
    (hentry : entry ∈ outputCoins txid nHeight fCoinBase vout (i + 1)) :
      entry.1 ≠ outPointAt txid i := by
  intro heq
  obtain ⟨_, -, hlow, hhigh, hj, -⟩ := mem_outputCoins hentry
  have := outPointAt_inj (by omega) (by omega) (hj.symm.trans heq)
  omega

theorem nodup_outputCoins (hbound : i + vout.length ≤ 2 ^ 32) :
    ((outputCoins txid nHeight fCoinBase vout i).map Prod.fst).Nodup := by
  induction vout generalizing i with
  | nil => exact nodup_nil
  | cons head rest ih =>
    rw [length_cons] at hbound
    rw [outputCoins]
    split
    · exact ih (by omega)
    rw [map_cons, nodup_cons]
    refine ⟨fun hmem => ?_, ih (by omega)⟩
    obtain ⟨_, hentry, heq⟩ := mem_map.mp hmem
    exact ne_outPointAt_of_mem_outputCoins (by omega) hentry heq

/-- An output whose value is an amount of money is not the null output. -/
theorem isSpent_ofTxOut {txout : CTxOut} (hvalue : moneyRange txout.nValue = true) :
    (Coin.ofTxOut txout nHeight fCoinBase).isSpent = false := by
  have hnonneg := (moneyRange_iff.mp hvalue).1
  simp only [Coin.isSpent, Coin.ofTxOut, CTxOut.isNull, beq_eq_false_iff_ne]
  omega

/-! ## `AddCoins` -/

/-- Binding the output at the head of a list. -/
theorem applyWrites_outputCoins_cons (map : UtxoMap) (txid : Uint256) (nHeight : Nat)
    (fCoinBase : Bool) (txout : CTxOut) (rest : List CTxOut) (i : Nat) :
    applyWrites map (bindLog (outputCoins txid nHeight fCoinBase (txout :: rest) i)) =
      applyWrites
        (CacheView.bindCoin map (outPointAt txid i) (Coin.ofTxOut txout nHeight fCoinBase))
        (bindLog (outputCoins txid nHeight fCoinBase rest (i + 1))) := by
  have hscript : (Coin.ofTxOut txout nHeight fCoinBase).out.scriptPubKey =
      txout.scriptPubKey := rfl
  rw [outputCoins, bindCoin, hscript]
  split <;> rfl

/-- Where overwriting is allowed or looked out for, `AddCoins` always succeeds. -/
theorem addCoinsFrom_steps {check : Bool} (hover : check = true ∨ fCoinBase = true) :
    ∀ {i : Nat} {cache : CacheView} {map : UtxoMap}, CacheView.Steps start cache map →
      (∀ txout ∈ vout, moneyRange txout.nValue = true) →
      ∃ cache', addCoinsFrom txid nHeight fCoinBase check vout i cache = .ok cache' ∧
        CacheView.Steps start cache'
          (applyWrites map (bindLog (outputCoins txid nHeight fCoinBase vout i))) := by
  induction vout with
  | nil => exact fun {_ cache _} h _ => ⟨cache, rfl, h⟩
  | cons txout rest ih =>
    intro i cache map h hvalues
    rw [forall_mem_cons] at hvalues
    have hcoin := @isSpent_ofTxOut nHeight fCoinBase txout hvalues.1
    obtain ⟨asked, hasked⟩ : ∃ asked, asked = if check
        then cache.haveCoin (outPointAt txid i) else (fCoinBase, cache) := ⟨_, rfl⟩
    have hask : CacheView.Steps start asked.2 map ∧
        (asked.1 = false → map (outPointAt txid i) = none) := by
      cases check with
      | true =>
        obtain ⟨hhave, hsteps⟩ := haveCoin_steps h (outPointAt txid i)
        rw [hasked]
        refine ⟨hsteps, fun hnone => ?_⟩
        have hisSome := hhave.symm.trans hnone
        simpa using hisSome
      | false =>
        obtain rfl : fCoinBase = true := by simpa using hover
        rw [hasked]
        exact ⟨h, by simp⟩
    obtain ⟨_, hadd, haddSteps⟩ := addCoin_steps hask.1 hcoin hask.2
    obtain ⟨cache', hrest, hrestSteps⟩ := ih (i := i + 1) haddSteps hvalues.2
    refine ⟨cache', ?_, ?_⟩
    · simp [addCoinsFrom, ← hasked, hadd, hrest]
    · rwa [applyWrites_outputCoins_cons]

/-- Where it is not, success means that none of the outputs existed. -/
theorem addCoinsFrom_fresh : ∀ {i : Nat} {cache cache' : CacheView} {map : UtxoMap},
      CacheView.Steps start cache map →
      (∀ txout ∈ vout, moneyRange txout.nValue = true) → i + vout.length ≤ 2 ^ 32 →
      (∀ entry ∈ outputCoins txid nHeight false vout i, start.Shows entry.1) →
      addCoinsFrom txid nHeight false false vout i cache = .ok cache' →
      CacheView.Steps start cache'
        (applyWrites map (bindLog (outputCoins txid nHeight false vout i))) ∧
        ∀ entry ∈ outputCoins txid nHeight false vout i, map entry.1 = none := by
  induction vout with
  | nil =>
    intro i cache cache' map h _ _ _ hadd
    obtain rfl : cache = cache' := by simpa [addCoinsFrom] using hadd
    exact ⟨h, by simp [outputCoins]⟩
  | cons txout rest ih =>
    intro i cache cache' map h hvalues hbound hshows hadd
    rw [length_cons] at hbound
    rw [forall_mem_cons] at hvalues
    have hcoin := @isSpent_ofTxOut nHeight false txout hvalues.1
    simp only [addCoinsFrom, Bool.false_eq_true, if_false] at hadd
    split at hadd
    · cases hadd
    next mid hmid =>
    cases hscript : txout.scriptPubKey.isUnspendable with
    | true =>
      have hsame : outputCoins txid nHeight false (txout :: rest) i =
          outputCoins txid nHeight false rest (i + 1) := by
        rw [outputCoins, if_pos hscript]
      obtain rfl : cache = mid := by
        have hout : (Coin.ofTxOut txout nHeight false).out.scriptPubKey.isUnspendable =
          true := hscript
        simpa [addCoin, CCoinsViewCache.addCoin, hcoin, hout] using hmid
      rw [hsame] at hshows ⊢
      exact ih h hvalues.2 (by omega) hshows hadd
    | false =>
      have hlist : outputCoins txid nHeight false (txout :: rest) i =
          (outPointAt txid i, .ofTxOut txout nHeight false) ::
            outputCoins txid nHeight false rest (i + 1) := by
        rw [outputCoins, if_neg (by simp [hscript])]
      rw [hlist, forall_mem_cons] at hshows
      have hnone := utxo_eq_none_of_addCoin (h.shows_of _ hshows.1) hscript hmid
      rw [h.utxo_eq] at hnone
      obtain ⟨mid', hmid', hmidSteps⟩ :=
        addCoin_steps h hcoin (fun (_ : false = false) => hnone)
      obtain rfl : mid = mid' := by
        rw [hmid] at hmid'
        exact Except.ok.inj hmid'
      obtain ⟨hrestSteps, hrestNone⟩ := ih hmidSteps hvalues.2 (by omega) hshows.2 hadd
      rw [applyWrites_outputCoins_cons, hlist, forall_mem_cons]
      refine ⟨hrestSteps, hnone, fun entry hentry => ?_⟩
      have hold := hrestNone entry hentry
      have hout : (Coin.ofTxOut txout nHeight false).out.scriptPubKey.isUnspendable =
        false := hscript
      have hne := ne_outPointAt_of_mem_outputCoins (by omega) hentry
      rwa [bindCoin, if_neg (by simp [hout]), update_of_ne hne] at hold

/-! ## Inputs -/

/-- Spending distinct coins that are there returns them and unbinds them. -/
theorem spendInputs_spec {vin : List CTxIn} :
    ∀ {cache : CacheView} {map : UtxoMap}, CacheView.Steps start cache map →
      (vin.map (·.prevout)).Nodup → (∀ txin ∈ vin, ∃ coin, map txin.prevout = some coin) →
      ∃ coins cache', spendInputs vin cache = .ok (coins, cache') ∧
        coins.map some = vin.map (fun txin => map txin.prevout) ∧
        CacheView.Steps start cache' (applyWrites map (unbindLog (vin.map (·.prevout)))) := by
  induction vin with
  | nil => exact fun {cache _} h _ _ => ⟨[], cache, rfl, rfl, h⟩
  | cons txin rest ih =>
    intro cache map h hnodup hcoins
    rw [map_cons, nodup_cons] at hnodup
    obtain ⟨coin, hcoin⟩ := hcoins txin mem_cons_self
    have hspend := spendCoin_eq_some h hcoin
    obtain ⟨-, hsteps⟩ := spendCoin_steps h txin.prevout
    rcases hcall : cache.spendCoin txin.prevout with ⟨_, _⟩
    rw [hcall] at hspend hsteps
    subst hspend
    have hframe : ∀ other ∈ rest, update map txin.prevout none other.prevout =
        map other.prevout := by
      intro other hother
      have hne : other.prevout ≠ txin.prevout := fun heq =>
        hnodup.1 (heq ▸ mem_map_of_mem hother)
      rw [update_of_ne hne]
    obtain ⟨coins, cache', hrest, hvalues, hrestSteps⟩ := ih hsteps hnodup.2 fun other hother => by
        rw [hframe other hother]
        exact hcoins other (mem_cons_of_mem _ hother)
    refine ⟨coin :: coins, cache', by simp only [spendInputs, hcall, hrest], ?_, hrestSteps⟩
    rw [map_cons, map_cons, hvalues, hcoin]
    congr 1
    exact map_congr_left hframe

end BtcSharp
