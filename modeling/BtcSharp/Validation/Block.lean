/-
# Connecting and disconnecting a block

`CheckBlock`, `ConnectBlock` and `DisconnectBlock` with the coin updates they are
made of. What these functions ask of the rest of the node is in `ChainEnv`: the hash
function, the header and merkle checks, script and sequence lock checks. They look
at coins that `CheckTxInputs` has already brought into the cache, so they are given
those coins and not the view.
-/

import BtcSharp.Consensus.TxVerify
import BtcSharp.Undo

namespace BtcSharp

open List

/-- An entry of the block index, as the hashes of the block and its ancestors with
the block itself first. `pprev` is the tail. -/
abbrev CBlockIndex := List Uint256

namespace CBlockIndex

variable (pindex : CBlockIndex)

/-- The height: the number of ancestors. -/
def nHeight : Nat := pindex.length - 1

def getBlockHash : Uint256 := pindex.headD 0

def pprev : CBlockIndex := pindex.tail

/-- `CBlockIndex::GetAncestor`: the empty list stands for the null pointer. -/
def getAncestor (height : Nat) : CBlockIndex :=
  if height < pindex.length then pindex.drop (pindex.length - 1 - height) else []

/-- The test that a block is or descends from another one. -/
theorem getAncestor_eq_iff {block pindex : CBlockIndex} (hne : pindex ≠ []) :
    block.getAncestor pindex.nHeight = pindex ↔ pindex <:+ block := by
  have hpos := length_pos_iff.mpr hne
  unfold getAncestor nHeight
  constructor
  · intro heq
    split at heq
    · rw [← heq]
      exact drop_suffix _ _
    · exact absurd heq.symm hne
  rintro ⟨before, rfl⟩
  rw [length_append, if_pos (by omega)]
  have hdrop : before.length + pindex.length - 1 - (pindex.length - 1) = before.length := by
    omega
  rw [hdrop, drop_left]

end CBlockIndex

theorem getAncestor_spec {pindex : CBlockIndex} {height : Nat} (h : height < pindex.length) :
    pindex.getAncestor height <:+ pindex ∧ (pindex.getAncestor height).length = height + 1 ∧
      (pindex.getAncestor height).getLast? = pindex.getLast? := by
  rw [CBlockIndex.getAncestor, if_pos h]
  refine ⟨drop_suffix _ _, by rw [length_drop]; omega, ?_⟩
  rw [getLast?_drop, if_neg (by omega)]

/-- `CBlockHeader`; the version is kept as its 32 bits. -/
structure CBlockHeader where
  nVersion : UInt32
  hashPrevBlock : Uint256
  hashMerkleRoot : Uint256
  nTime : UInt32
  nBits : UInt32
  nNonce : UInt32
  deriving DecidableEq, Repr

structure CBlock where
  header : CBlockHeader
  vtx : List CTransaction
  deriving DecidableEq, Repr

/-- The serialization of a header. -/
def serializeHeader (header : CBlockHeader) : List UInt8 :=
  uint32Codec.write header.nVersion ++ uint256Codec.write header.hashPrevBlock ++
    uint256Codec.write header.hashMerkleRoot ++ uint32Codec.write header.nTime ++
    uint32Codec.write header.nBits ++ uint32Codec.write header.nNonce

/-- The consensus parameters read here. -/
structure ChainParams where
  nSubsidyHalvingInterval : Nat
  hashGenesisBlock : Uint256
  BIP34Height : Nat
  BIP34Hash : Uint256

/-- What block validation asks of the rest of the node. -/
structure ChainEnv where
  params : ChainParams
  curve : Secp256k1
  /-- Double SHA-256. -/
  hash256 : List UInt8 → Uint256
  /-- Proof of work, signet solution and merkle root. -/
  checkHeader : CBlock → Bool
  getLegacySigOpCount : CTransaction → Nat
  getTransactionSigOpCost : CTransaction → List Coin → CBlockIndex → Nat
  sequenceLocks : CTransaction → List Nat → CBlockIndex → Bool
  checkInputScripts : CTransaction → List Coin → CBlockIndex → Bool

namespace ChainEnv

/-- `CTransaction::GetHash`. -/
def txid (env : ChainEnv) (tx : CTransaction) : Uint256 :=
  env.hash256 (serializeTransaction false tx)

/-- `CBlockHeader::GetHash`. -/
def blockHash (env : ChainEnv) (block : CBlock) : Uint256 :=
  env.hash256 (serializeHeader block.header)

end ChainEnv

/-- Why a block was not connected. -/
inductive BlockError
  | overflow
  | assertion
  | coins (err : CoinsError)
  | valueOutOfRange
  | headerInvalid
  | invalid (reason : String)
  deriving DecidableEq, Repr

/-- A failed check of a transaction is a failed check of the block. -/
def BlockError.ofTxError : TxError → BlockError
  | .overflow => .overflow
  | .assertion => .assertion
  | .valueOutOfRange => .valueOutOfRange
  | .invalid _ reason => .invalid reason

def getBlockSubsidy (nHeight : Nat) (params : ChainParams) : Int :=
  let halvings := nHeight / params.nSubsidyHalvingInterval
  if 64 ≤ halvings then 0 else 50 * COIN / 2 ^ halvings

/-- The transaction checks of `CheckBlock`. -/
def checkTransactions : List CTransaction → Except BlockError Unit
  | [] => .ok ()
  | tx :: rest =>
    match checkTransaction tx with
    | .error err => .error (.ofTxError err)
    | .ok () => checkTransactions rest

variable (env : ChainEnv) (block : CBlock)

def checkBlock : Except BlockError Unit :=
  if !env.checkHeader block then .error .headerInvalid
  else if block.vtx.isEmpty ∨ MAX_BLOCK_WEIGHT < block.vtx.length * WITNESS_SCALE_FACTOR ∨
      MAX_BLOCK_WEIGHT < (serializeHeader block.header ++
        writeVector (serializeTransaction false) block.vtx).length * WITNESS_SCALE_FACTOR then
    .error (.invalid "bad-blk-length")
  else if !(block.vtx.head?.any (·.isCoinBase)) then .error (.invalid "bad-cb-missing")
  else if block.vtx.tail.any (·.isCoinBase) then .error (.invalid "bad-cb-multiple")
  else
    match checkTransactions block.vtx with
    | .error err => .error err
    | .ok () =>
      if MAX_BLOCK_SIGOPS_COST <
          (block.vtx.map env.getLegacySigOpCount).sum * WITNESS_SCALE_FACTOR then
        .error (.invalid "bad-blk-sigops")
      else .ok ()

/-! ## Coin updates -/

/-- The outpoint of an output. -/
def outPointAt (txid : Uint256) (i : Nat) : COutPoint := ⟨txid, UInt32.ofNat i⟩

/-- The loop of `AddCoins` from the output at index `i` on. -/
def addCoinsFrom (txid : Uint256) (nHeight : Nat) (fCoinbase check_for_overwrite : Bool) :
    List CTxOut → Nat → CacheView → Except CoinsError CacheView
  | [], _, cache => .ok cache
  | txout :: rest, i, cache =>
    let asked := if check_for_overwrite then cache.haveCoin (outPointAt txid i)
      else (fCoinbase, cache)
    match asked.2.addCoin (outPointAt txid i) (Coin.ofTxOut txout nHeight fCoinbase) asked.1 with
    | .error err => .error err
    | .ok cache => addCoinsFrom txid nHeight fCoinbase check_for_overwrite rest (i + 1) cache

def addCoins (cache : CacheView) (tx : CTransaction) (nHeight : Nat) (check_for_overwrite : Bool) :
    Except CoinsError CacheView :=
  addCoinsFrom (env.txid tx) nHeight tx.isCoinBase check_for_overwrite tx.vout 0 cache

/-- The loop of `UpdateCoins` that spends the inputs and records their coins. -/
def spendInputs : List CTxIn → CacheView → Except CoinsError (List Coin × CacheView)
  | [], inputs => .ok ([], inputs)
  | txin :: rest, inputs =>
    match inputs.spendCoin txin.prevout with
    | (none, _) => .error .assertion
    | (some coin, inputs) =>
      match spendInputs rest inputs with
      | .error err => .error err
      | .ok (coins, inputs) => .ok (coin :: coins, inputs)

def updateCoins (tx : CTransaction) (inputs : CacheView) (nHeight : Nat) :
    Except CoinsError (CTxUndo × CacheView) :=
  match if tx.isCoinBase then .ok ([], inputs) else spendInputs tx.vin inputs with
  | .error err => .error err
  | .ok (vprevout, inputs) =>
    match addCoins env inputs tx nHeight false with
    | .error err => .error err
    | .ok inputs => .ok (⟨vprevout⟩, inputs)

/-! ## `ConnectBlock` -/

variable (pindex : CBlockIndex)

def isBIP30Repeat : Bool :=
  (pindex.nHeight == 91842 && pindex.getBlockHash ==
    0x00000000000a4d0a398161ffc163c503763b1f4360639393e0e4c8e300e0caec) ||
  (pindex.nHeight == 91880 && pindex.getBlockHash ==
    0x00000000000743f190a18c5577a3c2d2a1f610ae9601ac046a38084ccb7cd721)

/-- Whether the search for overwritten outputs is made. It is skipped for the two
blocks in the chain that violate the rule, and on the known chain between the
activation of BIP34 and the first height it could be violated again. -/
def enforcesBIP30 (params : ChainParams) (pindex : CBlockIndex) : Bool :=
  let pindexBIP34height := pindex.pprev.getAncestor params.BIP34Height
  (!isBIP30Repeat pindex && (pindexBIP34height.isEmpty ||
    pindexBIP34height.getBlockHash != params.BIP34Hash)) || 1983702 ≤ pindex.nHeight

/-- The search of one transaction's outputs, from index `i` on. -/
def anyOutputExists (txid : Uint256) : List CTxOut → Nat → CacheView → Bool × CacheView
  | [], _, view => (false, view)
  | _ :: rest, i, view =>
    match view.haveCoin (outPointAt txid i) with
    | (here, view) =>
      match anyOutputExists txid rest (i + 1) view with
      | (later, view) => (here || later, view)

/-- The search for outputs of the block that already exist. Every output is looked
up, also after one was found. -/
def anyTxExists (env : ChainEnv) : List CTransaction → CacheView → Bool × CacheView
  | [], view => (false, view)
  | tx :: rest, view =>
    match anyOutputExists (env.txid tx) tx.vout 0 view with
    | (here, view) =>
      match anyTxExists env rest view with
      | (later, view) => (here || later, view)

/-- The coins of the inputs, as the checks after `CheckTxInputs` access them. -/
def accessCoins : List CTxIn → CacheView → List Coin × CacheView
  | [], view => ([], view)
  | txin :: rest, view =>
    match view.accessCoin txin.prevout with
    | (coin, view) =>
      match accessCoins rest view with
      | (coins, view) => (coin :: coins, view)

/-- The variables of the transaction loop of `ConnectBlock`. -/
structure ConnectState where
  nFees : Int := 0
  nSigOpsCost : Nat := 0
  vtxundo : List CTxUndo := []
  view : CacheView

/-- The checks of a transaction that is not a coinbase up to its sequence locks: the
fees so far, the coins it spends, and the view. -/
def checkSpends (env : ChainEnv) (pindex : CBlockIndex) (tx : CTransaction) (nFees : Int)
    (view : CacheView) : Except BlockError (Int × List Coin × CacheView) :=
  match checkTxInputs tx view pindex.nHeight with
  | .error err => .error (.ofTxError err)
  | .ok (txfee, view) =>
    match addAmount nFees txfee with
    | .error err => .error (.ofTxError err)
    | .ok nFees =>
      if !moneyRange nFees then
        .error (.invalid "bad-txns-accumulated-fee-outofrange")
      else
        match accessCoins tx.vin view with
        | (coins, view) =>
          if !env.sequenceLocks tx (coins.map (·.nHeight)) pindex then
            .error (.invalid "bad-txns-nonfinal")
          else .ok (nFees, coins, view)

/-- One iteration of the transaction loop, for the transaction at index `i`. -/
def connectTx (i : Nat) (tx : CTransaction) (state : ConnectState) :
    Except BlockError ConnectState :=
  match if tx.isCoinBase then .ok (state.nFees, [], state.view)
      else checkSpends env pindex tx state.nFees state.view with
  | .error err => .error err
  | .ok (nFees, coins, view) =>
    let nSigOpsCost := state.nSigOpsCost + env.getTransactionSigOpCost tx coins pindex
    if MAX_BLOCK_SIGOPS_COST < nSigOpsCost then .error (.invalid "bad-blk-sigops")
    else if !tx.isCoinBase && !env.checkInputScripts tx coins pindex then
      .error (.invalid "mandatory-script-verify-flag-failed")
    else
      match updateCoins env tx view pindex.nHeight with
      | .error err => .error (.coins err)
      | .ok (txundo, view) =>
        .ok ⟨nFees, nSigOpsCost, if 0 < i then state.vtxundo ++ [txundo] else state.vtxundo,
          view⟩

/-- The transaction loop of `ConnectBlock`, from index `i` on. -/
def connectTxs (env : ChainEnv) (pindex : CBlockIndex) :
    List CTransaction → Nat → ConnectState → Except BlockError ConnectState
  | [], _, state => .ok state
  | tx :: rest, i, state =>
    match connectTx env pindex i tx state with
    | .error err => .error err
    | .ok state => connectTxs env pindex rest (i + 1) state

/-- The part of `ConnectBlock` after the genesis block was told apart: the undo data
and the view, whose best block is not set yet. -/
def connectBody (pindex : CBlockIndex) (view : CacheView) :
    Except BlockError (CBlockUndo × CacheView) :=
  if pindex.pprev.isEmpty then .error .assertion
  else
    let searched := if enforcesBIP30 env.params pindex then anyTxExists env block.vtx view
      else (false, view)
    if searched.1 then .error (.invalid "bad-txns-BIP30")
    else
      match connectTxs env pindex block.vtx 0 { view := searched.2 } with
      | .error err => .error err
      | .ok state =>
        match addAmount state.nFees (getBlockSubsidy pindex.nHeight env.params) with
        | .error err => .error (.ofTxError err)
        | .ok blockReward =>
          match (block.vtx.head?.map getValueOut).getD (.error .assertion) with
          | .error err => .error (.ofTxError err)
          | .ok value =>
            if blockReward < value then .error (.invalid "bad-cb-amount")
            else .ok (⟨state.vtxundo⟩, state.view)

/-- `ConnectBlock`, when the block is really connected and not just checked. No undo
data is written for the genesis block. -/
def connectBlock (pindex : CBlockIndex) (view : CacheView) :
    Except BlockError (Option CBlockUndo × CacheView) :=
  if pindex.getBlockHash ≠ env.blockHash block then .error .assertion
  else
    match checkBlock env block with
    | .error err => .error err
    | .ok () =>
      let hashPrevBlock := pindex.pprev.getBlockHash
      match view.getBestBlock with
      | (best, view) =>
        if hashPrevBlock ≠ best then .error .assertion
        else if env.blockHash block = env.params.hashGenesisBlock then
          .ok (none, view.setBestBlock pindex.getBlockHash)
        else
          match connectBody env block pindex view with
          | .error err => .error err
          | .ok (blockundo, view) =>
            .ok (some blockundo, view.setBestBlock pindex.getBlockHash)

/-! ## `DisconnectBlock` -/

inductive DisconnectResult
  | DISCONNECT_OK
  | DISCONNECT_UNCLEAN
  | DISCONNECT_FAILED
  deriving DecidableEq, Repr

/-- The number of outputs a block can have. -/
def MAX_OUTPUTS_PER_BLOCK : Nat := 111111

/-- The loop of `AccessByTxid`, with the number of outputs still to be tried. -/
def accessByTxidLoop (txid : Uint256) : Nat → Nat → CacheView → Coin × CacheView
  | 0, _, view => (Coin.empty, view)
  | left + 1, n, view =>
    match view.accessCoin (outPointAt txid n) with
    | (alternate, view) =>
      if alternate.isSpent then accessByTxidLoop txid left (n + 1) view
      else (alternate, view)

def accessByTxid (view : CacheView) (txid : Uint256) : Coin × CacheView :=
  accessByTxidLoop txid MAX_OUTPUTS_PER_BLOCK 0 view

/-- `ApplyTxInUndo`: whether the restored coin overwrote one, and the view. A height of zero stands
for metadata that other outputs may still have. -/
def applyTxInUndo (undo : Coin) (view : CacheView) (out : COutPoint) :
    Except CoinsError (DisconnectResult × CacheView) :=
  match view.haveCoin out with
  | (exists', view) =>
    let (known, view) := if undo.nHeight = 0 then
        match accessByTxid view out.hash with
        | (alternate, view) =>
          if alternate.isSpent then (none, view)
          else (some { undo with
            nHeight := alternate.nHeight, fCoinBase := alternate.fCoinBase }, view)
      else (some undo, view)
    match known with
    | none => .ok (.DISCONNECT_FAILED, view)
    | some coin =>
      match view.addCoin out coin exists' with
      | .error err => .error err
      | .ok view =>
        .ok (if exists' then .DISCONNECT_UNCLEAN else .DISCONNECT_OK, view)

/-- The loop that removes the outputs of a transaction, from index `o` on. An output
that is not there exactly as it was added makes the result unclean. -/
def removeOutputs (txid : Uint256) (nHeight : Nat) (is_coinbase is_bip30_exception : Bool) :
    List CTxOut → Nat → Bool → CacheView → Bool × CacheView
  | [], _, fClean, view => (fClean, view)
  | txout :: rest, o, fClean, view =>
    if txout.scriptPubKey.isUnspendable then
      removeOutputs txid nHeight is_coinbase is_bip30_exception rest (o + 1) fClean view
    else
      match view.spendCoin (outPointAt txid o) with
      | (moved, view) =>
        let coin := moved.getD Coin.empty
        let differs := moved.isNone || txout != coin.out || nHeight != coin.nHeight ||
          is_coinbase != coin.fCoinBase
        removeOutputs txid nHeight is_coinbase is_bip30_exception rest (o + 1)
          (fClean && (!differs || is_bip30_exception)) view

/-- The loop that restores inputs, given last input first with their coins. None
stands for `DISCONNECT_FAILED`. -/
def restoreInputs : List (CTxIn × Coin) → Bool → CacheView →
    Except CoinsError (Option (Bool × CacheView))
  | [], fClean, view => .ok (some (fClean, view))
  | (txin, undo) :: rest, fClean, view =>
    match applyTxInUndo undo view txin.prevout with
    | .error err => .error err
    | .ok (.DISCONNECT_FAILED, _) => .ok none
    | .ok (.DISCONNECT_UNCLEAN, view) => restoreInputs rest false view
    | .ok (.DISCONNECT_OK, view) => restoreInputs rest fClean view

/-- One iteration of the loop of `DisconnectBlock`. The undo data is none for the
first transaction. -/
def disconnectTx (fEnforceBIP30 : Bool) (tx : CTransaction) (txundo : Option CTxUndo)
    (fClean : Bool) (view : CacheView) : Except CoinsError (Option (Bool × CacheView)) :=
  match removeOutputs (env.txid tx) pindex.nHeight tx.isCoinBase
      (tx.isCoinBase && !fEnforceBIP30) tx.vout 0 fClean view with
  | (fClean, view) =>
    match txundo with
    | none => .ok (some (fClean, view))
    | some txundo =>
      if txundo.vprevout.length ≠ tx.vin.length then .ok none
      else restoreInputs (tx.vin.zip txundo.vprevout).reverse fClean view

/-- The loop of `DisconnectBlock`, given last transaction first. -/
def disconnectTxs (env : ChainEnv) (pindex : CBlockIndex) (fEnforceBIP30 : Bool) :
    List (CTransaction × Option CTxUndo) → Bool → CacheView →
      Except CoinsError (Option (Bool × CacheView))
  | [], fClean, view => .ok (some (fClean, view))
  | (tx, txundo) :: rest, fClean, view =>
    match disconnectTx env pindex fEnforceBIP30 tx txundo fClean view with
    | .error err => .error err
    | .ok none => .ok none
    | .ok (some (fClean, view)) => disconnectTxs env pindex fEnforceBIP30 rest fClean view

/-- The two blocks whose coinbases were overwritten by later ones. -/
def isBIP30Unspendable : Bool :=
  (pindex.nHeight == 91722 && pindex.getBlockHash ==
    0x00000000000271a2dc26e7667f8419f2e15416dc6955e5a6c6cdf3f2574dd08e) ||
  (pindex.nHeight == 91812 && pindex.getBlockHash ==
    0x00000000000af0aed4792b1acee3d966af36cf5def14935db8de83d6f9306f2f)

/-- The transactions of a block with their undo data. The coinbase has none. -/
def pairUndo (blockUndo : CBlockUndo) : List (CTransaction × Option CTxUndo) :=
  block.vtx.zip (none :: blockUndo.vtxundo.map some)

/-- `DisconnectBlock`, given the undo data that was read. When it fails the view is
left in an indeterminate state, so none is returned. -/
def disconnectBlock (pindex : CBlockIndex) (blockUndo : CBlockUndo) (view : CacheView) :
    Except CoinsError (DisconnectResult × Option CacheView) :=
  if blockUndo.vtxundo.length + 1 ≠ block.vtx.length then .ok (.DISCONNECT_FAILED, none)
  else
    match disconnectTxs env pindex (!isBIP30Unspendable pindex)
        (pairUndo block blockUndo).reverse true view with
    | .error err => .error err
    | .ok none => .ok (.DISCONNECT_FAILED, none)
    | .ok (some (fClean, view)) =>
      .ok (if fClean then .DISCONNECT_OK else .DISCONNECT_UNCLEAN,
        some (view.setBestBlock pindex.pprev.getBlockHash))

end BtcSharp
