/-
# The coin statistics index

`CoinStatsIndex` of `index/coinstatsindex.cpp`: running totals and a running hash that
`CustomAppend` moves forward by one block and `CustomRewind` back over several, and a record of
both for every block, kept under its height and, once the block is reorganised away, under its hash.

The totals are numbers of 64 bits that wrap around. Starting up and the commits are left out, and
so are failures of the database.
-/

import BtcSharp.Kernel.CoinStats
import BtcSharp.Validation.Replay

namespace BtcSharp

/-- The running totals, by the names of the members. -/
inductive Total
  | m_transaction_output_count
  | m_bogo_size
  | m_total_amount
  | m_total_subsidy
  | m_total_unspendable_amount
  | m_total_prevout_spent_amount
  | m_total_new_outputs_ex_coinbase_amount
  | m_total_coinbase_amount
  | m_total_unspendables_genesis_block
  | m_total_unspendables_bip30
  | m_total_unspendables_scripts
  | m_total_unspendables_unclaimed_rewards
  deriving DecidableEq, Repr

structure DBVal where
  muhash : Uint256
  totals : Total → BitVec 64

/-- The members that follow the current block. -/
structure RunningStats (G : Type) where
  m_muhash : MuHash3072 G
  totals : Total → BitVec 64

/-- `CoinStatsIndex`: the running members, and the two indexes of the database. -/
structure CoinStatsIndex (G : Type) where
  running : RunningStats G
  heightIndex : Nat → Option (Uint256 × DBVal)
  hashIndex : Uint256 → Option DBVal

/-- How a call fails: it returns false, an assertion does not hold, or it accesses an element
that is not there. -/
inductive IndexFailure
  | failed
  | assertion
  | outOfRange
  deriving DecidableEq, Repr

structure BlockInfo where
  hash : Uint256
  prev_hash : Option Uint256
  height : Nat
  data : Option CBlock

structure BlockRef where
  hash : Uint256
  height : Nat

namespace RunningStats

variable {G : Type}

variable (running : RunningStats G)

/-- `total += amount`. -/
def add (total : Total) (amount : BitVec 64) : RunningStats G :=
  { running with totals := Function.update running.totals total (running.totals total + amount) }

/-- `total -= amount`. -/
def sub (total : Total) (amount : BitVec 64) : RunningStats G :=
  { running with totals := Function.update running.totals total (running.totals total - amount) }

variable [CommGroup G] (menv : MuHashEnv G)

variable (outpoint : COutPoint)

/-- A new output, in `CustomAppend`. -/
def appendOutput (coin : Coin) (running : RunningStats G) : RunningStats G :=
  let nValue := BitVec.ofInt 64 coin.out.nValue
  if coin.out.scriptPubKey.isUnspendable then
    (running.add .m_total_unspendable_amount nValue).add .m_total_unspendables_scripts nValue
  else
    let hashed := { running with m_muhash := applyCoinHash menv running.m_muhash outpoint coin }
    let created := hashed.add (if coin.fCoinBase then .m_total_coinbase_amount
      else .m_total_new_outputs_ex_coinbase_amount) nValue
    ((created.add .m_transaction_output_count 1).add .m_total_amount nValue).add .m_bogo_size
      (BitVec.ofNat 64 (getBogoSize coin.out.scriptPubKey))

/-- A spent output, in `CustomAppend`. -/
def appendPrevout (coin : Coin) (running : RunningStats G) : RunningStats G :=
  let nValue := BitVec.ofInt 64 coin.out.nValue
  let hashed := { running with m_muhash := removeCoinHash menv running.m_muhash outpoint coin }
  let spent := hashed.add .m_total_prevout_spent_amount nValue
  ((spent.sub .m_transaction_output_count 1).sub .m_total_amount nValue).sub .m_bogo_size
    (BitVec.ofNat 64 (getBogoSize coin.out.scriptPubKey))

/-- An output that was new, in `ReverseBlock`. -/
def reverseOutput (coin : Coin) (running : RunningStats G) : RunningStats G :=
  let nValue := BitVec.ofInt 64 coin.out.nValue
  if coin.out.scriptPubKey.isUnspendable then
    (running.sub .m_total_unspendable_amount nValue).sub .m_total_unspendables_scripts nValue
  else
    let hashed := { running with m_muhash := removeCoinHash menv running.m_muhash outpoint coin }
    let created := hashed.sub (if coin.fCoinBase then .m_total_coinbase_amount
      else .m_total_new_outputs_ex_coinbase_amount) nValue
    ((created.sub .m_transaction_output_count 1).sub .m_total_amount nValue).sub .m_bogo_size
      (BitVec.ofNat 64 (getBogoSize coin.out.scriptPubKey))

/-- An output that was spent, in `ReverseBlock`. -/
def reversePrevout (coin : Coin) (running : RunningStats G) : RunningStats G :=
  let nValue := BitVec.ofInt 64 coin.out.nValue
  let hashed := { running with m_muhash := applyCoinHash menv running.m_muhash outpoint coin }
  let spent := hashed.sub .m_total_prevout_spent_amount nValue
  ((spent.add .m_transaction_output_count 1).add .m_total_amount nValue).add .m_bogo_size
    (BitVec.ofNat 64 (getBogoSize coin.out.scriptPubKey))

/-- The rewards that were not claimed are unspendable, in `CustomAppend`. -/
def appendUnclaimed : RunningStats G :=
  let unclaimed_rewards :=
    (running.totals .m_total_prevout_spent_amount + running.totals .m_total_subsidy) -
      (running.totals .m_total_new_outputs_ex_coinbase_amount +
        running.totals .m_total_coinbase_amount + running.totals .m_total_unspendable_amount)
  (running.add .m_total_unspendable_amount unclaimed_rewards).add
    .m_total_unspendables_unclaimed_rewards unclaimed_rewards

/-- The rewards that had not been claimed, in `ReverseBlock`. -/
def reverseUnclaimed : RunningStats G :=
  let unclaimed_rewards :=
    (running.totals .m_total_new_outputs_ex_coinbase_amount +
        running.totals .m_total_coinbase_amount + running.totals .m_total_unspendable_amount) -
      (running.totals .m_total_prevout_spent_amount + running.totals .m_total_subsidy)
  (running.sub .m_total_unspendable_amount unclaimed_rewards).sub
    .m_total_unspendables_unclaimed_rewards unclaimed_rewards

end RunningStats

/-! ## The loops over a block -/

section

variable {S : Type}

/-- The loop over the outputs of a transaction, from index `j` on. -/
def forOutputs (step : COutPoint → Coin → S → S) (txid : Uint256) (nHeight : Nat)
    (fCoinBase : Bool) : List CTxOut → Nat → S → S
  | [], _, state => state
  | out :: rest, j, state => forOutputs step txid nHeight fCoinBase rest (j + 1)
      (step (outPointAt txid j) (Coin.ofTxOut out nHeight fCoinBase) state)

/-- The loop over the undo data of a transaction, which reads the inputs along with it. -/
def forPrevouts (step : COutPoint → Coin → S → S) : List Coin → List CTxIn → S →
  Except IndexFailure S
  | [], _, state => .ok state
  | coin :: coins, txin :: vin, state => forPrevouts step coins vin (step txin.prevout coin state)
  | _ :: _, [], _ => .error .outOfRange

/-- The body of the loop over the transactions, at index `i`. The coinbase has no undo data. -/
def forTx (onOutput onPrevout : COutPoint → Coin → S → S) (env : ChainEnv) (nHeight : Nat)
    (block_undo : CBlockUndo) (i : Nat) (tx : CTransaction) (state : S) : Except IndexFailure S :=
  let created := forOutputs onOutput (env.txid tx) nHeight tx.isCoinBase tx.vout 0 state
  if tx.isCoinBase then .ok created
  else
    match i with
    | 0 => .error .outOfRange
    | i + 1 =>
      match block_undo.vtxundo[i]? with
      | none => .error .outOfRange
      | some tx_undo => forPrevouts onPrevout tx_undo.vprevout tx.vin created

/-- The loop over the transactions, from index `i` on. -/
def forTxs (onOutput onPrevout : COutPoint → Coin → S → S) (env : ChainEnv) (nHeight : Nat)
    (block_undo : CBlockUndo) : List CTransaction → Nat → S → Except IndexFailure S
  | [], _, state => .ok state
  | tx :: rest, i, state =>
    match forTx onOutput onPrevout env nHeight block_undo i tx state with
    | .error failure => .error failure
    | .ok state => forTxs onOutput onPrevout env nHeight block_undo rest (i + 1) state

end

section

variable {G : Type} [CommGroup G] (env : ChainEnv) (menv : MuHashEnv G)

/-- The loop over the transactions in `CustomAppend`, from index `i` on. Coinbases that a later one
with the same hash overwrote are skipped. -/
def appendTxs (pindex : CBlockIndex) (block_subsidy : BitVec 64) (block_undo : CBlockUndo) :
    List CTransaction → Nat → RunningStats G → Except IndexFailure (RunningStats G)
  | [], _, running => .ok running
  | tx :: rest, i, running =>
    if isBIP30Unspendable pindex && tx.isCoinBase then
      appendTxs pindex block_subsidy block_undo rest (i + 1)
        ((running.add .m_total_unspendable_amount block_subsidy).add .m_total_unspendables_bip30
          block_subsidy)
    else
      match forTx (RunningStats.appendOutput menv) (RunningStats.appendPrevout menv) env
          pindex.nHeight block_undo i tx running with
      | .error failure => .error failure
      | .ok running => appendTxs pindex block_subsidy block_undo rest (i + 1) running

/-- The loop over the transactions in `ReverseBlock`. -/
def reverseTxs (nHeight : Nat) (block_undo : CBlockUndo) :
    List CTransaction → Nat → RunningStats G → Except IndexFailure (RunningStats G) :=
  forTxs (RunningStats.reverseOutput menv) (RunningStats.reversePrevout menv) env nHeight block_undo

end

namespace CoinStatsIndex

variable {G : Type}

/-- The record of the block before. Where the height index holds another block the source looks
the hash up, but what is stored there is a `DBVal` without a hash: it is too short to be read as a
pair, so that this fails as well. -/
def readPrevious (index : CoinStatsIndex G) (height : Nat) (prev_hash : Option Uint256) :
    Except IndexFailure DBVal :=
  match index.heightIndex (height - 1), prev_hash with
  | none, _ => .error .failed
  | some _, none => .error .assertion
  | some read_out, some expected_block_hash =>
    if read_out.1 != expected_block_hash then .error .failed else .ok read_out.2

section

variable [CommGroup G] (env : ChainEnv) (menv : MuHashEnv G) (store : BlockStore)

/-- The part of `CustomAppend` for a block after the genesis block. -/
def appendBlock (block : BlockInfo) (block_subsidy : BitVec 64) (index : CoinStatsIndex G)
    (running : RunningStats G) : Except IndexFailure (RunningStats G) :=
  match store.lookup block.hash with
  | none => .error .assertion
  | some pindex =>
    match store.readBlockUndo pindex with
    | none => .error .failed
    | some block_undo =>
      match index.readPrevious block.height block.prev_hash, block.data with
      | .error failure, _ => .error failure
      | .ok _, none => .error .assertion
      | .ok _, some data => appendTxs env menv pindex block_subsidy block_undo data.vtx 0 running

def customAppend (block : BlockInfo) (index : CoinStatsIndex G) :
    Except IndexFailure (CoinStatsIndex G) :=
  let block_subsidy := BitVec.ofInt 64 (getBlockSubsidy block.height env.params)
  let running := index.running.add .m_total_subsidy block_subsidy
  match if 0 < block.height then appendBlock env menv store block block_subsidy index running
    else .ok ((running.add .m_total_unspendable_amount block_subsidy).add
      .m_total_unspendables_genesis_block block_subsidy) with
  | .error failure => .error failure
  | .ok running =>
    let running := running.appendUnclaimed
    let finalized := running.m_muhash.finalize menv
    let value : DBVal := ⟨finalized.1, running.totals⟩
    .ok { index with
      running := { running with m_muhash := finalized.2 }
      heightIndex := Function.update index.heightIndex block.height (some (block.hash, value)) }

/-- The assertions at the end of `ReverseBlock` on the totals, in their order. -/
def assertedTotals : List Total :=
  [.m_transaction_output_count, .m_total_amount, .m_bogo_size, .m_total_subsidy,
    .m_total_unspendable_amount, .m_total_prevout_spent_amount,
    .m_total_new_outputs_ex_coinbase_amount, .m_total_coinbase_amount,
    .m_total_unspendables_genesis_block, .m_total_unspendables_bip30, .m_total_unspendables_scripts,
    .m_total_unspendables_unclaimed_rewards]

/-- What `ReverseBlock` reads: the undo data and the record of the block before. -/
def readForReverse (pindex : CBlockIndex) (index : CoinStatsIndex G) :
    Except IndexFailure (CBlockUndo × DBVal) :=
  if 0 < pindex.nHeight then
    match store.readBlockUndo pindex with
    | none => .error .failed
    | some block_undo =>
      match index.readPrevious pindex.nHeight (some pindex.pprev.getBlockHash) with
      | .error failure => .error failure
      | .ok read_out => .ok (block_undo, read_out)
  else .ok (⟨[]⟩, ⟨0, fun _ => 0⟩)

def reverseBlock (block : CBlock) (pindex : CBlockIndex) (index : CoinStatsIndex G) :
    Except IndexFailure (CoinStatsIndex G) :=
  let block_subsidy := BitVec.ofInt 64 (getBlockSubsidy pindex.nHeight env.params)
  let running := index.running.sub .m_total_subsidy block_subsidy
  match index.readForReverse store pindex with
  | .error failure => .error failure
  | .ok (block_undo, read_out) =>
    match reverseTxs env menv pindex.nHeight block_undo block.vtx 0 running with
    | .error failure => .error failure
    | .ok running =>
      let running := running.reverseUnclaimed
      let finalized := running.m_muhash.finalize menv
      if read_out.muhash != finalized.1 then .error .assertion
      else if !assertedTotals.all fun total => running.totals total == read_out.totals total then
        .error .assertion
      else .ok { index with running := { running with m_muhash := finalized.2 } }

/-- `CopyHeightIndexToHashIndex` over the given heights. -/
def copyHeightIndexToHashIndex : List Nat → CoinStatsIndex G →
  Except IndexFailure (CoinStatsIndex G)
  | [], index => .ok index
  | height :: rest, index =>
    match index.heightIndex height with
    | none => .error .failed
    | some value => copyHeightIndexToHashIndex rest
        { index with hashIndex := Function.update index.hashIndex value.1 (some value.2) }

/-- The loop of `CustomRewind`. The empty list stands for the null pointer. -/
def reverseBlocks (new_tip_index : CBlockIndex) : CBlockIndex → CoinStatsIndex G →
    Except IndexFailure (CoinStatsIndex G)
  | [], _ => .error .assertion
  | hash :: pprev, index =>
    match store.readBlock (hash :: pprev) with
    | none => .error .failed
    | some block =>
      match index.reverseBlock env menv store block (hash :: pprev) with
      | .error failure => .error failure
      | .ok index => if new_tip_index = pprev then .ok index
          else reverseBlocks new_tip_index pprev index

def customRewind (current_tip new_tip : BlockRef) (index : CoinStatsIndex G) :
    Except IndexFailure (CoinStatsIndex G) :=
  match index.copyHeightIndexToHashIndex
      (List.range' new_tip.height (current_tip.height + 1 - new_tip.height)) with
  | .error failure => .error failure
  | .ok index => index.reverseBlocks env menv store ((store.lookup new_tip.hash).getD [])
      ((store.lookup current_tip.hash).getD [])

end

def lookUpOne (index : CoinStatsIndex G) (block : BlockRef) : Option DBVal :=
  match index.heightIndex block.height with
  | none => none
  | some read_out =>
    if read_out.1 == block.hash then some read_out.2 else index.hashIndex block.hash

def lookUpStats (index : CoinStatsIndex G) (block_index : CBlockIndex) : Option CCoinsStats :=
  (index.lookUpOne ⟨block_index.getBlockHash, block_index.nHeight⟩).map fun entry =>
    { nHeight := block_index.nHeight
      hashBlock := block_index.getBlockHash
      index_used := true
      hashSerialized := entry.muhash
      nTransactionOutputs := entry.totals .m_transaction_output_count
      nBogoSize := entry.totals .m_bogo_size
      total_amount := some (entry.totals .m_total_amount)
      total_subsidy := entry.totals .m_total_subsidy
      total_unspendable_amount := entry.totals .m_total_unspendable_amount
      total_prevout_spent_amount := entry.totals .m_total_prevout_spent_amount
      total_new_outputs_ex_coinbase_amount := entry.totals .m_total_new_outputs_ex_coinbase_amount
      total_coinbase_amount := entry.totals .m_total_coinbase_amount
      total_unspendables_genesis_block := entry.totals .m_total_unspendables_genesis_block
      total_unspendables_bip30 := entry.totals .m_total_unspendables_bip30
      total_unspendables_scripts := entry.totals .m_total_unspendables_scripts
      total_unspendables_unclaimed_rewards := entry.totals .m_total_unspendables_unclaimed_rewards }

end CoinStatsIndex

end BtcSharp
