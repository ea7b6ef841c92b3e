/-
# Acceptance to the mempool

The class `MemPoolAccept` of `validation.cpp`: `PreChecks`, the replacement and package
checks, the submission of one transaction or of several, and `AcceptPackage`, which tries
the transactions of a package one by one and then the rest together. What depends on
scripts, on the chain tip, on standardness rules and on fee rates enters through
`AcceptEnv`, and so do memory usage and the score that eviction goes by. Debug messages,
notifications and the cache of coins of the tip are left out; a view of coins is the
function that looks them up.
-/

import BtcSharp.Math.AssocList
import BtcSharp.Policy.Packages
import BtcSharp.Policy.Rbf
import BtcSharp.Policy.Truc

namespace BtcSharp

open Math

def MIN_STANDARD_TX_NONWITNESS_SIZE : Nat := 65
def MAX_STANDARD_TX_SIGOPS_COST : Nat := MAX_BLOCK_SIGOPS_COST / 5
def EXTRA_DESCENDANT_TX_SIZE_LIMIT : Nat := 10000
def MEMPOOL_HEIGHT : Nat := 0x7fffffff

/-- A `TxValidationState` that was marked invalid. -/
structure TxValidationState where
  result : TxValidationResult
  reason : String
  deriving DecidableEq, Repr

/-- The state that `CheckTransaction` fills in. Its other outcomes do not arise. -/
def TxError.state : TxError → TxValidationState
  | .invalid result reason => ⟨result, reason⟩
  | _ => ⟨.txUnknown, ""⟩

/-- What acceptance asks of the rest of the node, at the time of a call. A view of coins is
given to the checks that look at inputs. -/
structure AcceptEnv where
  mempool : MempoolEnv
  wtxid : CTransaction → Uint256
  require_standard : Bool
  isStandardTx : CTransaction → Option String
  checkFinalTxAtTip : CTransaction → Bool
  coinsTip : COutPoint → Option Coin
  haveCoinInCache : COutPoint → Bool
  checkSequenceLocksAtTip : CTransaction → (COutPoint → Option Coin) → Bool
  checkTxInputs : CTransaction → (COutPoint → Option Coin) → Except TxValidationState Int
  areInputsStandard : CTransaction → (COutPoint → Option Coin) → Bool
  isWitnessStandard : CTransaction → (COutPoint → Option Coin) → Bool
  getTransactionSigOpCost : CTransaction → (COutPoint → Option Coin) → Nat
  isDust : CTxOut → Bool
  getFee : CFeeRate → Nat → Int
  getMinFee : CTxMemPool → CFeeRate
  min_relay_feerate : CFeeRate
  incremental_relay_feerate : CFeeRate
  policyScriptChecks : CTransaction → (COutPoint → Option Coin) → Except TxValidationState Unit
  consensusScriptChecks : CTransaction → (COutPoint → Option Coin) → Except TxValidationState Unit
  improvesFeerateDiagram : CTxMemPool → List Uint256 → List CTxMemPool.Addition → Option String
  usage : CTxMemPool → Nat
  before : CTxMemPoolEntry → CTxMemPoolEntry → Bool
  max_size_bytes : Nat
  expiry : Int

structure ATMPArgs where
  m_accept_time : Int
  m_bypass_limits : Bool
  m_test_accept : Bool
  m_allow_replacement : Bool
  m_allow_sibling_eviction : Bool
  m_package_submission : Bool
  m_package_feerates : Bool
  m_client_maxfeerate : Option CFeeRate
  m_allow_carveouts : Bool

namespace ATMPArgs

def singleAccept (accept_time : Int) (bypass_limits test_accept : Bool) : ATMPArgs where
  m_accept_time := accept_time
  m_bypass_limits := bypass_limits
  m_test_accept := test_accept
  m_allow_replacement := true
  m_allow_sibling_eviction := true
  m_package_submission := false
  m_package_feerates := false
  m_client_maxfeerate := none
  m_allow_carveouts := true

def packageTestAccept (accept_time : Int) : ATMPArgs where
  m_accept_time := accept_time
  m_bypass_limits := false
  m_test_accept := true
  m_allow_replacement := false
  m_allow_sibling_eviction := false
  m_package_submission := false
  m_package_feerates := false
  m_client_maxfeerate := none
  m_allow_carveouts := false

def packageChildWithParents (accept_time : Int) (client_maxfeerate : Option CFeeRate) :
    ATMPArgs where
  m_accept_time := accept_time
  m_bypass_limits := false
  m_test_accept := false
  m_allow_replacement := true
  m_allow_sibling_eviction := false
  m_package_submission := true
  m_package_feerates := true
  m_client_maxfeerate := client_maxfeerate
  m_allow_carveouts := false

def singleInPackageAccept (package_args : ATMPArgs) : ATMPArgs where
  m_accept_time := package_args.m_accept_time
  m_bypass_limits := false
  m_test_accept := package_args.m_test_accept
  m_allow_replacement := true
  m_allow_sibling_eviction := true
  m_package_submission := true
  m_package_feerates := false
  m_client_maxfeerate := package_args.m_client_maxfeerate
  m_allow_carveouts := false

end ATMPArgs

/-- `Workspace`, with what was staged for the transaction in place of its handle. -/
structure Workspace where
  tx : CTransaction
  m_conflicts : List Uint256
  m_iters_conflicting : List Uint256
  m_ancestors : List Uint256
  addition : CTxMemPool.Addition
  m_sibling_eviction : Bool
  m_vsize : Nat
  m_base_fees : Int
  m_modified_fees : Int

/-- `MempoolAcceptResult`. A failure for fee reasons comes with the fee rate and the
transactions that it was calculated from. -/
inductive MempoolAcceptResult
  | valid (m_replaced_transactions : List CTransaction) (m_vsize : Nat) (m_base_fees : Int)
      (m_effective_feerate : CFeeRate) (m_wtxids_fee_calculations : List Uint256)
  | invalid (m_state : TxValidationState) (feerate : Option (CFeeRate × List Uint256))
  | mempoolEntry (m_vsize : Nat) (m_base_fees : Int)
  | differentWitness (m_other_wtxid : Uint256)
  deriving DecidableEq, Repr

/-- `PackageMempoolAcceptResult`. A package state that was not marked invalid is none. -/
structure PackageMempoolAcceptResult where
  m_state : Option PackageValidationState
  m_tx_results : List (Uint256 × MempoolAcceptResult)
  deriving DecidableEq, Repr

/-- A transaction that did not pass, with its fees and size as far as they were found. -/
structure Rejection where
  state : TxValidationState
  m_modified_fees : Int := 0
  m_vsize : Nat := 0

namespace MemPoolAccept

variable (env : AcceptEnv)

section

variable (pool : CTxMemPool)

/-- `exists` for a witness transaction id. -/
def existsWtxid (wtxid : Uint256) : Bool :=
  pool.txids.any fun it => env.wtxid (pool.entry it).tx = wtxid

variable (added : List CTransaction)

/-- `CCoinsViewMemPool::GetCoin`, with the transactions that were added for a package. -/
def getCoin (outpoint : COutPoint) : Option Coin :=
  let output := fun tx : CTransaction =>
    tx.vout[outpoint.n.toNat]?.map fun txout => (⟨txout, false, MEMPOOL_HEIGHT⟩ : Coin)
  match added.findSome? fun tx => if env.mempool.txid tx = outpoint.hash then output
    tx else none with
  | some coin => some coin
  | none =>
    if outpoint.hash ∈ pool.txids then output (pool.entry outpoint.hash).tx
    else env.coinsTip outpoint

/-! ## PreChecks -/

/-- The checks of `PreChecks` that do not look at inputs. -/
def checkLoose (tx : CTransaction) : Except TxValidationState Unit :=
  match checkTransaction tx with
  | .error err => .error err.state
  | .ok () =>
    if tx.isCoinBase then .error ⟨.txConsensus, "coinbase"⟩
    else
      match if env.require_standard then env.isStandardTx tx else none with
      | some reason => .error ⟨.txNotStandard, reason⟩
      | none =>
        if (serializeTransaction false tx).length < MIN_STANDARD_TX_NONWITNESS_SIZE then
          .error ⟨.txNotStandard, "tx-size-small"⟩
        else if !env.checkFinalTxAtTip tx then .error ⟨.txPrematureSpend, "non-final"⟩
        else if existsWtxid env pool (env.wtxid tx) then
          .error ⟨.txConflict, "txn-already-in-mempool"⟩
        else if env.mempool.txid tx ∈ pool.txids then
          .error ⟨.txConflict, "txn-same-nonwitness-data-in-mempool"⟩
        else .ok ()

/-- The loop of `PreChecks` over the inputs that collects conflicts. -/
def findConflicts (pool : CTxMemPool) (allow_replacement : Bool) :
    List CTxIn → List Uint256 → Except TxValidationState (List Uint256)
  | [], m_conflicts => .ok m_conflicts
  | txin :: vin, m_conflicts =>
    match pool.mapNextTx.lookup txin.prevout with
    | none => findConflicts pool allow_replacement vin m_conflicts
    | some conflicting =>
      if !allow_replacement then .error ⟨.txMempoolPolicy, "bip125-replacement-disallowed"⟩
      else findConflicts pool allow_replacement vin
        (m_conflicts.insert (env.mempool.txid (pool.entry conflicting).tx))

/-- The checks of `PreChecks` that look at inputs. The result is the fee. -/
def checkInputs (tx : CTransaction) (view : COutPoint → Option Coin) :
    Except TxValidationState Int :=
  if tx.vin.any fun txin => (view txin.prevout).isNone then
    if (List.range tx.vout.length).any fun out =>
        env.haveCoinInCache ⟨env.mempool.txid tx, UInt32.ofNat out⟩ then
      .error ⟨.txConflict, "txn-already-known"⟩
    else .error ⟨.txMissingInputs, "bad-txns-inputs-missingorspent"⟩
  else if !env.checkSequenceLocksAtTip tx view then
    .error ⟨.txPrematureSpend, "non-BIP68-final"⟩
  else
    match env.checkTxInputs tx view with
    | .error state => .error state
    | .ok m_base_fees =>
      if env.require_standard && !env.areInputsStandard tx view then
        .error ⟨.txInputsNotStandard, "bad-txns-nonstandard-inputs"⟩
      else if tx.hasWitness && env.require_standard && !env.isWitnessStandard tx view then
        .error ⟨.txWitnessMutated, "bad-witness-nonstandard"⟩
      else .ok m_base_fees

variable (args : ATMPArgs)

/-- The transaction is staged, and the workspace gets its size and fees. -/
def stageWorkspace (tx : CTransaction) (view : COutPoint → Option Coin) (m_conflicts : List Uint256)
    (m_base_fees : Int) : Workspace :=
  let addition : CTxMemPool.Addition :=
    ⟨tx, m_base_fees, args.m_accept_time, env.getTransactionSigOpCost tx view⟩
  let entry := CTxMemPool.stageAddition env.mempool pool addition
  { tx := tx
    m_conflicts := m_conflicts
    m_iters_conflicting := m_conflicts.filter (· ∈ pool.txids)
    m_ancestors := []
    addition := addition
    m_sibling_eviction := false
    m_vsize := entry.getTxSize env.mempool
    m_base_fees := m_base_fees
    m_modified_fees := entry.m_modified_fee }

def checkFeeRate (package_size : Nat) (package_fee : Int) : Except TxValidationState Unit :=
  let mempoolRejectFee := env.getFee (env.getMinFee pool) package_size
  if 0 < mempoolRejectFee ∧ package_fee < mempoolRejectFee then
    .error ⟨.txReconsiderable, "mempool min fee not met"⟩
  else if package_fee < env.getFee env.min_relay_feerate package_size then
    .error ⟨.txReconsiderable, "min relay fee not met"⟩
  else .ok ()

def preCheckEphemeralTx (tx : CTransaction) (base_fee mod_fee : Int) : Bool :=
  !((base_fee ≠ 0 ∨ mod_fee ≠ 0) && tx.vout.any env.isDust)

/-- The checks of `PreChecks` on size and fees. -/
def checkFees (args : ATMPArgs) (ws : Workspace) : Except TxValidationState Unit :=
  if env.require_standard && !preCheckEphemeralTx env ws.tx ws.m_base_fees ws.m_modified_fees then
    .error ⟨.txNotStandard, "dust"⟩
  else if MAX_STANDARD_TX_SIGOPS_COST < ws.addition.sigops_cost then
    .error ⟨.txNotStandard, "bad-txns-too-many-sigops"⟩
  else if !args.m_bypass_limits && decide (ws.tx.version ≠ TRUC_VERSION) &&
      decide (ws.m_modified_fees < env.getFee env.min_relay_feerate ws.m_vsize) then
    .error ⟨.txMempoolPolicy, "min relay fee not met"⟩
  else if !args.m_bypass_limits && !args.m_package_feerates then
    checkFeeRate env pool ws.m_vsize ws.m_modified_fees
  else .ok ()

variable (ws : Workspace)

/-- The limits with the carve-out for a replacement of exactly one conflict. -/
def maybeRbfLimits : MemPoolLimits :=
  let limits := env.mempool.limits
  match ws.m_conflicts, args.m_allow_carveouts with
  | [conflict], true =>
    { limits with
      descendant_count := limits.descendant_count + 1
      descendant_size_vbytes := limits.descendant_size_vbytes +
        (pool.entry conflict).withDescendants.size }
  | _, _ => limits

/-- The limits with the carve-out for a child that pays for its parent. -/
def cpfpCarveOutLimits (limits : MemPoolLimits) : MemPoolLimits where
  ancestor_count := 2
  ancestor_size_vbytes := limits.ancestor_size_vbytes
  descendant_count := limits.descendant_count + 1
  descendant_size_vbytes := limits.descendant_size_vbytes + EXTRA_DESCENDANT_TX_SIZE_LIMIT

/-- The ancestors of the transaction, within the limits or those of a carve-out. -/
def findAncestors : Except TxValidationState (List Uint256) :=
  let entry := CTxMemPool.stageAddition env.mempool pool ws.addition
  let maybe_rbf_limits := maybeRbfLimits env pool args ws
  let tooLong : TxValidationState := ⟨.txMempoolPolicy, "too-long-mempool-chain"⟩
  match pool.calculateMemPoolAncestors env.mempool entry (some maybe_rbf_limits) true with
  | .ok ancestors => .ok ancestors
  | .error _ =>
    if !args.m_allow_carveouts then .error tooLong
    else if EXTRA_DESCENDANT_TX_SIZE_LIMIT < ws.m_vsize ∨ ws.tx.version = TRUC_VERSION then
      .error tooLong
    else
      match pool.calculateMemPoolAncestors env.mempool entry
        (some (cpfpCarveOutLimits maybe_rbf_limits)) true with
      | .ok ancestors => .ok ancestors
      | .error _ => .error tooLong

/-- The rules for version 3 transactions in `PreChecks`. A sibling that may be evicted
joins the conflicts. -/
def checkTruc : Except TxValidationState Workspace :=
  match pool.singleTRUCChecks env.mempool ws.tx ws.m_ancestors ws.m_conflicts ws.m_vsize with
  | none => .ok ws
  | some none => .error ⟨.txMempoolPolicy, "TRUC-violation"⟩
  | some (some sibling) =>
    if args.m_allow_sibling_eviction then
      .ok { ws with
        m_conflicts := ws.m_conflicts.insert sibling
        m_iters_conflicting := ws.m_iters_conflicting.insert sibling
        m_sibling_eviction := true }
    else .error ⟨.txMempoolPolicy, "TRUC-violation"⟩

/-- The part of `PreChecks` before the transaction is staged. -/
def checkUnstaged (args : ATMPArgs) (tx : CTransaction) : Except TxValidationState Workspace := do
  checkLoose env pool tx
  let m_conflicts ← findConflicts env pool args.m_allow_replacement tx.vin []
  let m_base_fees ← checkInputs env tx (getCoin env pool added)
  return stageWorkspace env pool args tx (getCoin env pool added) m_conflicts m_base_fees

/-- The part of `PreChecks` after the transaction was staged. -/
def checkStaged : Except TxValidationState Workspace := do
  checkFees env pool args ws
  let m_ancestors ← findAncestors env pool args ws
  let ws ← checkTruc env pool args { ws with m_ancestors := m_ancestors }
  if pool.entriesAndTxidsDisjoint env.mempool ws.m_ancestors ws.m_conflicts then return ws
  else .error ⟨.txConsensus, "bad-txns-spends-conflicting-tx"⟩

def preChecks (args : ATMPArgs) (tx : CTransaction) : Except Rejection Workspace :=
  match checkUnstaged env pool added args tx with
  | .error state => .error { state := state }
  | .ok ws =>
    match checkStaged env pool args ws with
    | .error state =>
      .error { state := state, m_modified_fees := ws.m_modified_fees, m_vsize := ws.m_vsize }
    | .ok ws => .ok ws

/-! ## Replacements -/

/-- What is added to a reason when a sibling is among the conflicts. -/
def siblingSuffix : String :=
  if ws.m_sibling_eviction then " (including sibling eviction)" else ""

/-- `m_conflicting_fees`, of entries that are to be replaced. -/
def conflictingFees (all_conflicts : List Uint256) : Int :=
  toAmount (pool.feesOf all_conflicts)

/-- `ReplacementChecks`: the entries that are to be removed. -/
def replacementChecks : Except TxValidationState (List Uint256) :=
  let newFeeRate := CFeeRate.new ws.m_modified_fees ws.m_vsize
  if !pool.paysMoreThanConflicts env.mempool ws.m_iters_conflicting newFeeRate then
    .error ⟨.txReconsiderable, "insufficient fee" ++ siblingSuffix ws⟩
  else
    match pool.getEntriesForConflicts ws.m_iters_conflicting with
    | none => .error ⟨.txMempoolPolicy, "too many potential replacements" ++ siblingSuffix ws⟩
    | some all_conflicts =>
      if !pool.hasNoNewUnconfirmed ws.tx all_conflicts then
        .error ⟨.txMempoolPolicy, "replacement-adds-unconfirmed" ++ siblingSuffix ws⟩
      else if !CTxMemPool.paysForRBF (conflictingFees pool all_conflicts) ws.m_modified_fees
          (env.getFee env.incremental_relay_feerate ws.m_vsize) then
        .error ⟨.txReconsiderable, "insufficient fee" ++ siblingSuffix ws⟩
      else .ok all_conflicts

/-- The size of all transactions of a package. -/
def totalVsize (workspaces : List Workspace) : Nat := (workspaces.map (·.m_vsize)).sum

/-- The modified fees of all transactions of a package. -/
def newFees (workspaces : List Workspace) : Int := (workspaces.map (·.m_modified_fees)).sum

/-- `m_total_modified_fees`. -/
def totalModifiedFees (workspaces : List Workspace) : Int := toAmount (newFees workspaces)

variable (txns : List CTransaction)

/-- The part of `PackageMempoolChecks` for a package with conflicts. -/
def packageReplacementChecks (workspaces : List Workspace) :
    Except PackageValidationState (List Uint256) :=
  match workspaces with
  | [parent_ws, child_ws] =>
    if !isChildWithParents env.mempool.txid txns then
      .error ⟨.pckgPolicy, "package RBF failed: package must be 1-parent-1-child"⟩
    else if workspaces.any fun ws => !ws.m_ancestors.isEmpty then
      .error ⟨.pckgPolicy,
        "package RBF failed: new transaction cannot have mempool ancestors"⟩
    else
      match pool.getEntriesForConflicts
        (parent_ws.m_iters_conflicting ∪ child_ws.m_iters_conflicting) with
      | none => .error ⟨.pckgPolicy, "package RBF failed: too many potential replacements"⟩
      | some all_conflicts =>
        if !CTxMemPool.paysForRBF (conflictingFees pool all_conflicts)
            (totalModifiedFees workspaces)
            (env.getFee env.incremental_relay_feerate (totalVsize workspaces)) then
          .error ⟨.pckgPolicy, "package RBF failed: insufficient anti-DoS fees"⟩
        else if (CFeeRate.new (totalModifiedFees workspaces)
              (totalVsize workspaces)).nSatoshisPerK ≤
            (CFeeRate.new parent_ws.m_modified_fees parent_ws.m_vsize).nSatoshisPerK then
          .error ⟨.pckgPolicy,
            "package RBF failed: package feerate is less than or equal to parent feerate"⟩
        else
          match env.improvesFeerateDiagram pool all_conflicts (workspaces.map (·.addition)) with
          | some err => .error ⟨.pckgPolicy, "package RBF failed: " ++ err⟩
          | none => .ok all_conflicts
  | _ => .error ⟨.pckgPolicy, "package RBF failed: package must be 1-parent-1-child"⟩

/-- `PackageMempoolChecks`: the entries that are to be removed. -/
def packageMempoolChecks (workspaces : List Workspace) :
    Except PackageValidationState (List Uint256) :=
  if !pool.checkPackageLimits env.mempool txns (totalVsize workspaces) then
    .error ⟨.pckgPolicy, "package-mempool-limits"⟩
  else if workspaces.all fun ws => ws.m_conflicts.isEmpty then .ok []
  else packageReplacementChecks env pool txns workspaces

/-! ## Ephemeral dust -/

variable (package : List CTransaction)

/-- A parent in the package or in the mempool. -/
def ephemeralParent (parent_txid : Uint256) : Option CTransaction :=
  match package.find? fun tx => env.mempool.txid tx = parent_txid with
  | some tx => some tx
  | none => if parent_txid ∈ pool.txids then some (pool.entry parent_txid).tx else none

/-- A transaction spends the dust of all its parents. -/
def spendsParentDust (tx : CTransaction) : Bool :=
  tx.vin.all fun tx_input =>
    match ephemeralParent env pool package tx_input.prevout.hash with
    | none => true
    | some parent_ref => parent_ref.vout.zipIdx.all fun output =>
      !env.isDust output.1 ||
        (tx.vin.map (·.prevout)).contains ⟨tx_input.prevout.hash, UInt32.ofNat output.2⟩

/-- `CheckEphemeralSpends`: the child that does not spend the dust of its parents. -/
def checkEphemeralSpends : Option CTransaction :=
  package.find? fun tx => !spendsParentDust env pool package tx

/-! ## Submission -/

/-- Transactions that passed all checks before `FinalizeSubpackage`, with the entries that
they replace. -/
structure Submission where
  workspaces : List Workspace
  m_to_remove : List Uint256

variable (submission : Submission)

/-- `FinalizeSubpackage`. The ancestors of the first transaction are known from
`PreChecks`. -/
def finalizeSubpackage : CTxMemPool :=
  pool.apply env.mempool submission.m_to_remove (submission.workspaces.map (·.addition)) true

def limitMempoolSize : CTxMemPool :=
  let pool := pool.expire env.mempool env.expiry
  pool.trimToSize env.mempool env.usage env.before env.max_size_bytes pool.txids.length

/-- The fee rate of a transaction exceeds the maximum of the caller. -/
def exceedsMaxFeerate : Bool :=
  match args.m_client_maxfeerate with
  | none => false
  | some maxfeerate =>
    maxfeerate.nSatoshisPerK < (CFeeRate.new ws.m_modified_fees ws.m_vsize).nSatoshisPerK

/-- The result for a transaction that was rejected: reasons that have to do with fees come
with the fee rate. -/
def failure (tx : CTransaction) (rejection : Rejection) : MempoolAcceptResult :=
  .invalid rejection.state
    (if rejection.state.result = .txReconsiderable then
      some (CFeeRate.new rejection.m_modified_fees rejection.m_vsize, [env.wtxid tx])
    else none)

variable (workspaces : List Workspace)

/-- The result for a transaction that was accepted, on its own or in a package. -/
def success (replaced : List CTransaction) (ws : Workspace) : MempoolAcceptResult :=
  if args.m_package_feerates then
    .valid replaced ws.m_vsize ws.m_base_fees
      (CFeeRate.new (totalModifiedFees workspaces) (totalVsize workspaces))
      (workspaces.map fun ws => env.wtxid ws.tx)
  else
    .valid replaced ws.m_vsize ws.m_base_fees (CFeeRate.new ws.m_modified_fees ws.m_vsize)
      [env.wtxid ws.tx]

/-- The transactions that a submission replaces. -/
def replacedTransactions : List CTransaction :=
  submission.m_to_remove.map fun it => (pool.entry it).tx

/-! ## One transaction -/

/-- The entries that `AcceptSingleTransaction` is to remove. -/
def findRemovals : Except Rejection (List Uint256) :=
  if ws.m_conflicts.isEmpty then .ok []
  else (replacementChecks env pool ws).mapError fun state =>
    ⟨state, ws.m_modified_fees, ws.m_vsize⟩

/-- The checks of `AcceptSingleTransaction` before the transaction is submitted. -/
def checkSingle (tx : CTransaction) : Except MempoolAcceptResult Submission := do
  let view := getCoin env pool []
  let ws ← (preChecks env pool [] args tx).mapError (failure env tx)
  if exceedsMaxFeerate args ws then
    .error (.invalid ⟨.txMempoolPolicy, "max feerate exceeded"⟩ none)
  else if env.require_standard && (checkEphemeralSpends env pool [tx]).isSome then
    .error (.invalid ⟨.txMempoolPolicy, "missing-ephemeral-spends"⟩ none)
  else
    let m_to_remove ← (findRemovals env pool ws).mapError (failure env tx)
    (env.policyScriptChecks tx view).mapError fun state => .invalid state none
    (env.consensusScriptChecks tx view).mapError fun state => .invalid state none
    return ⟨[ws], m_to_remove⟩

def acceptSingleTransaction (tx : CTransaction) : CTxMemPool × MempoolAcceptResult :=
  match checkSingle env pool args tx with
  | .error result => (pool, result)
  | .ok submission =>
    let result := fun replaced => match submission.workspaces with
      | ws :: _ => .valid replaced ws.m_vsize ws.m_base_fees
          (CFeeRate.new ws.m_modified_fees ws.m_vsize) [env.wtxid tx]
      | [] => .invalid ⟨.txUnknown, ""⟩ none
    if args.m_test_accept then (pool, result [])
    else
      let after := finalizeSubpackage env pool submission
      if !args.m_package_submission && !args.m_bypass_limits then
        let limited := limitMempoolSize env after
        if env.mempool.txid tx ∈ limited.txids then
          (limited, result (replacedTransactions pool submission))
        else
          (limited, failure env tx ⟨⟨.txReconsiderable, "mempool full"⟩,
            totalModifiedFees submission.workspaces, totalVsize submission.workspaces⟩)
      else (after, result (replacedTransactions pool submission))

/-! ## Several transactions -/

/-- The entries that `AcceptMultipleTransactions` is to remove. -/
def findPackageRemovals : Except PackageValidationState (List Uint256) :=
  if 1 < txns.length then packageMempoolChecks env pool txns workspaces else .ok []

/-- A package result with one result for a transaction. -/
def packageFailure (tx : CTransaction) (state : TxValidationState) : PackageMempoolAcceptResult :=
  ⟨some ⟨.pckgTx, "transaction failed"⟩, [(env.wtxid tx, .invalid state none)]⟩

/-- The first loop of `AcceptMultipleTransactions`. Each transaction sees the coins of those
before it. -/
def preChecksLoop (pool : CTxMemPool) (args : ATMPArgs) :
    List CTransaction → List CTransaction → Except PackageMempoolAcceptResult (List Workspace)
  | [], _ => .ok []
  | tx :: txns, added => do
    let ws ← (preChecks env pool added args tx).mapError fun rejection =>
      packageFailure env tx rejection.state
    if exceedsMaxFeerate args ws then
      .error (packageFailure env tx ⟨.txMempoolPolicy, "max feerate exceeded"⟩)
    else
      let workspaces ← preChecksLoop pool args txns (added ++ [tx])
      return ws :: workspaces

/-- The last loop of `AcceptMultipleTransactions`, with the results so far. -/
def policyScriptsLoop (view : COutPoint → Option Coin) (args : ATMPArgs)
    (workspaces : List Workspace) :
    List Workspace → List (Uint256 × MempoolAcceptResult) →
      Except PackageMempoolAcceptResult (List (Uint256 × MempoolAcceptResult))
  | [], results => .ok results
  | ws :: rest, results =>
    match env.policyScriptChecks ws.tx view with
    | .error state => .error ⟨some ⟨.pckgTx, "transaction failed"⟩,
        emplace results (env.wtxid ws.tx) (.invalid state none)⟩
    | .ok () => policyScriptsLoop view args workspaces rest
        (if args.m_test_accept then
          emplace results (env.wtxid ws.tx) (success env args workspaces [] ws)
        else results)

/-- The checks of `AcceptMultipleTransactions` on fee rates, when package fee rates are
used. -/
def checkPackageFeeRate : Except PackageMempoolAcceptResult Unit :=
  if args.m_package_feerates then
    (checkFeeRate env pool (totalVsize workspaces) (totalModifiedFees workspaces)).mapError
      fun state => ⟨some ⟨.pckgTx, "transaction failed"⟩,
        txns.getLast?.toList.map fun child => (env.wtxid child, .invalid state
          (some (CFeeRate.new (totalModifiedFees workspaces) (totalVsize workspaces),
            txns.map env.wtxid)))⟩
  else .ok ()

/-- The checks of `AcceptMultipleTransactions` before `SubmitPackage`, with the results that
are returned if the transactions are only tested. -/
def checkMultiple :
    Except PackageMempoolAcceptResult (Submission × List (Uint256 × MempoolAcceptResult)) := do
  match isWellFormedPackage env.mempool.txid txns true with
  | some state => .error ⟨some state, []⟩
  | none =>
    let workspaces ← preChecksLoop env pool args txns []
    if workspaces.all fun ws =>
        pool.packageTRUCChecks env.mempool ws.tx ws.m_vsize txns ws.m_ancestors then
      checkPackageFeeRate env pool args txns workspaces
      let m_to_remove ← (findPackageRemovals env pool txns workspaces).mapError
        fun state => ⟨some state, []⟩
      match if env.require_standard then checkEphemeralSpends env pool txns else none with
      | some child => .error ⟨some ⟨.pckgTx, "unspent-dust"⟩,
          [(env.wtxid child, .invalid ⟨.txMempoolPolicy, "missing-ephemeral-spends"⟩ none)]⟩
      | none =>
        let results ← policyScriptsLoop env (getCoin env pool txns) args workspaces workspaces []
        return (⟨workspaces, m_to_remove⟩, results)
    else .error ⟨some ⟨.pckgPolicy, "TRUC-violation"⟩, []⟩

/-- The transactions for which `ConsensusScriptChecks` fails, with the state. -/
def consensusFailures (view : COutPoint → Option Coin) (workspaces : List Workspace) :
    List (CTransaction × TxValidationState) :=
  workspaces.filterMap fun ws => match env.consensusScriptChecks ws.tx view with
    | .error state => some (ws.tx, state)
    | .ok () => none

/-- The results of a package that was submitted. The replaced transactions are moved into
the first one. -/
def submittedResults (replaced : List CTransaction) : List (Uint256 × MempoolAcceptResult) :=
  match workspaces with
  | [] => []
  | first :: rest => rest.foldl
      (fun results ws => emplace results (env.wtxid ws.tx) (success env args workspaces [] ws))
      [(env.wtxid first.tx, success env args workspaces replaced first)]

/-- `SubmitPackage`. A transaction that fails the second check of its scripts is taken out
again. -/
def submitPackage : CTxMemPool × PackageMempoolAcceptResult :=
  let after := finalizeSubpackage env pool submission
  match consensusFailures env (getCoin env pool txns) submission.workspaces with
  | [] => (after, ⟨none, submittedResults env args submission.workspaces
      (replacedTransactions pool submission)⟩)
  | failed =>
    let last := (failed.getLast?.map fun tx => (env.mempool.txid tx.1).toHex).getD ""
    (after.apply env.mempool (failed.map fun tx => env.mempool.txid tx.1) [] false,
    ⟨some ⟨.pckgMempoolError,
      s!"BUG! PolicyScriptChecks succeeded but ConsensusScriptChecks failed: {last}"⟩,
    failed.foldl (fun results tx => emplace results (env.wtxid tx.1) (.invalid tx.2 none)) []⟩)

def acceptMultipleTransactions : CTxMemPool × PackageMempoolAcceptResult :=
  match checkMultiple env pool args txns with
  | .error result => (pool, result)
  | .ok (submission, results) =>
    if args.m_test_accept then (pool, ⟨none, results⟩)
    else submitPackage env pool args txns submission

def acceptSubPackage (subpackage : List CTransaction) : CTxMemPool × PackageMempoolAcceptResult :=
  match subpackage with
  | [tx] =>
    match acceptSingleTransaction env pool args.singleInPackageAccept tx with
    | (after, result) =>
      let state : Option PackageValidationState := match result with
        | .valid .. => none
        | _ => some ⟨.pckgTx, "transaction failed"⟩
      (after, ⟨state, [(env.wtxid tx, result)]⟩)
  | _ => acceptMultipleTransactions env pool args subpackage

end

/-! ## Packages -/

/-- What `AcceptPackage` carries from one transaction of the package to the next. -/
structure PackageProgress where
  pool : CTxMemPool
  results_final : List (Uint256 × MempoolAcceptResult) := []
  individual_results_nonfinal : List (Uint256 × MempoolAcceptResult) := []
  quit_early : Bool := false
  txns_package_eval : List CTransaction := []

/-- The result for a transaction that is in the mempool already, by its id. -/
def alreadyThere (pool : CTxMemPool) (tx : CTransaction) : MempoolAcceptResult :=
  let entry := pool.entry (env.mempool.txid tx)
  if existsWtxid env pool (env.wtxid tx) then
    .mempoolEntry (entry.getTxSize env.mempool) entry.nFee
  else .differentWitness (env.wtxid entry.tx)

/-- A transaction that failed for its fees or for missing inputs may pass with others. -/
def mayPassInPackage : MempoolAcceptResult → Bool
  | .invalid state _ =>
    decide (state.result = .txReconsiderable) || decide (state.result = .txMissingInputs)
  | _ => false

/-- A transaction of a package that failed on its own is tried again with the others if it
may pass then. -/
def noteFailure (package_size : Nat) (tx : CTransaction) (result : MempoolAcceptResult)
    (progress : PackageProgress) : PackageProgress :=
  let nonfinal := emplace progress.individual_results_nonfinal (env.wtxid tx) result
  if package_size = 1 ∨ !mayPassInPackage result then
    { progress with quit_early := true, individual_results_nonfinal := nonfinal }
  else
    { progress with
      individual_results_nonfinal := nonfinal
      txns_package_eval := progress.txns_package_eval ++ [tx] }

/-- The body of the first loop of `AcceptPackage`. -/
def tryAlone (args : ATMPArgs) (package_size : Nat) (progress : PackageProgress)
    (tx : CTransaction) : PackageProgress :=
  let pool := progress.pool
  if existsWtxid env pool (env.wtxid tx) || decide (env.mempool.txid tx ∈ pool.txids) then
    { progress with
      results_final := emplace progress.results_final (env.wtxid tx) (alreadyThere env pool tx) }
  else
    match acceptSubPackage env pool args [tx] with
    | (after, single_package_res) =>
      let progress := { progress with pool := after }
      match single_package_res.m_tx_results.lookup (env.wtxid tx) with
      | some (.valid replaced vsize fees feerate wtxids) =>
        { progress with
          results_final := emplace progress.results_final (env.wtxid tx)
            (.valid replaced vsize fees feerate wtxids) }
      | some result => noteFailure env package_size tx result progress
      | none => progress

/-- The transactions that failed on their own are tried together, unless one of them cannot
pass. -/
def submitLeftovers (args : ATMPArgs) (progress : PackageProgress) :
    CTxMemPool × PackageMempoolAcceptResult :=
  let package_state_quit_early : Option PackageValidationState :=
    if progress.quit_early then some ⟨.pckgTx, "transaction failed"⟩ else none
  if progress.quit_early || progress.txns_package_eval.isEmpty then
    (progress.pool, ⟨package_state_quit_early, []⟩)
  else acceptSubPackage env progress.pool args progress.txns_package_eval

/-- The result for a transaction that was evicted since it was accepted. -/
def mempoolFull : MempoolAcceptResult := .invalid ⟨.txMempoolPolicy, "mempool full"⟩ none

/-- The body of the last loop of `AcceptPackage`, for the package state and the results. -/
def mergeResult (pool : CTxMemPool) (multi individual : List (Uint256 × MempoolAcceptResult))
    (merged : PackageMempoolAcceptResult) (tx : CTransaction) : PackageMempoolAcceptResult :=
  let wtxid := env.wtxid tx
  let failed : Option PackageValidationState := some ⟨.pckgTx, "transaction failed"⟩
  match multi.lookup wtxid with
  | some (.valid replaced vsize fees feerate wtxids) =>
    if existsWtxid env pool wtxid then
      { merged with
        m_tx_results := emplace merged.m_tx_results wtxid
          (.valid replaced vsize fees feerate wtxids) }
    else ⟨failed, emplace merged.m_tx_results wtxid mempoolFull⟩
  | some result => { merged with m_tx_results := emplace merged.m_tx_results wtxid result }
  | none =>
    if wtxid ∈ merged.m_tx_results.map Prod.fst then
      if env.mempool.txid tx ∈ pool.txids then merged
      else ⟨failed, emplace (eraseKey merged.m_tx_results wtxid) wtxid
        mempoolFull⟩
    else
      match individual.lookup wtxid with
      | some result => { merged with m_tx_results := emplace merged.m_tx_results wtxid result }
      | none => merged

/-- The checks of `AcceptPackage` on the package as a whole. -/
def checkPackage (package : List CTransaction) : Option PackageValidationState :=
  match isWellFormedPackage env.mempool.txid package true with
  | some state => some state
  | none =>
    if package.length ≤ 1 then none
    else if !isChildWithParents env.mempool.txid package then
      some ⟨.pckgPolicy, "package-not-child-with-parents"⟩
    else
      match package.getLast? with
      | none => none
      | some child =>
        let unconfirmed_parent_txids := package.dropLast.map env.mempool.txid
        if child.vin.all fun input =>
            decide (input.prevout.hash ∈ unconfirmed_parent_txids) ||
              (env.coinsTip input.prevout).isSome then none
        else some ⟨.pckgPolicy, "package-not-child-with-unconfirmed-parents"⟩

def acceptPackage (pool : CTxMemPool) (args : ATMPArgs) (package : List CTransaction) :
    CTxMemPool × PackageMempoolAcceptResult :=
  match checkPackage env package with
  | some state => (pool, ⟨some state, []⟩)
  | none =>
    let progress := package.foldl (tryAlone env args package.length) { pool := pool }
    match submitLeftovers env args progress with
    | (after, multi) =>
      let limited := limitMempoolSize env after
      (limited, package.foldl
        (mergeResult env limited multi.m_tx_results progress.individual_results_nonfinal)
        ⟨multi.m_state, progress.results_final⟩)

end MemPoolAccept

open MemPoolAccept

def acceptToMemoryPool (env : AcceptEnv) (pool : CTxMemPool) (tx : CTransaction) (accept_time : Int)
    (bypass_limits test_accept : Bool) : CTxMemPool × MempoolAcceptResult :=
  acceptSingleTransaction env pool (.singleAccept accept_time bypass_limits test_accept) tx

def processNewPackage (env : AcceptEnv) (pool : CTxMemPool) (package : List CTransaction)
    (time : Int) (test_accept : Bool) (client_maxfeerate : Option CFeeRate) :
    CTxMemPool × PackageMempoolAcceptResult :=
  if test_accept then acceptMultipleTransactions env pool (.packageTestAccept time) package
  else acceptPackage env pool (.packageChildWithParents time client_maxfeerate) package

end BtcSharp
