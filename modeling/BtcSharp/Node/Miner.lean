/-
# Block templates

`BlockAssembler::addPackageTxs` of `node/miner.cpp` with what it calls. Two sorted views are
merged: what is left of the index of the mempool by ancestor score, and the entries of
`mapModifiedTx` with the score they have once some of their ancestors are in the block. The
score is compared in floating point numbers, and so is the minimum fee calculated; both are
inputs. The places of the coinbase transaction in the template are left out, and so are log
messages. Weights, sizes and numbers of signature operations are unbounded.
-/

import BtcSharp.Math.Loop
import BtcSharp.Mempool.TxMempool

namespace BtcSharp

open Math

def MINIMUM_BLOCK_RESERVED_WEIGHT : Nat := 2000
def MAX_CONSECUTIVE_FAILURES : Nat := 1000

/-- `BlockAssembler::Options`, with the fee that the minimum fee rate asks for a size. -/
structure BlockAssemblerOptions where
  nBlockMaxWeight : Nat
  blockMinFee : Int → Int
  block_reserved_weight : Nat
  coinbase_output_max_additional_sigops : Nat

/-- `ClampOptions`. Nothing if an assertion fails. -/
def clampOptions (options : BlockAssemblerOptions) : Option BlockAssemblerOptions :=
  if options.block_reserved_weight ≤ MAX_BLOCK_WEIGHT ∧
      MINIMUM_BLOCK_RESERVED_WEIGHT ≤ options.block_reserved_weight ∧
      options.coinbase_output_max_additional_sigops ≤ MAX_BLOCK_SIGOPS_COST then
    some { options with
      nBlockMaxWeight :=
      max options.block_reserved_weight (min options.nBlockMaxWeight MAX_BLOCK_WEIGHT) }
  else none

structure CTxMemPoolModifiedEntry where
  iter : Uint256
  nSizeWithAncestors : Int
  nModFeesWithAncestors : Int
  nSigOpCostWithAncestors : Int
  deriving DecidableEq, Repr

/-- The constructor from an entry of the mempool. -/
def CTxMemPoolModifiedEntry.new (pool : CTxMemPool) (it : Uint256) : CTxMemPoolModifiedEntry :=
  let entry := pool.entry it
  ⟨it, entry.withAncestors.size, entry.withAncestors.fees, entry.withAncestors.sigOps⟩

def CTxMemPoolModifiedEntry.updateForParentInclusion (env : MempoolEnv) (entry : CTxMemPoolEntry)
    (e : CTxMemPoolModifiedEntry) : CTxMemPoolModifiedEntry :=
  { e with
    nModFeesWithAncestors := e.nModFeesWithAncestors - entry.m_modified_fee
    nSizeWithAncestors := e.nSizeWithAncestors - entry.getTxSize env
    nSigOpCostWithAncestors := e.nSigOpCostWithAncestors - entry.sigOpCost }

/-- What the assembler is given: the options as they were clamped, the height and the time that
transactions have to be final at, and `CompareTxMemPoolEntryByAncestorFee`. -/
structure MinerEnv where
  mempool : MempoolEnv
  options : BlockAssemblerOptions
  nHeight : Int
  m_lock_time_cutoff : Int
  byAncestorFee : CTxMemPoolModifiedEntry → CTxMemPoolModifiedEntry → Bool

/-- `BlockAssembler`, with the block template. -/
structure BlockAssembler where
  vtx : List CTransaction := []
  vTxFees : List Int := []
  vTxSigOpsCost : List Nat := []
  m_package_feerates : List (Int × Int) := []
  nBlockWeight : Nat
  nBlockTx : Nat := 0
  nBlockSigOpsCost : Nat
  nFees : Int := 0
  inBlock : List Uint256 := []

/-- What `addPackageTxs` keeps from one round to the next. -/
structure PackageSelection where
  block : BlockAssembler
  mapModifiedTx : List CTxMemPoolModifiedEntry := []
  failedTx : List Uint256 := []
  mi : List Uint256
  nConsecutiveFailed : Nat := 0
  assertFailed : Bool := false

/-- The hash as bytes, in the order in which hashes are compared. -/
def Uint256.bytes (hash : Uint256) : List Nat :=
  (List.range 32).map fun i => hash.toNat / 256 ^ i % 256

namespace BlockAssembler

variable (env : MinerEnv) (pool : CTxMemPool)

def resetBlock : BlockAssembler where
  nBlockWeight := env.options.block_reserved_weight
  nBlockSigOpsCost := env.options.coinbase_output_max_additional_sigops

/-- The txid of an entry. -/
def hashOf (it : Uint256) : Uint256 := env.mempool.txid (pool.entry it).tx

variable (block : BlockAssembler)

def onlyUnconfirmed (testSet : List Uint256) : List Uint256 :=
  testSet.filter fun it => hashOf env pool it ∉ block.inBlock

def testPackage (packageSize packageSigOpsCost : Int) : Bool :=
  decide (block.nBlockWeight + WITNESS_SCALE_FACTOR * packageSize < env.options.nBlockMaxWeight) &&
    decide (block.nBlockSigOpsCost + packageSigOpsCost < MAX_BLOCK_SIGOPS_COST)

def testPackageTransactions (package : List Uint256) : Bool :=
  package.all fun it => isFinalTx (pool.entry it).tx env.nHeight env.m_lock_time_cutoff

def addToBlock (iter : Uint256) : BlockAssembler :=
  let entry := pool.entry iter
  { block with
    vtx := block.vtx ++ [entry.tx]
    vTxFees := block.vTxFees ++ [entry.nFee]
    vTxSigOpsCost := block.vTxSigOpsCost ++ [entry.sigOpCost]
    nBlockWeight := block.nBlockWeight + getTransactionWeight entry.tx
    nBlockTx := block.nBlockTx + 1
    nBlockSigOpsCost := block.nBlockSigOpsCost + entry.sigOpCost
    nFees := block.nFees + entry.nFee
    inBlock := block.inBlock.insert (hashOf env pool iter) }

/-- `CompareTxIterByAncestorCount`, where entries that are equal come in any order. -/
def notAfter (a b : Uint256) : Prop :=
  (pool.entry a).withAncestors.count < (pool.entry b).withAncestors.count ∨
    (pool.entry a).withAncestors.count = (pool.entry b).withAncestors.count ∧
      Uint256.bytes (hashOf env pool a) ≤ Uint256.bytes (hashOf env pool b)

instance (a b : Uint256) : Decidable (notAfter env pool a b) :=
  inferInstanceAs (Decidable (_ ∨ _ ∧ _))

def sortForBlock (package : List Uint256) : List Uint256 :=
  package.insertionSort (notAfter env pool)

/-- The entry of a descendant in `mapModifiedTx`, made if it is not there, loses an ancestor. -/
def updateModified (it : Uint256) (mapModifiedTx : List CTxMemPoolModifiedEntry) (desc : Uint256) :
    List CTxMemPoolModifiedEntry :=
  let mapModifiedTx := if desc ∈ mapModifiedTx.map (·.iter) then mapModifiedTx
    else mapModifiedTx ++ [.new pool desc]
  mapModifiedTx.map fun e =>
    if e.iter = desc then e.updateForParentInclusion env.mempool (pool.entry it) else e

def updatePackagesForAdded (alreadyAdded : List Uint256)
    (mapModifiedTx : List CTxMemPoolModifiedEntry) : List CTxMemPoolModifiedEntry :=
  alreadyAdded.foldl (fun mapModifiedTx it =>
    ((pool.calculateDescendants it []).filter (· ∉ alreadyAdded)).foldl (updateModified env pool it)
      mapModifiedTx) mapModifiedTx

/-- The first entry of `mapModifiedTx` by ancestor score. -/
def firstModified : List CTxMemPoolModifiedEntry → Option CTxMemPoolModifiedEntry
  | [] => none
  | e :: es =>
    match firstModified es with
    | none => some e
    | some other => if env.byAncestorFee other e then some other else some e

/-- The index of the mempool by ancestor score. -/
def ancestorScoreIndex : List Uint256 :=
  pool.txids.insertionSort fun a b => env.byAncestorFee (.new pool b) (.new pool a) = false

variable (s : PackageSelection)

/-- An entry of the index that was gone through, or whose totals are not up to date. -/
def isStale (it : Uint256) : Bool :=
  decide (it ∈ s.mapModifiedTx.map (·.iter)) || decide (hashOf env pool it ∈ s.block.inBlock) ||
    decide (hashOf env pool it ∈ s.failedTx)

/-- The package to evaluate next. -/
structure Candidate where
  entry : CTxMemPoolModifiedEntry
  fUsingModified : Bool
  mi : List Uint256

/-- The better of the next entry of the index and the best one of `mapModifiedTx`. -/
def chooseCandidate : Option Candidate :=
  match s.mi, firstModified env s.mapModifiedTx with
  | [], none => none
  | [], some modit => some ⟨modit, true, []⟩
  | it :: rest, none => some ⟨.new pool it, false, rest⟩
  | it :: rest, some modit =>
    if env.byAncestorFee modit (.new pool it) then some ⟨modit, true, it :: rest⟩
    else some ⟨.new pool it, false, rest⟩

/-- A candidate that failed is not evaluated again. -/
def dropFailed (candidate : Candidate) : PackageSelection :=
  if candidate.fUsingModified then
    { s with
      mapModifiedTx := s.mapModifiedTx.filter (·.iter ≠ candidate.entry.iter)
      failedTx := s.failedTx.insert (hashOf env pool candidate.entry.iter) }
  else s

/-- A candidate that did not fit. -/
def countFailure : Round PackageSelection :=
  let s := { s with nConsecutiveFailed := s.nConsecutiveFailed + 1 }
  if MAX_CONSECUTIVE_FAILURES < s.nConsecutiveFailed ∧
      env.options.nBlockMaxWeight - env.options.block_reserved_weight < s.block.nBlockWeight then
    .stop s
  else .again s

/-- A package is added to the block. -/
def addPackage (candidate : Candidate) (ancestors : List Uint256) : PackageSelection :=
  let sortedEntries := sortForBlock env pool ancestors
  let block := sortedEntries.foldl (addToBlock env pool) s.block
  let mapModifiedTx := s.mapModifiedTx.filter fun e => e.iter ∉ sortedEntries
  { s with
    nConsecutiveFailed := 0
    block := { block with
      m_package_feerates := block.m_package_feerates ++
        [(candidate.entry.nModFeesWithAncestors, candidate.entry.nSizeWithAncestors)] }
    mapModifiedTx := updatePackagesForAdded env pool ancestors mapModifiedTx }

/-- The part of a round of `addPackageTxs` after a package was chosen. -/
def evaluate (candidate : Candidate) : Round PackageSelection :=
  let iter := candidate.entry.iter
  let s := { s with
    mi := candidate.mi
    assertFailed := s.assertFailed || decide (hashOf env pool iter ∈ s.block.inBlock) }
  if candidate.entry.nModFeesWithAncestors <
      env.options.blockMinFee candidate.entry.nSizeWithAncestors then .stop s
  else if !testPackage env s.block candidate.entry.nSizeWithAncestors
      candidate.entry.nSigOpCostWithAncestors then
    countFailure env (dropFailed env pool s candidate)
  else
    let ancestors := (onlyUnconfirmed env pool s.block
      (pool.assumeCalculateMemPoolAncestors env.mempool (pool.entry iter) false)).insert iter
    if !testPackageTransactions env pool ancestors then .again (dropFailed env pool s candidate)
    else .again (addPackage env pool s candidate ancestors)

/-- A round of `addPackageTxs`. -/
def addPackageRound : Round PackageSelection :=
  match s.mi with
  | it :: rest =>
    if isStale env pool s it then .again { s with mi := rest }
    else
      match chooseCandidate env pool s with
      | none => .stop s
      | some candidate => evaluate env pool s candidate
  | [] =>
    match chooseCandidate env pool s with
    | none => .stop s
    | some candidate => evaluate env pool s candidate

/-- `addPackageTxs`, for as many rounds as it can take. -/
def addPackageTxs : Option PackageSelection :=
  let size := pool.txids.length
  loop (addPackageRound env pool) ((size + 1) * (2 * size + 1))
    { block := resetBlock env, mi := ancestorScoreIndex env pool }

end BlockAssembler

end BtcSharp
