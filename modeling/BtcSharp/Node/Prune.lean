/-
# Pruning in a flush

`FindFilesToPruneManual` and `FindFilesToPrune` give up block files whose heights are all in a
window. The window ends before the blocks that are kept below the tip and before the prune locks,
and begins after the base of a snapshot. `FlushStateToDisk` then writes the block index, removes the
files and writes the coins, in this order; it may stop after each of these steps.

Heights are signed where the source has them signed, and are compared with the unsigned ones of
the file information. What decides whether coins are flushed without pruning, and whether a disk
is full or a write fails, are inputs of a call.
-/

import BtcSharp.Node.BlockFiles
import BtcSharp.Validation.Replay

namespace BtcSharp

open Math

def MIN_BLOCKS_TO_KEEP : Int := 288

def PRUNE_LOCK_BUFFER : Int := 10

def BLOCKFILE_CHUNK_SIZE : Nat := 0x1000000

def UNDOFILE_CHUNK_SIZE : Nat := 0x100000

def MIN_DISK_SPACE_FOR_BLOCK_FILES : Nat := 550 * 1024 * 1024

/-- An `int` as an `unsigned int`. -/
def toUnsigned (n : Int) : Nat := (n % 2 ^ 32).toNat

structure PruneLockInfo where
  height_first : Int := 2 ^ 31 - 1
  deriving DecidableEq, Repr

/-- The lock says up to where pruning may go. -/
def PruneLockInfo.InForce (lock : PruneLockInfo) : Prop := lock.height_first ≠ 2 ^ 31 - 1

instance (lock : PruneLockInfo) : Decidable lock.InForce := inferInstanceAs (Decidable (_ ≠ _))

/-- What pruning reads of the chainstate that is flushed and of its manager. -/
structure ChainstateView where
  /-- `m_chain.Height()`, which is `-1` without blocks. -/
  height : Int
  /-- `GetAll().size()`. -/
  chainstates : Nat
  /-- The base height, if this is the snapshot chainstate. -/
  snapshotBaseHeight : Option Int
  hbase : ∀ base, snapshotBaseHeight = some base → 0 ≤ base ∧ base < 2 ^ 31 - 1
  bestHeaderHeight : Nat
  initialBlockDownload : Bool
  pruneAfterHeight : Nat

/-- The options and flags of pruning. -/
structure PruneOptions where
  m_prune_mode : Bool
  prune_target : Nat
  m_check_for_pruning : Bool
  m_blockfiles_indexed : Bool
  m_prune_locks : List PruneLockInfo

/-- The block manager with what is on disk. -/
structure BlockStorage where
  blockman : BlockManager
  m_dirty_blockindex : List Uint256 := []
  /-- The block index in the database. -/
  diskIndex : Uint256 → Option BlockFileEntry := fun _ => none
  blockFileExists : Nat → Bool := fun _ => false
  undoFileExists : Nat → Bool := fun _ => false
  /-- The coins database. -/
  coins : CCoinsViewDB

namespace BlockStorage

variable (view : ChainstateView)

def getPruneRange (last_height_can_prune : Int) : Int × Int :=
  if view.height ≤ 0 then (0, 0)
  else
    let prune_start := match view.snapshotBaseHeight with
      | some base => if 1 < view.chainstates then base + 1 else 0
      | none => 0
    let max_prune := max 0 (view.height - MIN_BLOCKS_TO_KEEP)
    (prune_start, min last_height_can_prune max_prune)

/-- The heights of a file are in the range. -/
def InRange (range : Int × Int) (fileinfo : CBlockFileInfo) : Prop :=
  ¬ (toUnsigned range.2 < fileinfo.nHeightLast ∨ fileinfo.nHeightFirst < toUnsigned range.1)

instance (range : Int × Int) (fileinfo : CBlockFileInfo) : Decidable (InRange range fileinfo) :=
  inferInstanceAs (Decidable (¬ _))

/-- `PruneOneBlockFile`, with the entries that are to be written. -/
def pruneOneBlockFile (s : BlockStorage) (fileNumber : Nat) : BlockStorage :=
  { s with
    blockman := s.blockman.pruneOneBlockFile fileNumber false
    m_dirty_blockindex := s.m_dirty_blockindex ++
      (s.blockman.m_block_index.filter fun pair => pair.2.nFile == fileNumber).map Prod.fst }

/-- The loop of `FindFilesToPruneManual`: the files that are given up. -/
def pruneManualLoop (range : Int × Int) : List Nat → BlockStorage → List Nat × BlockStorage
  | [], s => ([], s)
  | fileNumber :: rest, s =>
    let fileinfo := s.blockman.fileInfo fileNumber
    if fileinfo.nSize = 0 ∨ ¬ InRange range fileinfo then pruneManualLoop range rest s
    else
      let (setFilesToPrune, s) := pruneManualLoop range rest (s.pruneOneBlockFile fileNumber)
      (fileNumber :: setFilesToPrune, s)

def findFilesToPruneManual (s : BlockStorage) (nManualPruneHeight : Int) :
    List Nat × BlockStorage :=
  if view.height < 0 then ([], s)
  else pruneManualLoop (getPruneRange view nManualPruneHeight)
    (List.range s.blockman.maxBlockfileNum) s

/-- What a file takes up, added as 32-bit integers. -/
def bytesOf (fileinfo : CBlockFileInfo) : Nat := toUInt (fileinfo.nSize + fileinfo.nUndoSize)

def calculateCurrentUsage (s : BlockStorage) : Nat := (s.blockman.m_blockfile_info.map bytesOf).sum

/-- The loop of `FindFilesToPrune`, which ends early when the target is met. -/
def pruneLoop (range : Int × Int) (nBuffer target : Nat) : List Nat → Nat → BlockStorage →
    List Nat × BlockStorage
  | [], _, s => ([], s)
  | fileNumber :: rest, nCurrentUsage, s =>
    let fileinfo := s.blockman.fileInfo fileNumber
    if fileinfo.nSize = 0 then pruneLoop range nBuffer target rest nCurrentUsage s
    else if nCurrentUsage + nBuffer < target then ([], s)
    else if ¬ InRange range fileinfo then pruneLoop range nBuffer target rest nCurrentUsage s
    else
      let (setFilesToPrune, s) :=
        pruneLoop range nBuffer target rest (nCurrentUsage - bytesOf fileinfo)
        (s.pruneOneBlockFile fileNumber)
      (fileNumber :: setFilesToPrune, s)

variable (options : PruneOptions)

/-- The part of the prune target that one chainstate may use. -/
def pruneTarget : Nat :=
  max MIN_DISK_SPACE_FOR_BLOCK_FILES (options.prune_target / view.chainstates)

/-- What is left free for the next allocation. -/
def chunkBuffer : Nat := BLOCKFILE_CHUNK_SIZE + UNDOFILE_CHUNK_SIZE

/-- What is left free once pruning has begun: more during the initial block download. -/
def pruneBuffer : Nat :=
  if view.initialBlockDownload ∧ view.height < view.bestHeaderHeight then
    chunkBuffer + 1000000 * (view.bestHeaderHeight - view.height).toNat
  else chunkBuffer

def findFilesToPrune (s : BlockStorage) (last_prune : Int) : List Nat × BlockStorage :=
  let target := pruneTarget view options
  if view.height < 0 ∨ target = 0 then ([], s)
  else if view.height ≤ view.pruneAfterHeight then ([], s)
  else if target ≤ s.calculateCurrentUsage + chunkBuffer then
    pruneLoop (getPruneRange view last_prune) (pruneBuffer view) target
      (List.range s.blockman.maxBlockfileNum) s.calculateCurrentUsage s
  else ([], s)

/-- The last height that can be pruned beside the prune locks. -/
def lastPrune : Int :=
  options.m_prune_locks.foldl (fun last_prune lock =>
    if lock.height_first = 2 ^ 31 - 1 then last_prune
    else max 1 (min last_prune (lock.height_first - PRUNE_LOCK_BUFFER - 1))) view.height

/-- The beginning of `FlushStateToDisk`, where files are given up. -/
def findFiles (nManualPruneHeight : Int) (s : BlockStorage) : List Nat × BlockStorage :=
  if options.m_prune_mode ∧ (options.m_check_for_pruning ∨ 0 < nManualPruneHeight) ∧
      options.m_blockfiles_indexed then
    if 0 < nManualPruneHeight then
      findFilesToPruneManual view s (min (lastPrune view options) nManualPruneHeight)
    else findFilesToPrune view options s (lastPrune view options)
  else ([], s)

/-! ## Stop points -/

/-- The batch of `WriteBlockIndexDB`. -/
def writeBlockIndexDB (s : BlockStorage) : BlockStorage :=
  { s with
    m_dirty_blockindex := []
    diskIndex :=
      fun hash => if hash ∈ s.m_dirty_blockindex then s.blockman.entry hash else s.diskIndex hash }

/-- The states while `UnlinkPrunedFiles` removes block files, each with its undo file. -/
def unlinkPrunedFiles : List Nat → BlockStorage → List BlockStorage
  | [], s => [s]
  | fileNumber :: rest, s =>
    let first := { s with blockFileExists := Function.update s.blockFileExists fileNumber false }
    let second := { first with undoFileExists := Function.update s.undoFileExists fileNumber false }
    s :: first :: unlinkPrunedFiles rest second

/-- What a call meets beside the chain: whether the cache is flushed or the index is written
without pruning, what fails, and the coins that are flushed. -/
structure FlushInputs where
  fullFlush : Bool
  periodicWrite : Bool
  diskSpaceLow : Bool
  indexWriteFails : Bool
  coinsSpaceLow : Bool
  coinsTip : CCoinsViewCache
  empty_cache : Bool

/-- The states while the coins are written. -/
def flushCoins (inputs : FlushInputs) (s : BlockStorage) : List BlockStorage :=
  match s.coins.batches inputs.coinsTip inputs.empty_cache inputs.coinsTip.hashBlock with
  | .error _ => []
  | .ok (batches, _) =>
    (List.range (batches.length + 1)).map fun k =>
      { s with coins := (batches.take k).foldl CCoinsViewDB.writeBatch s.coins }

/-- The states in which the process may stop during `FlushStateToDisk`. -/
def flushStateToDisk (inputs : FlushInputs) (nManualPruneHeight : Int) (s : BlockStorage) :
    List BlockStorage :=
  let (setFilesToPrune, pruned) := findFiles view options nManualPruneHeight s
  let fFlushForPrune := !setFilesToPrune.isEmpty
  let fDoFullFlush := inputs.fullFlush || fFlushForPrune
  s :: pruned ::
    if fDoFullFlush || inputs.periodicWrite then
      if inputs.diskSpaceLow then []
      else if inputs.indexWriteFails then [{ pruned with m_dirty_blockindex := [] }]
      else
        let unlinked := unlinkPrunedFiles setFilesToPrune pruned.writeBlockIndexDB
        unlinked ++
          if fDoFullFlush && !inputs.coinsTip.hashBlock.isNull && !inputs.coinsSpaceLow then
            unlinked.getLast?.elim [] (flushCoins inputs)
          else []
    else []

end BlockStorage

end BtcSharp
