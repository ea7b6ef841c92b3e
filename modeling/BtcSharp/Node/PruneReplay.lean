/-
# What a replay needs and pruning takes

An interrupted flush of the coins is brought to its end by rolling back the blocks from the old tip
to the fork and rolling forward those to the new tip. Pruning keeps blocks below the new tip only,
and the files are removed before the coins are written: a replay that has to go further back finds
blocks missing that were there before the flush.
-/

import BtcSharp.Node.PruneRuns

namespace BtcSharp

open List Math

/-! ## What `ReplayBlocks` reads -/

/-- The blocks that are rolled back. -/
def rollbackReads (pindexFork : CBlockIndex) : CBlockIndex → List CBlockIndex
  | [] => []
  | hash :: pprev =>
    if hash :: pprev = pindexFork then []
    else if 0 < CBlockIndex.nHeight (hash :: pprev) then
      (hash :: pprev) :: rollbackReads pindexFork pprev
    else rollbackReads pindexFork pprev

/-- The blocks that are rolled forward. -/
def rollforwardReads (pindexFork pindexNew : CBlockIndex) : List CBlockIndex :=
  (List.range' (pindexFork.nHeight + 1) (pindexNew.nHeight - pindexFork.nHeight)).map
    pindexNew.getAncestor

/-- The blocks that `ReplayBlocks` reads to get from one tip to another. -/
def replayReads (pindexOld pindexNew : CBlockIndex) : List CBlockIndex :=
  rollbackReads (lastCommonAncestor pindexOld pindexNew) pindexOld ++
    rollforwardReads (lastCommonAncestor pindexOld pindexNew) pindexNew

section Reads

variable {env : ChainEnv} {store store' : BlockStore} {pindexOld pindex pindexNew : CBlockIndex}
  {db : CCoinsViewDB} {hashNew hashOld : Uint256}

theorem rollback_error (env : ChainEnv) {pindexFork : CBlockIndex}
    (hread : pindex ∈ rollbackReads pindexFork pindexOld)
    (hmissing : store.readBlock pindex = none) (cache : CacheView) :
    ∃ err, rollback env store pindexFork pindexOld cache = .error err := by
  induction pindexOld generalizing cache with
  | nil => cases hread
  | cons hash pprev ih =>
    rw [rollbackReads] at hread
    rw [rollback]
    split at hread
    · cases hread
    next hfork =>
    rw [if_neg hfork]
    split at hread
    · next hheight =>
      rw [if_pos hheight]
      cases hone : rollbackBlock env store (hash :: pprev) cache with
      | error err => exact ⟨err, rfl⟩
      | ok cache =>
        rcases mem_cons.mp hread with rfl | hread
        · rw [rollbackBlock, hmissing] at hone
          cases hone
        · exact ih hread cache
    · next hheight =>
      rw [if_neg hheight]
      exact ih hread cache

theorem rollforward_error (env : ChainEnv) {heights : List Nat}
    (hread : pindex ∈ heights.map pindexNew.getAncestor) (hmissing : store.readBlock pindex = none)
      (cache : CacheView) : ∃ err, rollforward env store pindexNew heights cache = .error err := by
  induction heights generalizing cache with
  | nil => cases hread
  | cons nHeight rest ih =>
    rw [rollforward]
    split
    · exact ⟨_, rfl⟩
    cases hone : rollforwardBlock env store (pindexNew.getAncestor nHeight) cache with
    | error err => exact ⟨err, rfl⟩
    | ok cache =>
      rcases mem_cons.mp hread with rfl | hread
      · rw [rollforwardBlock, hmissing] at hone
        cases hone
      · exact ih hread cache

theorem rollback_reads_congr {pindexFork pindexOld : CBlockIndex}
    (hreads : ∀ pindex ∈ rollbackReads pindexFork pindexOld,
      store'.readBlock pindex = store.readBlock pindex ∧
      store'.readBlockUndo pindex = store.readBlockUndo pindex)
    (cache : CacheView) :
    rollback env store' pindexFork pindexOld cache = rollback env store pindexFork
      pindexOld cache := by
  induction pindexOld generalizing cache with
  | nil => rfl
  | cons hash pprev ih =>
    rw [rollbackReads] at hreads
    rw [rollback, rollback]
    split
    · rfl
    next hfork =>
    rw [if_neg hfork] at hreads
    split
    · next hheight =>
      rw [if_pos hheight] at hreads
      have hhere := hreads _ mem_cons_self
      rw [rollbackBlock, hhere.1, hhere.2]
      congr 1
      ext1 cache
      exact ih (fun pindex hpindex => hreads pindex (mem_cons_of_mem _ hpindex)) cache
    · next hheight =>
      rw [if_neg hheight] at hreads
      exact ih hreads cache

theorem rollforward_reads_congr {pindexNew : CBlockIndex} {heights : List Nat}
    (hreads : ∀ pindex ∈ heights.map pindexNew.getAncestor,
      store'.readBlock pindex = store.readBlock pindex)
    (cache : CacheView) :
    rollforward env store' pindexNew heights cache = rollforward env store pindexNew
      heights cache := by
  induction heights generalizing cache with
  | nil => rfl
  | cons nHeight rest ih =>
    rw [rollforward, rollforwardBlock, hreads _ mem_cons_self]
    congr 2
    ext1 cache
    exact ih (fun pindex hpindex => hreads pindex (mem_cons_of_mem _ hpindex)) cache

variable (hheads : db.getHeadBlocks = [hashNew, hashOld])
  (hnew : store.lookup hashNew = some pindexNew)
  (hnull : hashOld.isNull = false) (hold : store.lookup hashOld = some pindexOld)

include hheads hnew hnull hold

/-- `ReplayBlocks` fails if one of the blocks cannot be read. -/
theorem replayBlocks_error (hread : pindex ∈ replayReads pindexOld pindexNew)
    (hmissing : store.readBlock pindex = none) : ∃ err, replayBlocks env store db = .error err := by
  unfold replayBlocks
  rw [hheads]
  dsimp only
  rw [hnew]
  dsimp only
  unfold findFork
  rw [hnull, if_neg Bool.false_ne_true, hold]
  dsimp only
  by_cases hempty : (lastCommonAncestor pindexOld pindexNew).isEmpty = true
  · rw [if_pos hempty]
    exact ⟨_, rfl⟩
  rw [if_neg hempty]
  dsimp only
  rcases mem_append.mp hread with hread | hread
  · obtain ⟨err, herr⟩ := rollback_error env hread hmissing ⟨{}, .db db⟩
    rw [herr]
    exact ⟨err, rfl⟩
  cases rollback env store (lastCommonAncestor pindexOld pindexNew) pindexOld ⟨{}, .db db⟩ with
  | error err => exact ⟨err, rfl⟩
  | ok cache =>
    obtain ⟨err, herr⟩ := rollforward_error env hread hmissing cache
    dsimp only
    rw [herr]
    exact ⟨err, rfl⟩

/-- `ReplayBlocks` reads no other blocks. -/
theorem replayBlocks_congr (hlookup : store'.lookup = store.lookup)
    (hreads : ∀ pindex ∈ replayReads pindexOld pindexNew,
      store'.readBlock pindex = store.readBlock pindex ∧
      store'.readBlockUndo pindex = store.readBlockUndo pindex) :
    replayBlocks env store' db = replayBlocks env store db := by
  have hback :=
    @rollback_reads_congr env store store' (lastCommonAncestor pindexOld pindexNew) pindexOld
    fun pindex hpindex => hreads pindex (mem_append_left _ hpindex)
  have hforward := @rollforward_reads_congr env store store' pindexNew _
    fun pindex hpindex => (hreads pindex (mem_append_right _ hpindex)).1
  unfold replayBlocks
  rw [hheads]
  dsimp only
  rw [hlookup, hnew]
  dsimp only
  unfold findFork
  rw [hnull, if_neg Bool.false_ne_true, if_neg Bool.false_ne_true, hlookup, hold]
  dsimp only
  by_cases hempty : (lastCommonAncestor pindexOld pindexNew).isEmpty = true
  · rw [if_pos hempty]
  rw [if_neg hempty]
  dsimp only
  rw [hback]
  cases rollback env store (lastCommonAncestor pindexOld pindexNew) pindexOld ⟨{}, .db db⟩ with
  | error err => rfl
  | ok cache =>
    dsimp only
    rw [hforward cache]

end Reads

namespace BlockStorage

variable {env : BlockStoreEnv} {s : BlockStorage} {hash : Uint256} {view : ChainstateView}
  {options : PruneOptions} {nManualPruneHeight : Int} {pindexOld pindexNew : CBlockIndex}

/-- The data and the undo data of a block are on disk. -/
def onDisk (s : BlockStorage) (hash : Uint256) : Bool :=
  (s.diskIndex hash).any fun entry =>
    entry.haveData && entry.haveUndo && s.blockFileExists entry.nFile &&
      s.undoFileExists entry.nFile

theorem onDisk_iff : s.onDisk hash = true ↔ ∃ entry, s.diskIndex hash = some entry ∧
    entry.haveData = true ∧
    entry.haveUndo = true ∧ s.blockFileExists entry.nFile = true ∧
    s.undoFileExists entry.nFile = true := by
  unfold onDisk
  rw [Option.any_eq_true]
  simp [and_assoc]

/-- At every point of a call, whatever course it takes, the blocks that a replay reads are on disk
if they were before. -/
def KeepsReplay (view : ChainstateView) (options : PruneOptions) (nManualPruneHeight : Int)
    (s : BlockStorage) (pindexOld pindexNew : CBlockIndex) : Prop :=
  ∀ inputs, ∀ p ∈ flushStateToDisk view options inputs nManualPruneHeight s,
    ∀ pindex ∈ replayReads pindexOld pindexNew,
      s.onDisk pindex.getBlockHash = true → p.onDisk pindex.getBlockHash = true

/-- None of the blocks that a replay reads is in a file that the call gives up, by the window, the
heights and sizes of the files and the target before it; and none was given up before. -/
def SparesReplay (view : ChainstateView) (options : PruneOptions) (nManualPruneHeight : Int)
    (s : BlockStorage) (pindexOld pindexNew : CBlockIndex) : Prop :=
  ∀ pindex ∈ replayReads pindexOld pindexNew, s.onDisk pindex.getBlockHash = true →
    ∃ entry, s.blockman.entry pindex.getBlockHash = some entry ∧ entry.haveData = true ∧
      entry.haveUndo = true ∧ ¬ PrunesFile view options nManualPruneHeight s entry.nFile

theorem mem_unlinkPrunedFiles (files : List Nat) (s : BlockStorage) :
    s ∈ unlinkPrunedFiles files s := by
  cases files with
  | nil => exact mem_singleton_self s
  | cons fileNumber rest => exact mem_cons_self

/-- A call can get to where the index is written. -/
theorem written_mem_flush {chosen : List Nat} (inputs : FlushInputs)
    (hchosen : findFiles view options nManualPruneHeight s = (chosen, pruneAll chosen s))
    (hfull : inputs.fullFlush = true) (hspace : inputs.diskSpaceLow = false)
      (hwrite : inputs.indexWriteFails = false) :
    (pruneAll chosen s).writeBlockIndexDB ∈ flushStateToDisk view options inputs
      nManualPruneHeight s := by
  unfold flushStateToDisk
  rw [hchosen, hfull, hspace, hwrite]
  exact mem_cons_of_mem _ (mem_cons_of_mem _ (mem_append_left _ (mem_unlinkPrunedFiles _ _)))

theorem InStep.keepsReplay_iff (h : InStep s) :
    KeepsReplay view options nManualPruneHeight s pindexOld pindexNew ↔
    SparesReplay view options nManualPruneHeight s pindexOld pindexNew := by
  obtain ⟨chosen, hchosen, hmem⟩ := findFiles_spec view options nManualPruneHeight s
  constructor
  · intro hkeeps pindex hpindex hdisk
    let inputs : FlushInputs := ⟨true, false, false, false, false, {}, false⟩
    have hwritten :=
      hkeeps inputs _ (written_mem_flush inputs hchosen rfl rfl rfl) pindex hpindex hdisk
    obtain ⟨entry, hentry, hdata, hundo, _⟩ := onDisk_iff.mp hwritten
    rw [h.diskIndex_written] at hentry
    obtain ⟨hold, hfile⟩ := entry_kept hentry (.inl hdata)
    exact ⟨entry, hold, hdata, hundo, fun hprunes => hfile ((hmem _).mpr hprunes)⟩
  · intro hspares inputs p hp pindex hpindex hdisk
    obtain ⟨entry, hentry, hdata, hundo, hspared⟩ := hspares pindex hpindex hdisk
    have hfile : entry.nFile ∉ chosen := fun hchosen => hspared ((hmem _).mp hchosen)
    obtain ⟨hindex, hblockFiles, hundoFiles, _⟩ := disk_pruneAll chosen s
    have hsame : (pruneAll chosen s).blockman.entry pindex.getBlockHash = some entry := by
      rw [entry_pruneAll, hentry, Option.map_some, if_neg hfile]
    cases stop_of_mem_flush hchosen hp with
    | start => exact hdisk
    | pruned | failed hfails =>
      unfold onDisk
      rw [hindex, hblockFiles, hundoFiles]
      exact hdisk
    | written hunlinked =>
      have hpresent := h.present_written hunlinked hsame
      apply onDisk_iff.mpr
      refine ⟨entry, ?_, hdata, hundo, hpresent.1 hdata, hpresent.2 hundo⟩
      rw [hunlinked.diskIndex, h.diskIndex_written, hsame]

/-- A flush that prunes keeps what a replay of the coins needs if and only if it spares the files of
these blocks. -/
theorem flush_keeps_replay {s₀ : BlockStorage} (hloaded : Loaded s₀)
    (hrun : Relation.ReflTransGen (Step env) s₀ s)
    (view : ChainstateView) (options : PruneOptions) (nManualPruneHeight : Int)
      (pindexOld pindexNew : CBlockIndex) :
    KeepsReplay view options nManualPruneHeight s pindexOld pindexNew ↔
      SparesReplay view options nManualPruneHeight s pindexOld pindexNew :=
  (hloaded.inStep.run hrun).keepsReplay_iff

/-! ## Coins that are far behind -/

/-- A chain up to a height. -/
def chainTo (height : Nat) : CBlockIndex :=
    ((List.range (height + 1)).map fun i => BitVec.ofNat 256 (i + 1)).reverse

/-- The index of a chain with two blocks in the first file. -/
def chainEntries (height : Nat) : List (Uint256 × BlockFileEntry) :=
  (List.range (height + 1)).map fun i =>
    (BitVec.ofNat 256 (i + 1), {
      nHeight := i
      hashPrev := BitVec.ofNat 256 i
      haveData := true
      haveUndo := true
      nFile := if i ≤ 1 then 0 else 1
      nDataPos := 8
      nUndoPos := 8 })

/-- All blocks are on disk, and the coins of the first one. -/
def coinsFarBehind : BlockStorage where
  blockman := {
    m_blockfile_info := [
      { nBlocks := 2, nSize := 600, nUndoSize := 100, nHeightFirst := 0, nHeightLast := 1 },
      { nBlocks := 288, nSize := 90000, nUndoSize := 20000, nHeightFirst := 2, nHeightLast := 289 }]
    m_blockfile_cursors := fun type => if type = .normal then some ⟨1, 289⟩ else none
    m_block_index := chainEntries 289
    blockFiles := fun _ => []
    undoFiles := fun _ => [] }
  diskIndex := fun hash => (chainEntries 289).lookup hash
  blockFileExists := fun _ => true
  undoFileExists := fun _ => true
  coins := { bestBlock := some (chainTo 0).getBlockHash, batchFull := fun _ => true }

/-- The chainstate is at the last block. -/
def tipView : ChainstateView :=
    { thousandBlocks 0 false with height := 289, bestHeaderHeight := 289 }

/-- A coin is to be written with the new tip. -/
def coinFlush : FlushInputs where
  fullFlush := false
  periodicWrite := false
  diskSpaceLow := false
  indexWriteFails := false
  coinsSpaceLow := false
  coinsTip := {
    hashBlock := (chainTo 289).getBlockHash
    cacheCoins :=
      fun outpoint => if outpoint = ⟨5, 0⟩ then some { coin := sampleCoin, dirty := true } else none
    flagged := [⟨5, 0⟩] }
  empty_cache := false

/-- The blocks of a tree that can be read from disk. -/
def blockStore (s : BlockStorage) (lookup : Uint256 → Option CBlockIndex)
    (blocks : CBlockIndex → CBlock) (undos : CBlockIndex → CBlockUndo) : BlockStore where
  lookup := lookup
  readBlock := fun pindex => if s.onDisk pindex.getBlockHash then some (blocks pindex) else none
  readBlockUndo := fun pindex => if s.onDisk pindex.getBlockHash then some (undos pindex) else none

/-- With coins of the block before the tip the last block is needed. It stays, although the call
gives up the first file. -/
theorem flush_keeps_replay_last : KeepsReplay tipView smallTarget 1 coinsFarBehind (chainTo 288)
      (chainTo 289) ∧ replayReads (chainTo 288) (chainTo 289) = [chainTo 289] ∧
      PrunesFile tipView smallTarget 1 coinsFarBehind 0 := by
  have hloaded : Loaded coinsFarBehind :=
    ⟨rfl, fun _ => rfl, fun _ _ _ => ⟨fun _ => rfl, fun _ => rfl⟩⟩
  have hreads : replayReads (chainTo 288) (chainTo 289) = [chainTo 289] := by decide +kernel
  have hkeeps := @flush_keeps_replay sampleStoreEnv coinsFarBehind coinsFarBehind hloaded
    .refl tipView smallTarget 1 (chainTo 288) (chainTo 289)
  refine ⟨hkeeps.mpr fun pindex hpindex _ => ?_, hreads,
    ⟨by decide, by decide, by decide, by decide, by decide⟩⟩
  rw [hreads] at hpindex
  rw [mem_singleton.mp hpindex]
  have hentry : (coinsFarBehind.blockman.entry (chainTo 289).getBlockHash).any (fun entry =>
      entry.haveData && entry.haveUndo && entry.nFile == coinsFarBehind.blockman.maxBlockfileNum) =
      true := by decide
  obtain ⟨entry, hentry, hall⟩ := (Option.any_eq_true _ _).mp hentry
  simp only [Bool.and_eq_true, beq_iff_eq] at hall
  exact ⟨entry, hentry, hall.1.1, hall.1.2, fun hprunes => Nat.ne_of_lt hprunes.last hall.2⟩

/-- A call prunes the first file and stops between two batches of coins. A block that the replay has
to read was there before and is gone, and the replay fails. -/
theorem replay_after_prune : ∃ p ∈ flushStateToDisk tipView smallTarget coinFlush 1 coinsFarBehind,
    p.coins.getHeadBlocks = [(chainTo 289).getBlockHash, (chainTo 0).getBlockHash] ∧
      (∃ pindex ∈ replayReads (chainTo 0) (chainTo 289),
        coinsFarBehind.onDisk pindex.getBlockHash = true ∧ p.onDisk pindex.getBlockHash = false) ∧
      ∀ lookup blocks undos, lookup (chainTo 0).getBlockHash = some (chainTo 0) →
        lookup (chainTo 289).getBlockHash = some (chainTo 289) →
        ∃ err, replayBlocks sampleEnv (p.blockStore lookup blocks undos) p.coins = .error err := by
  have hread : chainTo 1 ∈ replayReads (chainTo 0) (chainTo 289) := by
    apply mem_append_right
    exact mem_map.mpr ⟨1, by decide +kernel, by decide +kernel⟩
  have hbefore : coinsFarBehind.onDisk (chainTo 1).getBlockHash = true := by decide +kernel
  have hstates : ∃ p ∈ flushStateToDisk tipView smallTarget coinFlush 1 coinsFarBehind,
      p.coins.getHeadBlocks = [(chainTo 289).getBlockHash, (chainTo 0).getBlockHash] ∧
        p.onDisk (chainTo 1).getBlockHash = false := by
    decide
  obtain ⟨p, hp, hheads, hgone⟩ := hstates
  refine ⟨p, hp, hheads, ⟨chainTo 1, hread, hbefore, hgone⟩,
    fun lookup blocks undos hold hnew => ?_⟩
  refine replayBlocks_error hheads hnew (by decide) hold hread ?_
  show (if p.onDisk (chainTo 1).getBlockHash then _ else _) = _
  rw [hgone]
  rfl

end BlockStorage

end BtcSharp
