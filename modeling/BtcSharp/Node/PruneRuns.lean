/-
# Flushes that prune, over whole runs

A process begins with the index that it has loaded. Blocks and undo data are written and flushes
are made in any order; the index on disk and the files keep in step, until a write of the index
fails and the node shuts down, with flushes that do not prune.

Automatic pruning does not begin as long as the chain is short or the usage is below the target
with little to spare. During the initial block download it asks for more room than it waits for, so
that it can end with less room than that and files in its window.
-/

import BtcSharp.Node.PruneWindow

namespace BtcSharp

open BlockManager List Math

namespace BlockStorage

variable {env : BlockStoreEnv} {s t : BlockStorage} {hash : Uint256} {entry : BlockFileEntry}

/-! ## Runs -/

/-- The entry that an operation is about. -/
def entryOf : BlockManager.Op → Option Uint256
  | .addToBlockIndex hash _ _ => some hash
  | .setSnapshotHeight _ => none
  | .writeBlock hash _ _ => some hash
  | .reindexBlock hash _ _ => some hash
  | .writeBlockUndo hash _ _ => some hash
  | .pruneOneBlockFile _ _ => none

/-- The block manager has worked on an entry, which is now to be written; its files are there. -/
def operated (s : BlockStorage) (hash : Uint256) (blockman : BlockManager) : BlockStorage :=
  { s with
    blockman := blockman
    m_dirty_blockindex := hash :: s.m_dirty_blockindex
    blockFileExists := fun nFile => s.blockFileExists nFile ||
      (blockman.entry hash).any fun entry => entry.haveData && entry.nFile == nFile
    undoFileExists := fun nFile => s.undoFileExists nFile ||
      (blockman.entry hash).any fun entry => entry.haveUndo && entry.nFile == nFile }

/-- What happens while a process runs. -/
inductive Step (env : BlockStoreEnv) : BlockStorage → BlockStorage → Prop
  | operate {s : BlockStorage} {op : BlockManager.Op} {hash : Uint256} {blockman : BlockManager}
      (hentry : entryOf op = some hash) (hcalled : BlockManager.Called env s.blockman op)
      (hperform : BlockManager.perform env s.blockman op = some blockman) :
        Step env s (s.operated hash blockman)
  | setSnapshotHeight {s : BlockStorage} (snapshot_height : Option Nat) :
      Step env s { s with blockman := { s.blockman with m_snapshot_height := snapshot_height } }
  | flush {s p : BlockStorage} (view : ChainstateView) (options : PruneOptions)
      (inputs : FlushInputs) (nManualPruneHeight : Int) (hwrite : inputs.indexWriteFails = false)
      (hp : p ∈ flushStateToDisk view options inputs nManualPruneHeight s) : Step env s p

/-- The state when the index was loaded. -/
structure Loaded (s : BlockStorage) : Prop where
  clean : s.m_dirty_blockindex = []
  loaded : ∀ hash, s.blockman.entry hash = s.diskIndex hash
  present : ∀ hash entry, s.diskIndex hash = some entry → s.Present entry

theorem Loaded.inStep (h : Loaded s) : InStep s :=
  ⟨⟨fun hash entry hentry => h.present hash entry (h.loaded hash ▸ hentry), h.present⟩,
    fun hash _ => (h.loaded hash).symm⟩

theorem entry_received {m : BlockManager} {pos : FlatFilePos} {other : Uint256}
    (hother : other ≠ hash) :
    (m.receivedBlockTransactions hash pos).entry other = m.entry other := by
  unfold BlockManager.receivedBlockTransactions BlockManager.entry
  rw [lookup_modifyKey, if_neg hother]

/-- An operation leaves the entries of other blocks. -/
theorem entry_perform {m m' : BlockManager} {op : BlockManager.Op} (hhash : entryOf op = some hash)
    (h : BlockManager.perform env m op = some m') {other : Uint256} (hother : other ≠ hash) :
    m'.entry other = m.entry other := by
  cases op with
  | addToBlockIndex key hashPrev nHeight =>
    cases hhash
    cases h
    exact lookup_emplace_ne hother
  | setSnapshotHeight snapshot_height => cases hhash
  | writeBlock key block failed =>
    cases hhash
    obtain ⟨entry, _, h⟩ := Option.bind_eq_some_iff.mp h
    obtain ⟨⟨_, _⟩, hwrite, h⟩ := Option.bind_eq_some_iff.mp h
    obtain ⟨⟨pos, found⟩, hfound, hwrite⟩ := Option.bind_eq_some_iff.mp hwrite
    have hindex := index_findNextBlockPos hfound
    cases failed with
    | true =>
      cases hwrite
      cases h
      exact congrArg (List.lookup other) hindex
    | false =>
      cases hwrite
      cases h
      exact (entry_received hother).trans (congrArg (List.lookup other) hindex)
  | reindexBlock key block pos =>
    cases hhash
    obtain ⟨entry, _, h⟩ := Option.bind_eq_some_iff.mp h
    cases h
    exact (entry_received hother).trans (congrArg (List.lookup other)
      (BlockManager.index_updateBlockInfo m block entry.nHeight pos))
  | writeBlockUndo key blockundo failed =>
    cases hhash
    obtain ⟨entry, _, h⟩ := Option.bind_eq_some_iff.mp h
    obtain ⟨_, _, h⟩ := Option.bind_eq_some_iff.mp h
    split at h
    · cases h
      rfl
    dsimp only at h
    split at h
    · cases h
      rfl
    · cases h
      unfold BlockManager.entry
      rw [lookup_modifyKey, if_neg hother]
      exact congrArg (List.lookup other) (BlockManager.index_trackUndoHeight _ _ _ _ _)
  | pruneOneBlockFile fileNumber unlink => cases hhash

theorem InStep.operated {op : BlockManager.Op} {blockman : BlockManager} (h : InStep s)
    (hhash : entryOf op = some hash)
      (hperform : BlockManager.perform env s.blockman op = some blockman) :
    InStep (s.operated hash blockman) := by
  have hgrows : ∀ entry, s.Present entry → (s.operated hash blockman).Present entry := by
    intro entry hpresent
    refine ⟨fun hdata => ?_, fun hundo => ?_⟩
    · exact Bool.or_eq_true_iff.mpr (.inl (hpresent.1 hdata))
    · exact Bool.or_eq_true_iff.mpr (.inl (hpresent.2 hundo))
  refine ⟨⟨fun other entry hentry => ?_, fun other entry hentry => ?_⟩, fun other hclean => ?_⟩
  · change blockman.entry other = some entry at hentry
    by_cases hother : other = hash
    · subst hother
      refine ⟨fun hdata => ?_, fun hundo => ?_⟩
      · apply Bool.or_eq_true_iff.mpr
        right
        rw [hentry]
        show (entry.haveData && entry.nFile == entry.nFile) = true
        rw [hdata, beq_self_eq_true]
        rfl
      apply Bool.or_eq_true_iff.mpr
      right
      rw [hentry]
      show (entry.haveUndo && entry.nFile == entry.nFile) = true
      rw [hundo, beq_self_eq_true]
      rfl
    · rw [entry_perform hhash hperform hother] at hentry
      exact hgrows entry (h.memory other entry hentry)
  · exact hgrows entry (h.disk other entry hentry)
  · have hother := ne_of_not_mem_cons hclean
    show s.diskIndex other = blockman.entry other
    rw [entry_perform hhash hperform hother]
    exact h.synced other (not_mem_of_not_mem_cons hclean)

/-- The indexes keep in step. -/
theorem InStep.run (h : InStep s) (hrun : Relation.ReflTransGen (Step env) s t) : InStep t := by
  induction hrun with
  | refl => exact h
  | tail _ hstep ih =>
    cases hstep with
    | operate hhash _ hperform => exact ih.operated hhash hperform
    | setSnapshotHeight snapshot_height => exact ⟨⟨ih.memory, ih.disk⟩, ih.synced⟩
    | flush view options inputs nManualPruneHeight hwrite hp =>
      obtain ⟨_, hchosen, _⟩ := findFiles_spec view options nManualPruneHeight _
      exact ih.stop (hwrite ▸ stop_of_mem_flush hchosen hp)

/-! ## Window and target -/

/-- The heights of the files cover those of their blocks. -/
def HeightsExact (s : BlockManager) : Prop :=
  ∀ hash entry, s.entry hash = some entry → entry.haveData = true ∨ entry.haveUndo = true →
    (s.fileInfo entry.nFile).nHeightFirst ≤ entry.nHeight ∧
    entry.nHeight ≤ (s.fileInfo entry.nFile).nHeightLast

/-- The data or undo data of a block is removed: an index no longer has it, or its file is gone. -/
def Removed (s p : BlockStorage) (hash : Uint256) (entry : BlockFileEntry) : Prop :=
  (entry.haveData = true ∨ entry.haveUndo = true) ∧
    (p.blockman.entry hash ≠ some entry ∨
      (s.diskIndex hash = some entry ∧ p.diskIndex hash ≠ some entry) ∨
      p.blockFileExists entry.nFile ≠ s.blockFileExists entry.nFile ∨
      p.undoFileExists entry.nFile ≠ s.undoFileExists entry.nFile)

/-- What is removed was in a file that was given up. -/
theorem mem_chosen_of_removed {chosen : List Nat} {fails : Bool} {p : BlockStorage} (h : InStep s)
    (hstop : Stop s chosen fails p)
    (hentry : s.blockman.entry hash = some entry) (hremoved : Removed s p hash entry) :
      entry.nFile ∈ chosen := by
  by_contra hkept
  obtain ⟨hdisk, hblock, hundo, _⟩ := disk_pruneAll chosen s
  have hsame : (pruneAll chosen s).blockman.entry hash = some entry := by
    rw [entry_pruneAll, hentry, Option.map_some, if_neg hkept]
  have hall : p.blockman.entry hash = some entry ∧
      (p.diskIndex hash = s.diskIndex hash ∨ p.diskIndex hash = some entry) ∧
      p.blockFileExists entry.nFile = s.blockFileExists entry.nFile ∧
      p.undoFileExists entry.nFile = s.undoFileExists entry.nFile := by
    cases hstop with
    | start => exact ⟨hentry, .inl rfl, rfl, rfl⟩
    | pruned | failed hfails =>
      exact ⟨hsame, .inl (congrFun hdisk _), congrFun hblock _, congrFun hundo _⟩
    | written hunlinked =>
      rw [hunlinked.blockman, hunlinked.diskIndex, hunlinked.blockFiles _ hkept,
        hunlinked.undoFiles _ hkept]
      exact ⟨hsame, .inr ((h.diskIndex_written hash).trans hsame), congrFun hblock _,
        congrFun hundo _⟩
  rcases hremoved.2 with hgone | ⟨hthere, hgone⟩ | hgone | hgone
  · exact hgone hall.1
  · exact hgone (hall.2.1.elim (fun hsame => hsame.trans hthere) id)
  · exact hgone hall.2.2.1
  · exact hgone hall.2.2.2

/-- Automatic pruning stays above its target, and gets to it unless no file is left in its window.
-/
structure MeetsTarget (view : ChainstateView) (options : PruneOptions) (s : BlockStorage) :
    Prop where
  needed : ∀ before fileNumber after,
    (findFilesToPrune view options s (lastPrune view options)).1 = before ++ fileNumber :: after →
      pruneTarget view options ≤ (before.foldl pruneOneBlockFile s).calculateCurrentUsage +
      pruneBuffer view
  exhausted : view.pruneAfterHeight < view.height →
    pruneTarget view options ≤ s.calculateCurrentUsage + chunkBuffer →
    pruneTarget view options ≤
      (findFilesToPrune view options s (lastPrune view options)).2.calculateCurrentUsage +
      pruneBuffer view →
    ∀ fileNumber < s.blockman.maxBlockfileNum,
      let info :=
      (findFilesToPrune view options s (lastPrune view options)).2.blockman.fileInfo fileNumber
      info.nSize ≠ 0 → ¬ InRange (getPruneRange view (lastPrune view options)) info

theorem meetsTarget (view : ChainstateView) (options : PruneOptions) (s : BlockStorage) :
    MeetsTarget view options s := by
  obtain ⟨chosen, hloop, hresult⟩ := pruneLoop_spec (getPruneRange view (lastPrune view options))
    (pruneBuffer view) (pruneTarget view options) (nodup_range (n := s.blockman.maxBlockfileNum)) s
  have hcases :
      findFilesToPrune view options s (lastPrune view options) = (chosen, pruneAll chosen s) ∨
      (findFilesToPrune view options s (lastPrune view options) = ([], s) ∧
        ¬ (view.pruneAfterHeight < view.height ∧
        pruneTarget view options ≤ s.calculateCurrentUsage + chunkBuffer)) := by
    unfold findFilesToPrune
    dsimp only
    split
    · next hstart =>
      right
      refine ⟨rfl, fun hrun => ?_⟩
      rcases hstart with hlow | hzero
      · omega
      · exact pruneTarget_ne_zero view options hzero
    split
    · next hshort => exact .inr ⟨rfl, fun hrun => absurd hrun.1 (Int.not_lt.mpr hshort)⟩
    split
    · exact .inl hloop
    · next hbelow => exact .inr ⟨rfl, fun hrun => hbelow hrun.2⟩
  rcases hcases with hrun | ⟨hrun, hnot⟩
  · rw [Prod.mk.injEq] at hrun
    refine ⟨?_, ?_⟩
    · rw [hrun.1]
      exact hresult.needed
    rw [hrun.2]
    intro _ _ hover fileNumber hfile
    exact hresult.exhausted hover fileNumber (mem_range.mpr hfile)
  · refine ⟨?_, fun hheight hover => absurd ⟨hheight, hover⟩ hnot⟩
    rw [hrun]
    intro before fileNumber after hsplit
    simp at hsplit

/-- No flush removes a block outside of its window, automatic pruning keeps to its target, and
wherever the process stops, also in a shutdown that follows, the files of the index on disk are
there. -/
theorem flush_keeps_window {s₀ : BlockStorage} (hloaded : Loaded s₀)
    (hrun : Relation.ReflTransGen (Step env) s₀ s)
    (hheights : HeightsExact s.blockman) (view : ChainstateView) (options : PruneOptions)
      (inputs : FlushInputs)
    (nManualPruneHeight : Int) :
    (∀ p ∈ flushStateToDisk view options inputs nManualPruneHeight s,
      (∀ hash entry, s.blockman.entry hash = some entry → 2 ≤ entry.nHeight →
        Removed s p hash entry → InWindow view options nManualPruneHeight entry.nHeight) ∧
      ∀ q, Relation.ReflTransGen FlushesOnly p q →
        ∀ hash entry, q.diskIndex hash = some entry → q.Present entry) ∧
      MeetsTarget view options s := by
  have hstep := hloaded.inStep.run hrun
  obtain ⟨_, hchosen, hmem⟩ := findFiles_spec view options nManualPruneHeight s
  refine ⟨fun p hp => ⟨?_, ?_⟩, meetsTarget view options s⟩
  · intro hash entry hentry htwo hremoved
    have hprunes := (hmem _).mp
      (mem_chosen_of_removed hstep (stop_of_mem_flush hchosen hp) hentry hremoved)
    obtain ⟨hfirst, hlast⟩ := hheights hash entry hentry hremoved.1
    exact inWindow_of_inRange hprunes.height hprunes.eligible.2 hfirst hlast htwo
  · intro q hshutdown
    exact ((hstep.allPresent_stop (stop_of_mem_flush hchosen hp)).shutdown hshutdown).disk

/-! ## Examples -/

/-- The network of the examples. -/
def sampleStoreEnv : BlockStoreEnv where
  hash256 := fun bytes => BitVec.ofNat 256 (bytes.getD 76 0).toNat
  curve := .empty
  messageStart := [0xf9, 0xbe, 0xb4, 0xd9]
  hmessageStart := rfl
  checkProofOfWork := fun _ => true
  fast_prune := false

/-- A chain of one thousand blocks. -/
def thousandBlocks (pruneAfterHeight : Nat) (initialBlockDownload : Bool) : ChainstateView where
  height := 1000
  chainstates := 1
  snapshotBaseHeight := none
  hbase := nofun
  bestHeaderHeight := 2000
  initialBlockDownload := initialBlockDownload
  pruneAfterHeight := pruneAfterHeight

/-- Pruning with the smallest target. -/
def smallTarget : PruneOptions where
  m_prune_mode := true
  prune_target := MIN_DISK_SPACE_FOR_BLOCK_FILES
  m_check_for_pruning := true
  m_blockfiles_indexed := true
  m_prune_locks := []

/-- A flush in which nothing fails. -/
def quietFlush : FlushInputs where
  fullFlush := false
  periodicWrite := false
  diskSpaceLow := false
  indexWriteFails := false
  coinsSpaceLow := false
  coinsTip := {}
  empty_cache := false

/-- A block in the first file. -/
def blockInFile : BlockFileEntry := { nHeight := 5, hashPrev := 0, haveData := true, nDataPos := 8 }

/-- Files of the greatest size, each with one hundred blocks, and a block of the first one. -/
def fullFiles (count : Nat) : BlockStorage where
  blockman := {
    m_blockfile_info := (List.range count).map fun i =>
      { nBlocks := 100, nSize := MAX_BLOCKFILE_SIZE, nHeightFirst := 100 * i, nHeightLast :=
        100 * i + 99 }
    m_blockfile_cursors := fun type => if type = .normal then some ⟨count, 0⟩ else none
    m_block_index := [(1, blockInFile)]
    blockFiles := fun _ => []
    undoFiles := fun _ => [] }
  diskIndex := fun hash => List.lookup hash [(1, blockInFile)]
  blockFileExists := fun _ => true
  coins := {}

theorem entry_fullFiles (count : Nat) (h : (fullFiles count).blockman.entry hash = some entry) :
    entry = blockInFile :=
  congrArg Prod.snd (mem_singleton.mp (mem_of_lookup h))

/-- Of five files the first is removed, with a block in the window; its entry was written before.
The target is met then, and a shutdown finds no entry without its file. -/
theorem flush_keeps_window_automatic :
    ∃ p ∈ flushStateToDisk (thousandBlocks 0 false) smallTarget quietFlush 0 (fullFiles 5),
      (Removed (fullFiles 5) p 1 blockInFile ∧ p.blockFileExists 0 = false ∧
        InWindow (thousandBlocks 0 false) smallTarget 0 blockInFile.nHeight) ∧
      (∀ q, Relation.ReflTransGen FlushesOnly p q →
        ∀ hash entry, q.diskIndex hash = some entry → q.Present entry) ∧
      (findFilesToPrune (thousandBlocks 0 false) smallTarget (fullFiles 5)
        (lastPrune (thousandBlocks 0 false) smallTarget)).1 = [0] ∧
      MeetsTarget (thousandBlocks 0 false) smallTarget (fullFiles 5) := by
  have hloaded : Loaded (fullFiles 5) := by
    refine ⟨rfl, fun _ => rfl, fun hash entry hentry => ?_⟩
    rw [entry_fullFiles 5 hentry]
    exact ⟨fun _ => rfl, nofun⟩
  have hheights : HeightsExact (fullFiles 5).blockman := by
    intro hash entry hentry _
    rw [entry_fullFiles 5 hentry]
    decide
  obtain ⟨hflush, htarget⟩ := @flush_keeps_window sampleStoreEnv (fullFiles 5) (fullFiles 5) hloaded
    .refl hheights (thousandBlocks 0 false) smallTarget quietFlush 0
  have hgone : ∃ p ∈ flushStateToDisk (thousandBlocks 0 false) smallTarget quietFlush 0
      (fullFiles 5), p.blockFileExists 0 = false := by decide
  obtain ⟨p, hp, hgone⟩ := hgone
  have hremoved : Removed (fullFiles 5) p 1 blockInFile := by
    refine ⟨.inl rfl, .inr (.inr (.inl ?_))⟩
    rw [show blockInFile.nFile = 0 from rfl, hgone]
    exact Bool.false_ne_true
  exact ⟨p, hp, ⟨hremoved, hgone, (hflush p hp).1 1 blockInFile rfl (by decide) hremoved⟩,
    (hflush p hp).2, by decide, htarget⟩

/-- Automatic pruning leaves a file in its window although the target is not met with a buffer. -/
def LeavesFile (view : ChainstateView) (options : PruneOptions) (s : BlockStorage)
    (nBuffer fileNumber : Nat) : Prop :=
  let result := (findFilesToPrune view options s (lastPrune view options)).2
  pruneTarget view options ≤ result.calculateCurrentUsage + nBuffer ∧
    fileNumber < s.blockman.maxBlockfileNum ∧ (result.blockman.fileInfo fileNumber).nSize ≠ 0 ∧
    InRange (getPruneRange view (lastPrune view options)) (result.blockman.fileInfo fileNumber)

instance (view : ChainstateView) (options : PruneOptions) (s : BlockStorage)
    (nBuffer fileNumber : Nat) : Decidable (LeavesFile view options s nBuffer fileNumber) :=
  inferInstanceAs (Decidable (_ ∧ _ ∧ _ ≠ _ ∧ _))

/-- Pruning has not begun when the chain is short, or when it is downloaded and there is just enough
room for the next files. -/
theorem pruning_not_begun : LeavesFile (thousandBlocks 100000 false) smallTarget (fullFiles 5)
      chunkBuffer 0 ∧
      LeavesFile (thousandBlocks 0 true) smallTarget (fullFiles 4)
        (pruneBuffer (thousandBlocks 0 true)) 0 := by
  decide

end BlockStorage

end BtcSharp
