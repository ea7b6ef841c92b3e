/-
# Block and undo files

`BlockManager` of `node/blockstorage.cpp`: blocks are appended to numbered files, with a cursor
for each kind of chainstate, and undo data goes into a second file with the number of the file of
its block. A reindex fills the same counters for blocks that are found in the files. Positions
and sizes are 32-bit integers and wrap around.

Files are lists of bytes, without the key that they are obfuscated with. Bytes that are allocated
beyond the end are left out, and so is the flag that a prune is due.
-/

import BtcSharp.Math.AssocList
import BtcSharp.Validation.Block

namespace BtcSharp

open Math

/-! ## Blocks as bytes -/

/-- `CBlock` with its transactions. -/
def serializeBlock (block : CBlock) : List UInt8 :=
  serializeHeader block.header ++ writeVector (serializeTransaction true) block.vtx

/-! ## Files -/

def MAX_BLOCKFILE_SIZE : Nat := 0x8000000

def MAX_BLOCK_SERIALIZED_SIZE : Nat := 4000000

def BLOCK_SERIALIZATION_HEADER_SIZE : Nat := 8

def UNDO_DATA_DISK_OVERHEAD : Nat := BLOCK_SERIALIZATION_HEADER_SIZE + 32

/-- Write into a file at a position, with a gap before it filled. -/
def overwrite (file : List UInt8) (pos : Nat) (data : List UInt8) : List UInt8 :=
  file.take pos ++ List.replicate (pos - file.length) 0 ++ data ++ file.drop (pos + data.length)

/-- An `unsigned int`. -/
def toUInt (n : Nat) : Nat := n % 2 ^ 32

structure CBlockFileInfo where
  nBlocks : Nat := 0
  nSize : Nat := 0
  nUndoSize : Nat := 0
  nHeightFirst : Nat := 0
  nHeightLast : Nat := 0
  nTimeFirst : Nat := 0
  nTimeLast : Nat := 0
  deriving DecidableEq, Repr

def CBlockFileInfo.addBlock (info : CBlockFileInfo) (nHeightIn nTimeIn : Nat) : CBlockFileInfo :=
  { info with
    nHeightFirst := if info.nBlocks = 0 ∨
    nHeightIn < info.nHeightFirst then nHeightIn else info.nHeightFirst
    nTimeFirst := if info.nBlocks = 0 ∨ nTimeIn < info.nTimeFirst then nTimeIn else info.nTimeFirst
    nBlocks := info.nBlocks + 1
    nHeightLast := if info.nHeightLast < nHeightIn then nHeightIn else info.nHeightLast
    nTimeLast := if info.nTimeLast < nTimeIn then nTimeIn else info.nTimeLast }

inductive BlockfileType
  | normal
  | assumed
  deriving DecidableEq, Repr

structure BlockfileCursor where
  file_num : Nat := 0
  undo_height : Nat := 0
  deriving DecidableEq, Repr

/-- `FlatFilePos`, where no position is a null one. -/
structure FlatFilePos where
  nFile : Nat
  nPos : Nat
  deriving DecidableEq, Repr

/-- What `CBlockIndex` says about the files. -/
structure BlockFileEntry where
  nHeight : Nat
  hashPrev : Uint256
  haveData : Bool := false
  haveUndo : Bool := false
  nFile : Nat := 0
  nDataPos : Nat := 0
  nUndoPos : Nat := 0
  deriving DecidableEq, Repr

/-- What `PruneOneBlockFile` leaves of an entry. -/
def BlockFileEntry.pruned (fileNumber : Nat) (entry : BlockFileEntry) : BlockFileEntry :=
  if entry.nFile = fileNumber then
    { entry with haveData := false, haveUndo := false, nFile := 0, nDataPos := 0, nUndoPos := 0 }
  else entry

/-- What block storage asks of the rest of the node. -/
structure BlockStoreEnv where
  hash256 : List UInt8 → Uint256
  curve : Secp256k1
  messageStart : List UInt8
  hmessageStart : messageStart.length = 4
  /-- Proof of work and signet solution. -/
  checkProofOfWork : CBlock → Bool
  fast_prune : Bool

structure BlockManager where
  m_blockfile_info : List CBlockFileInfo := []
  m_blockfile_cursors : BlockfileType → Option BlockfileCursor := fun type =>
    if type = .normal then some {} else none
  m_snapshot_height : Option Nat := none
  m_block_index : List (Uint256 × BlockFileEntry) := []
  /-- The files `blk?????.dat`. -/
  blockFiles : Nat → List UInt8
  /-- The files `rev?????.dat`. -/
  undoFiles : Nat → List UInt8

namespace BlockStoreEnv

variable (env : BlockStoreEnv)

def blockHash (block : CBlock) : Uint256 :=
    env.hash256 (serializeHeader block.header)

/-- The checksum of undo data. -/
def undoChecksum (hashPrev : Uint256) (blockundo : CBlockUndo) : Uint256 :=
  env.hash256 (uint256Codec.write hashPrev ++ serBlockUndo env.curve blockundo)

/-- What stands in a block file for a block. -/
def blockRecord (block : CBlock) : List UInt8 :=
  env.messageStart ++ writeLE 4 (serializeBlock block).length ++ serializeBlock block

/-- Undo data with its checksum. -/
def undoBytes (hashPrev : Uint256) (blockundo : CBlockUndo) : List UInt8 :=
  serBlockUndo env.curve blockundo ++ uint256Codec.write (env.undoChecksum hashPrev blockundo)

/-- What stands in an undo file for a block. -/
def undoRecord (hashPrev : Uint256) (blockundo : CBlockUndo) : List UInt8 :=
  env.messageStart ++ writeLE 4 (serBlockUndo env.curve blockundo).length ++ env.undoBytes
    hashPrev blockundo

end BlockStoreEnv

namespace BlockManager

variable (s : BlockManager)

def fileInfo (nFile : Nat) : CBlockFileInfo := s.m_blockfile_info.getD nFile {}

/-- An element of `m_blockfile_info`, which is resized if it is too short. -/
def setFileInfo (nFile : Nat) (info : CBlockFileInfo) : BlockManager :=
  { s with
    m_blockfile_info := (s.m_blockfile_info ++
      List.replicate (nFile + 1 - s.m_blockfile_info.length) ({} : CBlockFileInfo)).set nFile info }

def setCursor (type : BlockfileType) (cursor : BlockfileCursor) : BlockManager :=
  { s with m_blockfile_cursors := Function.update s.m_blockfile_cursors type (some cursor) }

def entry (hash : Uint256) : Option BlockFileEntry := s.m_block_index.lookup hash

def maxBlockfileNum : Nat :=
  max ((s.m_blockfile_cursors .normal).getD {}).file_num
    ((s.m_blockfile_cursors .assumed).getD {}).file_num

def blockfileTypeForHeight (height : Nat) : BlockfileType :=
  match s.m_snapshot_height with
  | none => .normal
  | some snapshot_height => if snapshot_height ≤ height then .assumed else .normal

/-- `FlushUndoFile`, which cuts the file off at its size when it is finalized. -/
def flushUndoFile (block_file : Nat) (finalize : Bool) : BlockManager :=
  if finalize then
    { s with
      undoFiles := Function.update s.undoFiles block_file
        ((s.undoFiles block_file).take (s.fileInfo block_file).nUndoSize) }
  else s

/-- `FlushBlockFile` with `fFinalize` set. -/
def finalizeBlockFile (blockfile_num : Nat) (finalize_undo : Bool) : BlockManager :=
  let s := { s with
    blockFiles := Function.update s.blockFiles blockfile_num
      ((s.blockFiles blockfile_num).take (s.fileInfo blockfile_num).nSize) }
  if finalize_undo then s.flushUndoFile blockfile_num true else s

/-- The loop of `FindNextBlockPos` that looks for a file with room: the file, and whether the undo
file of the one that is left is finalized. -/
def nextFile (type : BlockfileType) (nAddSize max_blockfile_size : Nat) :
    Nat → BlockManager → Nat → Bool → Option (Nat × Bool × BlockManager)
  | 0, _, _, _ => none
  | fuel + 1, s, nFile, finalize_undo =>
    if max_blockfile_size ≤ toUInt ((s.fileInfo nFile).nSize + nAddSize) then
      let finalize_undo := (s.m_blockfile_cursors type).any fun cursor =>
        (s.fileInfo nFile).nHeightLast == cursor.undo_height
      let nFile := s.maxBlockfileNum + 1
      nextFile type nAddSize max_blockfile_size fuel (s.setCursor type ⟨nFile, 0⟩)
        nFile finalize_undo
    else some (nFile, finalize_undo, s)

variable (env : BlockStoreEnv)

/-- The size of a block file, which a test mode makes smaller. -/
def maxBlockfileSize (nAddSize : Nat) : Nat :=
  if env.fast_prune then if 0x10000 ≤ nAddSize then toUInt (nAddSize + 1) else 0x10000
  else MAX_BLOCKFILE_SIZE

/-- The beginning of `FindNextBlockPos`, where a snapshot gets a cursor. -/
def withCursor (type : BlockfileType) : Option BlockManager :=
  match s.m_blockfile_cursors type with
  | some _ => some s
  | none => if type = .assumed then some (s.setCursor type ⟨s.maxBlockfileNum + 1, 0⟩) else none

variable (s : BlockManager)

/-- `FindNextBlockPos`, when the disk has space. -/
def findNextBlockPos (nAddSize nHeight nTime : Nat) : Option (FlatFilePos × BlockManager) := do
  let type := s.blockfileTypeForHeight nHeight
  let s ← s.withCursor type
  let cursor ← s.m_blockfile_cursors type
  let last_blockfile := cursor.file_num
  guard (nAddSize < maxBlockfileSize env nAddSize)
  let (nFile, finalize_undo, s) ← nextFile type nAddSize (maxBlockfileSize env nAddSize)
    (s.m_blockfile_info.length + 2) s last_blockfile false
  let info := s.fileInfo nFile
  let s := if nFile ≠ last_blockfile then
      (s.finalizeBlockFile last_blockfile finalize_undo).setCursor type ⟨nFile, 0⟩
    else s
  return (⟨nFile, info.nSize⟩, s.setFileInfo nFile { info.addBlock nHeight nTime with
    nSize := toUInt (info.nSize + nAddSize) })

/-- `WriteBlock`, where the disk may be full or the file may not open; then there is no position. -/
def writeBlock (block : CBlock) (nHeight : Nat) (failed : Bool) :
    Option (Option FlatFilePos × BlockManager) := do
  let block_size := toUInt (serializeBlock block).length
  let (pos, s) ← findNextBlockPos env s
    (toUInt (block_size + BLOCK_SERIALIZATION_HEADER_SIZE)) nHeight block.header.nTime.toNat
  if failed then return (none, s)
  else return (some { pos with nPos := toUInt (pos.nPos + BLOCK_SERIALIZATION_HEADER_SIZE) },
    { s with
    blockFiles := Function.update s.blockFiles pos.nFile
      (overwrite (s.blockFiles pos.nFile) pos.nPos (env.blockRecord block)) })

def updateBlockInfo (block : CBlock) (nHeight : Nat) (pos : FlatFilePos) : BlockManager :=
  let type := s.blockfileTypeForHeight nHeight
  let s := match s.m_blockfile_cursors type with
    | some cursor => if cursor.file_num < pos.nFile then s.setCursor type ⟨pos.nFile, 0⟩ else s
    | none => s.setCursor type ⟨pos.nFile, 0⟩
  let added_size := toUInt (serializeBlock block).length
  let info := s.fileInfo pos.nFile
  s.setFileInfo pos.nFile { info.addBlock nHeight block.header.nTime.toNat with
    nSize := max (toUInt (pos.nPos + added_size)) info.nSize }

/-- What `ReceivedBlockTransactions` says about the files. -/
def receivedBlockTransactions (hash : Uint256) (pos : FlatFilePos) : BlockManager :=
  { s with
    m_block_index := modifyKey s.m_block_index hash fun entry => { entry with
      nFile := pos.nFile
      nDataPos := pos.nPos
      nUndoPos := 0
      haveData := true } }

/-- The end of `WriteBlockUndo`: the undo file may be complete, or the cursor gets on. -/
def trackUndoHeight (type : BlockfileType) (cursor : BlockfileCursor) (nFile nHeight : Nat) :
    BlockManager :=
  if nFile < cursor.file_num ∧
    nHeight = (s.fileInfo nFile).nHeightLast then s.flushUndoFile nFile true
  else if nFile = cursor.file_num ∧ cursor.undo_height < nHeight then
    s.setCursor type { cursor with undo_height := nHeight }
  else s

/-- `WriteBlockUndo`, with `FindUndoPos`. The disk may be full or the file may not open; by then
the file counts as longer. -/
def writeBlockUndo (hash : Uint256) (blockundo : CBlockUndo) (failed : Bool) :
    Option BlockManager := do
  let block ← s.entry hash
  let type := s.blockfileTypeForHeight block.nHeight
  let cursor ← s.m_blockfile_cursors type
  if block.haveUndo then return s
  else
    let blockundo_size := toUInt (serBlockUndo env.curve blockundo).length
    let info := s.fileInfo block.nFile
    let nPos := info.nUndoSize
    let s := s.setFileInfo block.nFile { info with
      nUndoSize := toUInt (info.nUndoSize + toUInt (blockundo_size + UNDO_DATA_DISK_OVERHEAD)) }
    if failed then return s
    else
      let s := { s with
        undoFiles := Function.update s.undoFiles block.nFile
          (overwrite (s.undoFiles block.nFile) nPos (env.undoRecord block.hashPrev blockundo)) }
      let s := s.trackUndoHeight type cursor block.nFile block.nHeight
      return { s with
        m_block_index := modifyKey s.m_block_index hash fun entry => { entry with
          nUndoPos := toUInt (nPos + BLOCK_SERIALIZATION_HEADER_SIZE)
          haveUndo := true } }

/-- `PruneOneBlockFile`, after which the files may be removed. -/
def pruneOneBlockFile (fileNumber : Nat) (unlink : Bool) : BlockManager :=
  let s := { s with
    m_block_index := s.m_block_index.map (Prod.map id (BlockFileEntry.pruned fileNumber)) }
  let s := s.setFileInfo fileNumber {}
  if unlink then
    { s with
      blockFiles := Function.update s.blockFiles fileNumber []
      undoFiles := Function.update s.undoFiles fileNumber [] }
  else s

/-! ## Runs -/

/-- What is done with block storage. -/
inductive Op
  | addToBlockIndex (hash hashPrev : Uint256) (nHeight : Nat)
  | setSnapshotHeight (snapshot_height : Option Nat)
  /-- A block is written and put into the index. -/
  | writeBlock (hash : Uint256) (block : CBlock) (failed : Bool)
  /-- A block that is found in a file is put into the index. -/
  | reindexBlock (hash : Uint256) (block : CBlock) (pos : FlatFilePos)
  | writeBlockUndo (hash : Uint256) (blockundo : CBlockUndo) (failed : Bool)
  | pruneOneBlockFile (fileNumber : Nat) (unlink : Bool)

def perform : Op → Option BlockManager
  | .addToBlockIndex hash hashPrev nHeight =>
    some { s with m_block_index := emplace s.m_block_index hash {
      nHeight := nHeight, hashPrev := hashPrev } }
  | .setSnapshotHeight snapshot_height => some { s with m_snapshot_height := snapshot_height }
  | .writeBlock hash block failed => do
    let entry ← s.entry hash
    let (pos, s) ← writeBlock env s block entry.nHeight failed
    match pos with
    | some pos => return s.receivedBlockTransactions hash pos
    | none => return s
  | .reindexBlock hash block pos => do
    let entry ← s.entry hash
    return (s.updateBlockInfo block entry.nHeight pos).receivedBlockTransactions hash pos
  | .writeBlockUndo hash blockundo failed => writeBlockUndo env s hash blockundo failed
  | .pruneOneBlockFile fileNumber unlink => some (s.pruneOneBlockFile fileNumber unlink)

end BlockManager

/-- What is checked of a block before it is stored. -/
structure CBlock.Storable (env : BlockStoreEnv) (hash : Uint256) (block : CBlock) : Prop where
  count : block.vtx.length ≤ MAX_SIZE
  txs : ∀ tx ∈ block.vtx, tx.InRange ∧ tx.vin ≠ []
  size : (serializeBlock block).length ≤ MAX_BLOCK_SERIALIZED_SIZE
  pow : env.checkProofOfWork block = true
  hash : env.blockHash block = hash

/-- What holds of the undo data of a block that was connected. -/
structure CBlockUndo.Storable (blockundo : CBlockUndo) : Prop where
  count : blockundo.vtxundo.length ≤ MAX_SIZE
  counts : ∀ txundo ∈ blockundo.vtxundo, txundo.vprevout.length ≤ MAX_SIZE
  valid : ∀ txundo ∈ blockundo.vtxundo, ∀ coin ∈ txundo.vprevout, coin.Valid

namespace BlockManager

/-- What the callers of block storage see to. -/
def Called (env : BlockStoreEnv) (s : BlockManager) : Op → Prop
  | .addToBlockIndex .. => True
  | .setSnapshotHeight _ => True
  | .writeBlock hash block _ =>
    (∃ entry, s.entry hash = some entry ∧ entry.haveData = false) ∧ block.Storable env hash
  | .reindexBlock hash block pos =>
    (∃ entry, s.entry hash = some entry ∧ entry.haveData = false) ∧ block.Storable env hash ∧
      BLOCK_SERIALIZATION_HEADER_SIZE ≤ pos.nPos
  | .writeBlockUndo hash blockundo _ =>
    (∃ entry, s.entry hash = some entry ∧ entry.haveData = true) ∧ blockundo.Storable
  | .pruneOneBlockFile .. => True

/-! ## The index stays -/

variable {env : BlockStoreEnv} {s t : BlockManager} {type : BlockfileType} {nAddSize : Nat}

theorem index_flushUndoFile (s : BlockManager) (block_file : Nat) (finalize : Bool) :
    (s.flushUndoFile block_file finalize).m_block_index = s.m_block_index := by
  unfold flushUndoFile
  split <;> rfl

theorem index_finalizeBlockFile (s : BlockManager) (blockfile_num : Nat) (finalize_undo : Bool) :
    (s.finalizeBlockFile blockfile_num finalize_undo).m_block_index = s.m_block_index := by
  unfold finalizeBlockFile
  dsimp only
  split
  · exact index_flushUndoFile _ _ _
  · rfl

theorem index_withCursor (h : s.withCursor type = some t) : t.m_block_index = s.m_block_index := by
  unfold withCursor at h
  split at h
  · cases h
    rfl
  split at h
  · cases h
    rfl
  · cases h

theorem index_nextFile {max_size fuel last found : Nat} {finalize finalized : Bool}
    (h : nextFile type nAddSize max_size fuel s last finalize = some (found, finalized, t)) :
    t.m_block_index = s.m_block_index := by
  induction fuel generalizing s last finalize with
  | zero => cases h
  | succ fuel ih =>
    rw [nextFile] at h
    split at h
    · exact @ih (s.setCursor type _) _ _ h
    · cases h
      rfl

theorem index_findNextBlockPos {nHeight nTime : Nat} {pos : FlatFilePos}
    (h : findNextBlockPos env s nAddSize nHeight nTime = some (pos, t)) :
    t.m_block_index = s.m_block_index := by
  obtain ⟨_, hfirst, h⟩ := Option.bind_eq_some_iff.mp h
  obtain ⟨cursor, hcursor, h⟩ := Option.bind_eq_some_iff.mp h
  obtain ⟨_, hguard, h⟩ := Option.bind_eq_some_iff.mp h
  obtain ⟨⟨found, finalized, second⟩, hsecond, h⟩ := Option.bind_eq_some_iff.mp h
  cases h
  rw [← index_withCursor hfirst, ← index_nextFile hsecond]
  show (if found ≠ cursor.file_num then _ else _ : BlockManager).m_block_index = _
  split
  · exact index_finalizeBlockFile _ _ _
  · rfl

theorem index_updateBlockInfo (s : BlockManager) (block : CBlock) (nHeight : Nat)
    (pos : FlatFilePos) :
    (s.updateBlockInfo block nHeight pos).m_block_index = s.m_block_index := by
  unfold updateBlockInfo
  extract_lets type mid added_size info
  show mid.m_block_index = _
  unfold mid
  split
  · split <;> rfl
  · rfl

theorem index_trackUndoHeight (s : BlockManager) (type : BlockfileType) (cursor : BlockfileCursor)
    (nFile nHeight : Nat) :
    (s.trackUndoHeight type cursor nFile nHeight).m_block_index = s.m_block_index := by
  unfold trackUndoHeight
  split
  · exact index_flushUndoFile _ _ _
  split <;> rfl

end BlockManager

end BtcSharp
