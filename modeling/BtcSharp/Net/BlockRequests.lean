/-
# Blocks in flight

What `PeerManagerImpl` of `net_processing.cpp` keeps about the blocks that it has asked its peers
for: a queue for each peer, a multimap from block hashes to places in these queues, and the
number of peers that blocks are downloaded from. An element of a queue has an address, which is
what an iterator is; the multimap is the list of its entries in the order of insertion.

Each function is what happens under one lock of `cs_main`. It gives no result if an assertion
fails, an iterator points at nothing or a null pointer is followed. What a handler finds out
about the chain, a message or the contents of a partial block is part of its input.
-/

import BtcSharp.Index.BaseIndex
import BtcSharp.Math.AssocList

namespace BtcSharp

open Math

abbrev NodeId := Int

def MAX_CMPCTBLOCKS_INFLIGHT_PER_BLOCK : Nat := 3

def MAX_BLOCKS_IN_TRANSIT_PER_PEER : Nat := 16

def MAX_OUTBOUND_PEERS_TO_PROTECT_FROM_DISCONNECT : Int := 4

def BLOCK_DOWNLOAD_WINDOW : Nat := 1024

def NODE_NETWORK_LIMITED_MIN_BLOCKS : Nat := 288

def MIN_PEER_PROTO_VERSION : Nat := 31800

/-- `QueuedBlock`, with the address of the list node. -/
structure QueuedBlock where
  it : Nat
  pindex : CBlockIndex
  /-- Whether there is a `PartiallyDownloadedBlock`. -/
  partialBlock : Bool
  deriving DecidableEq, Repr

structure CNodeState where
  vBlocksInFlight : List QueuedBlock := []
  m_downloading_since : Nat := 0
  m_stalling_since : Nat := 0
  fPreferredDownload : Bool := false
  m_protect : Bool := false

/-- `Peer`, with what `CNode` says about the connection. -/
structure Peer where
  m_is_inbound : Bool
  nVersion : Nat := 0
  m_wtxid_relay : Bool := false

/-- An entry of `mapBlocksInFlight`. -/
structure InFlight where
  hash : Uint256
  node_id : NodeId
  list_it : Nat
  deriving DecidableEq, Repr

/-- `PeerManagerImpl`. -/
structure PeerManager where
  m_node_states : List (NodeId × CNodeState) := []
  m_peer_map : List (NodeId × Peer) := []
  mapBlocksInFlight : List InFlight := []
  m_peers_downloading_from : Int := 0
  m_num_preferred_download_peers : Int := 0
  m_outbound_peers_with_protect_from_disconnect : Int := 0
  m_wtxid_relay_peers : Int := 0
  /-- The address of the next list node. -/
  nextIt : Nat := 0

/-- What a handler sees of the chain. -/
structure BlockView where
  tip : CBlockIndex
  haveData : CBlockIndex → Bool
  nTx : CBlockIndex → Nat
  nChainWork : CBlockIndex → Nat
  isValidTree : CBlockIndex → Bool
  segwitActive : CBlockIndex → Bool
  minimumChainWork : Nat
  canDirectFetch : Bool
  isInitialBlockDownload : Bool
  /-- `GetSnapshotBaseBlock`. -/
  snapshotBase : CBlockIndex

/-- What a handler sees of the peer. -/
structure PeerView where
  pindexBestKnownBlock : CBlockIndex
  /-- `pindexLastCommonBlock` after it was updated. -/
  pindexLastCommonBlock : CBlockIndex
  canServeBlocks : Bool
  canServeWitnesses : Bool
  isLimitedPeer : Bool

inductive ReadStatus
  | ok
  | invalid
  | failed
  | checkblockFailed
  deriving DecidableEq, Repr

namespace PeerManager

section

variable (s : PeerManager)

section

variable (nodeid : NodeId)

def state : Option CNodeState := s.m_node_states.lookup nodeid

variable (hash : Uint256)

/-- What `equal_range` of `mapBlocksInFlight` goes over. -/
def inFlight : List InFlight :=
  s.mapBlocksInFlight.filter fun entry => entry.hash = hash

def isBlockRequested : Bool := !(s.inFlight hash).isEmpty

def isBlockRequestedFromOutbound : Bool :=
  (s.inFlight hash).any fun entry =>
    (s.m_peer_map.lookup entry.node_id).any fun peer => !peer.m_is_inbound

/-- The element that an iterator into the queue of a peer points at. -/
def queuedAt (it : Nat) : Option QueuedBlock := do
  let state ← s.state nodeid
  state.vBlocksInFlight.find? fun queued => queued.it == it

/-! ## The two tables -/

/-- The body of the loop of `RemoveBlockRequest`. -/
def eraseRequest (entry : InFlight) (now : Nat) : Option PeerManager := do
  let state ← s.state entry.node_id
  let _ ← state.vBlocksInFlight.find? fun queued => queued.it == entry.list_it
  let since :=
    if (state.vBlocksInFlight.head?.map QueuedBlock.it) = some entry.list_it then
      max state.m_downloading_since now
    else state.m_downloading_since
  let rest := state.vBlocksInFlight.filter fun queued => queued.it ≠ entry.list_it
  return { s with
    m_node_states := modifyKey s.m_node_states entry.node_id fun state =>
      { state with
        vBlocksInFlight := rest
        m_downloading_since := since
        m_stalling_since := 0 }
    m_peers_downloading_from := s.m_peers_downloading_from - if rest = [] then 1 else 0
    mapBlocksInFlight := s.mapBlocksInFlight.erase entry }

/-- The loop of `RemoveBlockRequest`. -/
def eraseRequests (from_peer : Option NodeId) (now : Nat) : List InFlight → PeerManager →
  Option PeerManager
  | [], s => some s
  | entry :: range, s =>
    if from_peer ≠ none ∧ from_peer ≠ some entry.node_id then eraseRequests from_peer now range s
    else do
      let s ← s.eraseRequest entry now
      eraseRequests from_peer now range s

def removeBlockRequest (from_peer : Option NodeId) (now : Nat) : Option PeerManager :=
  let range := s.inFlight hash
  if range = [] then some s
  else if range.length ≤ MAX_CMPCTBLOCKS_INFLIGHT_PER_BLOCK then eraseRequests from_peer now range s
  else none

/-- The last part of `BlockRequested`: a block is put in both tables. -/
def addRequest (state : CNodeState) (block : CBlockIndex) (partialBlock : Bool) (now : Nat) :
    PeerManager :=
  let queue := state.vBlocksInFlight ++ [⟨s.nextIt, block, partialBlock⟩]
  { s with
    m_node_states := modifyKey s.m_node_states nodeid fun state =>
      { state with
        vBlocksInFlight := queue
        m_downloading_since := if queue.length = 1 then now else state.m_downloading_since }
    m_peers_downloading_from := s.m_peers_downloading_from + if queue.length = 1 then 1 else 0
    mapBlocksInFlight := s.mapBlocksInFlight ++ [⟨block.getBlockHash, nodeid, s.nextIt⟩]
    nextIt := s.nextIt + 1 }

/-- `BlockRequested`: whether the request is new, the iterator, and the state after it. -/
def blockRequested (block : CBlockIndex) (pit : Bool) (now : Nat) :
    Option (Bool × Nat × PeerManager) := do
  let _ ← s.state nodeid
  let range := s.inFlight block.getBlockHash
  if range.length ≤ MAX_CMPCTBLOCKS_INFLIGHT_PER_BLOCK then
    match range.find? fun entry => entry.node_id = nodeid with
    | some entry => return (false, entry.list_it, s)
    | none =>
      let s ← s.removeBlockRequest block.getBlockHash (some nodeid) now
      let state ← s.state nodeid
      return (true, s.nextIt, s.addRequest nodeid state block pit now)
  else none

/-- A `PartiallyDownloadedBlock` for an element of a queue. -/
def setPartialBlock (it : Nat) : PeerManager :=
  { s with
    m_node_states := modifyKey s.m_node_states nodeid fun state =>
      { state with
        vBlocksInFlight := state.vBlocksInFlight.map fun queued =>
          { queued with partialBlock := queued.partialBlock || queued.it == it } } }

/-! ## Peers -/

def initializeNode (is_inbound : Bool) : PeerManager :=
  { s with
    m_node_states := emplace s.m_node_states nodeid {}
    m_peer_map := emplace s.m_peer_map nodeid { m_is_inbound := is_inbound } }

/-- The part of a version message that is about downloads: a second one is ignored. -/
def processVersion (nVersion : Nat) (preferred : Bool) : Option PeerManager := do
  let peer ← s.m_peer_map.lookup nodeid
  let _ ← s.state nodeid
  if peer.nVersion ≠ 0 ∨ nVersion < MIN_PEER_PROTO_VERSION then return s
  else return { s with
    m_peer_map := modifyKey s.m_peer_map nodeid fun peer => { peer with nVersion := nVersion }
    m_node_states :=
      modifyKey s.m_node_states nodeid fun state => { state with fPreferredDownload := preferred }
    m_num_preferred_download_peers := s.m_num_preferred_download_peers + preferred.toNat }

/-- A message `wtxidrelay` that comes in time. -/
def processWtxidRelay : Option PeerManager := do
  let peer ← s.m_peer_map.lookup nodeid
  if peer.m_wtxid_relay then return s
  else return { s with
    m_peer_map := modifyKey s.m_peer_map nodeid fun peer => { peer with m_wtxid_relay := true }
    m_wtxid_relay_peers := s.m_wtxid_relay_peers + 1 }

/-- The end of `UpdatePeerStateForReceivedHeaders`. -/
def updatePeerStateForReceivedHeaders (view : BlockView) (s : PeerManager) (nodeid : NodeId)
    (pindexBestKnownBlock : CBlockIndex) (fullOutbound : Bool) : Option PeerManager := do
  let state ← s.state nodeid
  if fullOutbound ∧ pindexBestKnownBlock ≠ [] ∧
      s.m_outbound_peers_with_protect_from_disconnect <
      MAX_OUTBOUND_PEERS_TO_PROTECT_FROM_DISCONNECT ∧
      view.nChainWork view.tip ≤ view.nChainWork pindexBestKnownBlock ∧ !state.m_protect then
    return { s with
      m_node_states :=
      modifyKey s.m_node_states nodeid fun state => { state with m_protect := true }
      m_outbound_peers_with_protect_from_disconnect :=
        s.m_outbound_peers_with_protect_from_disconnect + 1 }
  else return s

/-- The loop of `FinalizeNode` over the queue of the peer. -/
def forgetRequests (queue : List QueuedBlock) (map : List InFlight) : List InFlight :=
  queue.foldl (fun map queued => map.filter fun entry =>
    ¬ (entry.hash = queued.pindex.getBlockHash ∧ entry.node_id = nodeid)) map

/-- The tables that `FinalizeNode` leaves. -/
def withoutNode (peer : Peer) (state : CNodeState) : PeerManager :=
  { s with
    m_peer_map := eraseKey s.m_peer_map nodeid
    m_node_states := eraseKey s.m_node_states nodeid
    mapBlocksInFlight := forgetRequests nodeid state.vBlocksInFlight s.mapBlocksInFlight
    m_num_preferred_download_peers :=
      s.m_num_preferred_download_peers - state.fPreferredDownload.toNat
    m_peers_downloading_from := s.m_peers_downloading_from - (!state.vBlocksInFlight.isEmpty).toNat
    m_outbound_peers_with_protect_from_disconnect :=
      s.m_outbound_peers_with_protect_from_disconnect - state.m_protect.toNat
    m_wtxid_relay_peers := s.m_wtxid_relay_peers - peer.m_wtxid_relay.toNat }

def finalizeNode : Option PeerManager := do
  let peer ← s.m_peer_map.lookup nodeid
  guard (0 ≤ s.m_wtxid_relay_peers - peer.m_wtxid_relay.toNat)
  let state ← s.state nodeid
  let t := s.withoutNode nodeid peer state
  guard (0 ≤ t.m_peers_downloading_from)
  guard (0 ≤ t.m_outbound_peers_with_protect_from_disconnect)
  guard (t.m_node_states = [] → t.mapBlocksInFlight = [] ∧ t.m_num_preferred_download_peers = 0 ∧
    t.m_peers_downloading_from = 0 ∧ t.m_outbound_peers_with_protect_from_disconnect = 0 ∧
    t.m_wtxid_relay_peers = 0)
  return t

end

/-! ## Messages with blocks -/

/-- What a `cmpctblock` message brings, once its header is accepted. -/
structure CmpctBlock where
  pindex : CBlockIndex
  /-- What `InitData` says. -/
  initStatus : ReadStatus
  /-- What `FillBlock` says with no further transactions. -/
  fillStatus : ReadStatus
  /-- Whether all transactions are there. -/
  complete : Bool
  m_bip152_highbandwidth_to : Bool
  isInboundConn : Bool

/-- How the handler of `cmpctblock` goes on without the lock. -/
inductive CmpctOutcome
  | done
  | processBlockTxn
  | revertToHeaderProcessing
  | blockReconstructed
  deriving DecidableEq, Repr

/-- The handler of `cmpctblock` from `InitData` on, for a block that is in flight from the peer. -/
def reconstruct (pfrom : NodeId) (block : CmpctBlock) (already_in_flight : Nat)
    (first_in_flight : Bool) (now : Nat) : Option (CmpctOutcome × PeerManager) :=
  let hash := block.pindex.getBlockHash
  let giveUp := do
    let s ← s.removeBlockRequest hash (some pfrom) now
    return (.done, s)
  if block.initStatus = .invalid then giveUp
  else if block.initStatus = .failed then
    if first_in_flight then return (.done, s) else giveUp
  else if block.complete then return (.processBlockTxn, s)
  else if first_in_flight then return (.done, s)
  else if block.m_bip152_highbandwidth_to ∧
      (!block.isInboundConn ∨ s.isBlockRequestedFromOutbound hash ∨
      already_in_flight < MAX_CMPCTBLOCKS_INFLIGHT_PER_BLOCK - 1) then return (.done, s)
  else giveUp

section

variable (view : BlockView)

/-- The handler of `cmpctblock` under the lock. -/
def processCmpctBlock (s : PeerManager) (pfrom : NodeId) (block : CmpctBlock) (now : Nat) :
    Option (CmpctOutcome × PeerManager) := do
  let nodestate ← s.state pfrom
  let pindex := block.pindex
  let range_flight := s.inFlight pindex.getBlockHash
  let already_in_flight := range_flight.length
  let first_in_flight := range_flight.head?.all fun entry => entry.node_id = pfrom
  let requested_block_from_this_peer := range_flight.any fun entry => entry.node_id = pfrom
  if view.haveData pindex then return (.done, s)
  else if view.nChainWork pindex ≤ view.nChainWork view.tip ∨
    view.nTx pindex ≠ 0 then return (.done, s)
  else if already_in_flight = 0 ∧ !view.canDirectFetch then return (.done, s)
  else if pindex.nHeight ≤ view.tip.nHeight + 2 then
    if already_in_flight < MAX_CMPCTBLOCKS_INFLIGHT_PER_BLOCK ∧
        nodestate.vBlocksInFlight.length < MAX_BLOCKS_IN_TRANSIT_PER_PEER ∨
        requested_block_from_this_peer then
      let (isNew, queuedBlockIt, s) ← s.blockRequested pfrom pindex true now
      let queued ← s.queuedAt pfrom queuedBlockIt
      if !isNew ∧ queued.partialBlock then return (.done, s)
      else
        (s.setPartialBlock pfrom queuedBlockIt).reconstruct pfrom block already_in_flight
          first_in_flight now
    else
      return (if block.initStatus = .ok ∧ block.fillStatus = .ok then .blockReconstructed
        else .done, s)
  else if requested_block_from_this_peer then return (.done, s)
  else return (.revertToHeaderProcessing, s)

/-- The loop of `ProcessCompactBlockTxns`: whether the block was requested from the peer as a
compact block. -/
def requestedPartial (s : PeerManager) (pfrom : NodeId) : List InFlight → Option Bool
  | [] => some false
  | entry :: range =>
    if entry.node_id = pfrom then do
      let queued ← s.queuedAt pfrom entry.list_it
      if queued.partialBlock then return true else s.requestedPartial pfrom range
    else s.requestedPartial pfrom range

/-- `ProcessCompactBlockTxns` under the lock, where `FillBlock` has the given result. -/
def processCompactBlockTxns (pfrom : NodeId) (blockhash : Uint256)
    (status : ReadStatus) (now : Nat) : Option PeerManager := do
  let range_flight := s.inFlight blockhash
  let first_in_flight := range_flight.head?.all fun entry => entry.node_id = pfrom
  let requested_block_from_this_peer ← s.requestedPartial pfrom range_flight
  if !requested_block_from_this_peer then return s
  else if status = .failed ∧ first_in_flight then return s
  else s.removeBlockRequest blockhash (some pfrom) now

/-! ## Downloads -/

/-- The loop of `HeadersDirectFetchBlocks` that collects the blocks, the latest first: where it ends
and the blocks. -/
def blocksToward (view : BlockView) (s : PeerManager) (canServeWitnesses : Bool) :
    CBlockIndex → List CBlockIndex → CBlockIndex × List CBlockIndex
  | [], vToFetch => ([], vToFetch)
  | hash :: pprev, vToFetch =>
    if !CChain.contains view.tip (hash :: pprev) ∧
      vToFetch.length ≤ MAX_BLOCKS_IN_TRANSIT_PER_PEER then
      blocksToward view s canServeWitnesses pprev
        (if !view.haveData (hash :: pprev) ∧ !s.isBlockRequested hash ∧
            (!view.segwitActive (hash :: pprev) ∨ canServeWitnesses) then vToFetch ++
            [hash :: pprev]
        else vToFetch)
    else (hash :: pprev, vToFetch)

/-- The loop of `HeadersDirectFetchBlocks` that requests the blocks. -/
def requestUpToLimit (nodeid : NodeId) (now : Nat) : List CBlockIndex → PeerManager →
  Option PeerManager
  | [], s => some s
  | pindex :: rest, s => do
    let state ← s.state nodeid
    if MAX_BLOCKS_IN_TRANSIT_PER_PEER ≤ state.vBlocksInFlight.length then return s
    else
      let (_, _, s) ← s.blockRequested nodeid pindex false now
      requestUpToLimit nodeid now rest s

def headersDirectFetchBlocks (s : PeerManager) (pfrom : NodeId) (canServeWitnesses : Bool)
    (last_header : CBlockIndex) (now : Nat) : Option PeerManager := do
  let _ ← s.state pfrom
  if view.canDirectFetch ∧ view.isValidTree last_header ∧
      view.nChainWork view.tip ≤ view.nChainWork last_header then
    let (pindexWalk, vToFetch) := blocksToward view s canServeWitnesses last_header []
    if !CChain.contains view.tip pindexWalk then return s
    else requestUpToLimit pfrom now vToFetch.reverse s
  else return s

/-- `FetchBlock` from the lock on. -/
def fetchBlock (peer_id : NodeId) (block : CBlockIndex) (now : Nat) : Option PeerManager := do
  let s ← s.removeBlockRequest block.getBlockHash none now
  let (_, _, s) ← s.blockRequested peer_id block false now
  return s

/-- The loop of `FindNextBlocks` over the blocks after `pindexWalk`, which the source reads in
pieces: the blocks to download, and the peer that stalls the download. -/
def findNextBlocksLoop (view : BlockView) (peer : PeerView) (s : PeerManager)
    (nodeid : NodeId) (count : Nat) (nWindowEnd : Nat) (useActiveChain : Bool) :
    List CBlockIndex → List CBlockIndex → Option NodeId → List CBlockIndex × Option NodeId
  | [], vBlocks, _ => (vBlocks, none)
  | pindex :: rest, vBlocks, waitingfor =>
    let next := findNextBlocksLoop view peer s nodeid count nWindowEnd useActiveChain rest
    if !view.isValidTree pindex then (vBlocks, none)
    else if !peer.canServeWitnesses ∧ view.segwitActive pindex then (vBlocks, none)
    else if view.haveData pindex ∨ (useActiveChain ∧ CChain.contains view.tip pindex) then
      next vBlocks waitingfor
    else if s.isBlockRequested pindex.getBlockHash then
      next vBlocks (waitingfor.or ((s.inFlight pindex.getBlockHash).head?.map InFlight.node_id))
    else if nWindowEnd < pindex.nHeight then
      (vBlocks, if vBlocks = [] ∧ waitingfor ≠ some nodeid then waitingfor else none)
    else if peer.isLimitedPeer ∧
        NODE_NETWORK_LIMITED_MIN_BLOCKS - 2 ≤ peer.pindexBestKnownBlock.nHeight -
        pindex.nHeight then
      next vBlocks waitingfor
    else if vBlocks.length + 1 = count then (vBlocks ++ [pindex], none)
    else next (vBlocks ++ [pindex]) waitingfor

variable (peer : PeerView)

def findNextBlocks (s : PeerManager) (nodeid : NodeId) (vBlocks : List CBlockIndex)
    (pindexWalk : CBlockIndex) (count nWindowEnd : Nat) (useActiveChain : Bool) :
    List CBlockIndex × Option NodeId :=
  let nMaxHeight := min peer.pindexBestKnownBlock.nHeight (nWindowEnd + 1)
  let vToFetch := (List.range' (pindexWalk.nHeight + 1) (nMaxHeight - pindexWalk.nHeight)).map
    peer.pindexBestKnownBlock.getAncestor
  findNextBlocksLoop view peer s nodeid count nWindowEnd useActiveChain vToFetch vBlocks none

def findNextBlocksToDownload (s : PeerManager) (nodeid : NodeId) (count : Nat) :
    List CBlockIndex × Option NodeId :=
  let best := peer.pindexBestKnownBlock
  if count = 0 then ([], none)
  else if best = [] ∨ view.nChainWork best < view.nChainWork view.tip ∨
      view.nChainWork best < view.minimumChainWork then ([], none)
  else if view.snapshotBase ≠ [] ∧
    best.getAncestor view.snapshotBase.nHeight ≠ view.snapshotBase then
    ([], none)
  else if peer.pindexLastCommonBlock = best then ([], none)
  else findNextBlocks view peer s nodeid [] peer.pindexLastCommonBlock count
    (peer.pindexLastCommonBlock.nHeight + BLOCK_DOWNLOAD_WINDOW) true

def tryDownloadingHistoricalBlocks (s : PeerManager) (nodeid : NodeId) (count : Nat)
    (vBlocks : List CBlockIndex) (from_tip : CBlockIndex) : List CBlockIndex :=
  let target_block := view.snapshotBase
  if count ≤ vBlocks.length then vBlocks
  else if peer.pindexBestKnownBlock = [] ∨
      peer.pindexBestKnownBlock.getAncestor target_block.nHeight ≠ target_block then vBlocks
  else (findNextBlocks view peer s nodeid vBlocks from_tip count
    (min (from_tip.nHeight + BLOCK_DOWNLOAD_WINDOW) target_block.nHeight) false).1

/-- A list of blocks is requested. -/
def requestAll (nodeid : NodeId) (now : Nat) : List CBlockIndex → PeerManager → Option PeerManager
  | [], s => some s
  | pindex :: rest, s => do
    let (_, _, s) ← s.blockRequested nodeid pindex false now
    requestAll nodeid now rest s

/-- A peer that stalls the download is remembered. -/
def markStaller (pto : NodeId) (staller : Option NodeId) (now : Nat) : Option PeerManager := do
  let state ← s.state pto
  match staller with
  | some staller =>
    if state.vBlocksInFlight = [] then
      let stalling ← s.state staller
      return { s with
        m_node_states := modifyKey s.m_node_states staller fun state =>
          { state with
            m_stalling_since :=
            if stalling.m_stalling_since = 0 then now else state.m_stalling_since } }
    else return s
  | none => return s

/-- The blocks that are needed in the background come after the others. -/
def withHistoricalBlocks (s : PeerManager) (nodeid : NodeId) (count : Nat)
    (vBlocks : List CBlockIndex) : Option CBlockIndex → List CBlockIndex
  | some from_tip =>
    if peer.isLimitedPeer then vBlocks
    else tryDownloadingHistoricalBlocks view peer s nodeid count vBlocks from_tip
  | none => vBlocks

/-- The part of `SendMessages` that requests blocks, where `historical` is where the download in the
background starts, if there is one. -/
def sendBlockRequests (s : PeerManager) (pto : NodeId) (syncFromPeer : Bool)
    (historical : Option CBlockIndex) (now : Nat) : Option PeerManager := do
  let state ← s.state pto
  if peer.canServeBlocks ∧ ((syncFromPeer ∧ !peer.isLimitedPeer) ∨ !view.isInitialBlockDownload) ∧
      state.vBlocksInFlight.length < MAX_BLOCKS_IN_TRANSIT_PER_PEER then
    let budget := MAX_BLOCKS_IN_TRANSIT_PER_PEER - state.vBlocksInFlight.length
    let (vToDownload, staller) := findNextBlocksToDownload view peer s pto budget
    let s ← requestAll pto now (withHistoricalBlocks view peer s pto budget vToDownload historical)
      s
    s.markStaller pto staller now
  else return s

end

/-! ## Runs -/

/-- What happens under one lock. -/
inductive Action
  | initializeNode (nodeid : NodeId) (is_inbound : Bool)
  | version (nodeid : NodeId) (nVersion : Nat) (preferred : Bool)
  | wtxidRelay (nodeid : NodeId)
  | headers (view : BlockView) (nodeid : NodeId) (pindexBestKnownBlock : CBlockIndex)
    (fullOutbound : Bool)
  | directFetch (view : BlockView) (nodeid : NodeId) (canServeWitnesses : Bool)
      (last_header : CBlockIndex) (now : Nat)
  | cmpctBlock (view : BlockView) (nodeid : NodeId) (block : CmpctBlock) (now : Nat)
  | blockTxn (nodeid : NodeId) (blockhash : Uint256) (status : ReadStatus) (now : Nat)
  /-- A block message, mutated or not. -/
  | block (nodeid : NodeId) (hash : Uint256) (now : Nat)
  /-- A new block was stored, or a reconstructed one is valid. -/
  | blockProcessed (hash : Uint256) (now : Nat)
  | fetchBlock (nodeid : NodeId) (block : CBlockIndex) (now : Nat)
  | sendBlockRequests (view : BlockView) (peer : PeerView) (nodeid : NodeId) (syncFromPeer : Bool)
      (historical : Option CBlockIndex) (now : Nat)
  | finalizeNode (nodeid : NodeId)

def perform : Action → Option PeerManager
  | .initializeNode nodeid is_inbound => some (s.initializeNode nodeid is_inbound)
  | .version nodeid nVersion preferred => s.processVersion nodeid nVersion preferred
  | .wtxidRelay nodeid => s.processWtxidRelay nodeid
  | .headers view nodeid best fullOutbound =>
    updatePeerStateForReceivedHeaders view s nodeid best fullOutbound
  | .directFetch view nodeid canServeWitnesses last_header now =>
    headersDirectFetchBlocks view s nodeid canServeWitnesses last_header now
  | .cmpctBlock view nodeid block now => (processCmpctBlock view s nodeid block now).map Prod.snd
  | .blockTxn nodeid blockhash status now => s.processCompactBlockTxns nodeid blockhash status now
  | .block nodeid hash now => s.removeBlockRequest hash (some nodeid) now
  | .blockProcessed hash now => s.removeBlockRequest hash none now
  | .fetchBlock nodeid block now => s.fetchBlock nodeid block now
  | .sendBlockRequests view peer nodeid syncFromPeer historical now =>
    sendBlockRequests view peer s nodeid syncFromPeer historical now
  | .finalizeNode nodeid => s.finalizeNode nodeid

end

/-- The peer that an action is about. -/
def Action.actor : Action → Option NodeId
  | .version nodeid _ _ | .wtxidRelay nodeid | .headers _ nodeid _ _
  | .directFetch _ nodeid _ _ _ =>
    some nodeid
  | .cmpctBlock _ nodeid _ _ | .blockTxn nodeid _ _ _ | .block nodeid _ _ => some nodeid
  | .fetchBlock nodeid _ _ | .sendBlockRequests _ _ nodeid _ _ _ | .finalizeNode nodeid =>
    some nodeid
  | .initializeNode _ _ | .blockProcessed _ _ => none

/-- The states that are reached from the start, where each lock may be taken by any thread. -/
inductive Reaches : PeerManager → Prop
  | start : Reaches {}
  | step {s t : PeerManager} (hbefore : Reaches s) (action : Action)
      (hstep : s.perform action = some t) : Reaches t

end PeerManager

end BtcSharp
