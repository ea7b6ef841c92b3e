/-
# Block requests over whole runs

Peers come and go, send blocks in their three forms and are asked for more; each handler keeps
the books, and none of its assertions fails as long as its peer is connected.
-/

import BtcSharp.Net.RequestBooks

namespace BtcSharp

open List Math

namespace PeerManager

variable {s t : PeerManager} {nodeid : NodeId} {entry : InFlight}

/-! ## Peers -/

/-- The books do not depend on anything but the queues and the multimap. -/
theorem Books.relabel (h : Books s) (hnodes : (t.m_node_states.map Prod.fst).Nodup)
    (hqueue : ∀ nodeid, t.queue nodeid = s.queue nodeid)
      (hmap : t.mapBlocksInFlight = s.mapBlocksInFlight)
    (hnext : t.nextIt = s.nextIt) (hcounts : Counts t) : Books t where
  nodes := hnodes
  entries := fun entry => by
    rw [hmap, hqueue]
    exact h.entries entry
  queues := fun nodeid => hqueue nodeid ▸ h.queues nodeid
  iterators := hmap ▸ h.iterators
  fresh := by
    rw [hmap, hnext]
    exact h.fresh
  pairs := hmap ▸ h.pairs
  bounded := fun hash => by
    unfold inFlight
    rw [hmap]
    exact h.bounded hash
  counts := hcounts

/-- A change of the state of a peer that leaves its queue. -/
theorem queue_modifyKey {f : CNodeState → CNodeState} (hf : ∀ state,
    (f state).vBlocksInFlight = state.vBlocksInFlight)
    (hstates : t.m_node_states = modifyKey s.m_node_states nodeid f) (other : NodeId) :
    t.queue other = s.queue other := by
  unfold queue state
  rw [hstates, lookup_modifyKey]
  split
  · cases s.m_node_states.lookup other with
    | none => rfl
    | some found => exact hf found
  · rfl

theorem Books.initializeNode (h : Books s) (nodeid : NodeId) (is_inbound : Bool) :
    Books (s.initializeNode nodeid is_inbound) := by
  unfold PeerManager.initializeNode
  by_cases hthere : nodeid ∈ s.m_node_states.map Prod.fst
  · have hpeer : nodeid ∈ s.m_peer_map.map Prod.fst := h.counts.peers ▸ hthere
    have hstates : emplace s.m_node_states nodeid {} = s.m_node_states := if_pos hthere
    have hpeers : emplace s.m_peer_map nodeid { m_is_inbound := is_inbound } = s.m_peer_map :=
      if_pos hpeer
    rw [hstates, hpeers]
    exact h
  have hnone : s.m_node_states.lookup nodeid = none := lookup_eq_none_iff_keys.mpr hthere
  have hpeer : s.m_peer_map.lookup nodeid = none :=
    lookup_eq_none_iff_keys.mpr (h.counts.peers ▸ hthere)
  refine h.relabel (nodup_emplace h.nodes) (fun other => ?_) rfl rfl ⟨?_, ?_, ?_, ?_, ?_, ?_⟩
  · unfold queue state
    by_cases hother : other = nodeid
    · rw [hother, lookup_emplace_self hnone, hnone]
      rfl
    · rw [lookup_emplace_ne hother]
  · rw [keys_emplace hpeer, keys_emplace hnone, h.counts.peers]
  · exact h.counts.downloading.trans (congrArg Int.ofNat (countValues_emplace hnone rfl).symm)
  · exact h.counts.preferred.trans (congrArg Int.ofNat (countValues_emplace hnone rfl).symm)
  · intro other otherState peer hother hpeer' hversion
    by_cases heq : other = nodeid
    · subst heq
      obtain rfl := Option.some.inj ((lookup_emplace_self hnone).symm.trans hother)
      rfl
    · exact h.counts.unversioned other otherState peer ((lookup_emplace_ne heq).symm.trans hother)
        ((lookup_emplace_ne heq).symm.trans hpeer') hversion
  · exact h.counts.protectedPeers.trans (congrArg Int.ofNat (countValues_emplace hnone rfl).symm)
  · exact h.counts.wtxidRelay.trans (congrArg Int.ofNat (countValues_emplace hpeer rfl).symm)

/-! ## The last peer -/

theorem mem_forgetRequests (nodeid : NodeId) (queue : List QueuedBlock) (map : List InFlight) :
    entry ∈ forgetRequests nodeid queue map ↔ entry ∈ map ∧
      ∀ queued ∈ queue, ¬ (entry.hash = queued.pindex.getBlockHash ∧ entry.node_id = nodeid) := by
  induction queue generalizing map with
  | nil => simp [forgetRequests]
  | cons head queue ih =>
    have hcons : forgetRequests nodeid (head :: queue) map = forgetRequests nodeid queue
        (map.filter fun entry => ¬ (entry.hash = head.pindex.getBlockHash ∧
          entry.node_id = nodeid)) := rfl
    rw [hcons, ih, mem_filter, decide_eq_true_iff, forall_mem_cons, and_assoc]

theorem forgetRequests_sublist (nodeid : NodeId) (queue : List QueuedBlock) (map : List InFlight) :
    Sublist (forgetRequests nodeid queue map) map := by
  induction queue generalizing map with
  | nil => exact .refl _
  | cons head queue ih => exact (ih _).trans filter_sublist

variable {state : CNodeState} {hash : Uint256} {blocks : List CBlockIndex} {view : BlockView}
  {block : CBlockIndex} {action : Action}

/-- `FinalizeNode` forgets all requests of the peer and no other. -/
theorem Books.mem_forgetRequests (h : Books s) (hstate : s.state nodeid = some state) :
    entry ∈ forgetRequests nodeid state.vBlocksInFlight s.mapBlocksInFlight ↔
      entry ∈ s.mapBlocksInFlight ∧ entry.node_id ≠ nodeid := by
  rw [PeerManager.mem_forgetRequests]
  refine and_congr_right fun hmem => ⟨fun hkept heq => ?_,
    fun hne queued hqueued hall => hne hall.2⟩
  obtain ⟨queued, hqueued, hsame⟩ := (h.entries entry).mp hmem
  rw [heq, queue_of_state hstate] at hqueued
  exact hkept queued hqueued ⟨(congrArg InFlight.hash hsame).symm, heq⟩

theorem Books.withoutNode {peer : Peer} (h : Books s) (hstate : s.state nodeid = some state)
    (hpeer : s.m_peer_map.lookup nodeid = some peer) : Books (s.withoutNode nodeid peer state) := by
  have hpeers : (s.m_peer_map.map Prod.fst).Nodup := h.counts.peers ▸ h.nodes
  have hself : (s.withoutNode nodeid peer state).queue nodeid = [] := by
    have hnone : (eraseKey s.m_node_states nodeid).lookup nodeid = none := lookup_eraseKey_self
    unfold queue PeerManager.state PeerManager.withoutNode
    rw [hnone]
    rfl
  have hother : ∀ other, other ≠ nodeid →
      (s.withoutNode nodeid peer state).queue other = s.queue other := by
    intro other hne
    unfold queue PeerManager.state PeerManager.withoutNode
    rw [lookup_eraseKey_ne hne]
  have hsub := forgetRequests_sublist nodeid state.vBlocksInFlight s.mapBlocksInFlight
  refine ⟨nodup_eraseKey h.nodes, fun entry => ?_, fun other => ?_,
    h.iterators.sublist (hsub.map _),
    fun entry hentry => h.fresh entry (hsub.subset hentry), h.pairs.sublist (hsub.map _),
    fun hash => (hsub.filter _).length_le.trans (h.bounded hash), ⟨?_, ?_, ?_, ?_, ?_, ?_⟩⟩
  · refine (h.mem_forgetRequests hstate).trans ?_
    by_cases hnode : entry.node_id = nodeid
    · rw [hnode, hself]
      exact ⟨fun hall => absurd rfl hall.2, fun ⟨_, hmem, _⟩ => absurd hmem not_mem_nil⟩
    · rw [hother _ hnode, ← h.entries]
      exact and_iff_left hnode
  · by_cases hnode : other = nodeid
    · rw [hnode, hself]
      exact nodup_nil
    · rw [hother _ hnode]
      exact h.queues other
  · show (eraseKey _ _).map _ = (eraseKey _ _).map _
    rw [keys_eraseKey, keys_eraseKey, h.counts.peers]
  · exact counter_eraseKey h.counts.downloading h.nodes hstate
  · exact counter_eraseKey h.counts.preferred h.nodes hstate
  · intro other otherState otherPeer hotherState hotherPeer hversion
    have hstates : (eraseKey s.m_node_states nodeid).lookup other = some otherState := hotherState
    have hlookup : (eraseKey s.m_peer_map nodeid).lookup other = some otherPeer := hotherPeer
    by_cases hnode : other = nodeid
    · rw [hnode, lookup_eraseKey_self] at hstates
      cases hstates
    · rw [lookup_eraseKey_ne hnode] at hstates hlookup
      exact h.counts.unversioned other otherState otherPeer hstates hlookup hversion
  · exact counter_eraseKey h.counts.protectedPeers h.nodes hstate
  · exact counter_eraseKey h.counts.wtxidRelay hpeers hpeer

/-- With no peer there is no request, and nothing is counted. -/
structure NothingLeft (s : PeerManager) : Prop where
  map : s.mapBlocksInFlight = []
  preferred : s.m_num_preferred_download_peers = 0
  downloading : s.m_peers_downloading_from = 0
  protectedPeers : s.m_outbound_peers_with_protect_from_disconnect = 0
  wtxidRelay : s.m_wtxid_relay_peers = 0

theorem Books.nothingLeft (h : Books s) (hnone : s.m_node_states = []) : NothingLeft s where
  map := by
    apply eq_nil_iff_forall_not_mem.mpr
    intro entry hentry
    obtain ⟨_, hqueued, -⟩ := (h.entries entry).mp hentry
    obtain ⟨state, hstate, -⟩ := state_of_mem_queue hqueued
    unfold PeerManager.state at hstate
    rw [hnone] at hstate
    cases hstate
  preferred := by
    rw [h.counts.preferred, hnone]
    rfl
  downloading := by
    rw [h.counts.downloading, hnone]
    rfl
  protectedPeers := by
    rw [h.counts.protectedPeers, hnone]
    rfl
  wtxidRelay := by
    have hpeers : s.m_peer_map = [] := map_eq_nil_iff.mp (h.counts.peers.trans (hnone ▸ rfl))
    rw [h.counts.wtxidRelay, hpeers]
    rfl

/-- A peer is gone with all its requests and the other peers keep theirs. Nothing is left if it
was the last one. -/
structure Finalized (s : PeerManager) (nodeid : NodeId) (t : PeerManager) : Prop where
  gone : t.state nodeid = none
  others : ∀ other, other ≠ nodeid → t.state other = s.state other
  requests : ∀ entry, entry ∈ t.mapBlocksInFlight ↔
    entry ∈ s.mapBlocksInFlight ∧ entry.node_id ≠ nodeid
  last : (∀ other, s.state other ≠ none → other = nodeid) → t.m_node_states = [] ∧ NothingLeft t

theorem Books.finalized {peer : Peer} (h : Books s) (hstate : s.state nodeid = some state)
    (hpeer : s.m_peer_map.lookup nodeid = some peer) :
    Finalized s nodeid (s.withoutNode nodeid peer state) where
  gone := lookup_eraseKey_self
  others := fun _ hne => lookup_eraseKey_ne hne
  requests := fun _ => h.mem_forgetRequests hstate
  last := by
    intro hlast
    have hnone : eraseKey s.m_node_states nodeid = [] := by
      apply filter_eq_nil_iff.mpr
      intro node hnode hne
      refine of_decide_eq_true hne (hlast node.1 fun hdead => ?_)
      exact lookup_eq_none_iff_keys.mp hdead (mem_map_of_mem hnode)
    exact ⟨hnone, (h.withoutNode hstate hpeer).nothingLeft hnone⟩

theorem guard_of {p : Prop} [Decidable p] (h : p) : (guard p : Option Unit) = some () := if_pos h

/-! ## Requests for several blocks -/

/-- A block is in flight from this peer only, if at all. -/
def OpenTo (s : PeerManager) (nodeid : NodeId) (hash : Uint256) : Prop :=
  ∀ entry ∈ s.inFlight hash, entry.node_id = nodeid

theorem openTo_of_not_requested (h : s.isBlockRequested hash = false) : OpenTo s nodeid hash := by
  intro entry hentry
  have hnone : s.inFlight hash = [] := by simpa [isBlockRequested] using h
  rw [hnone] at hentry
  cases hentry

/-- There is room for the peer to be asked. -/
theorem OpenTo.room (h : OpenTo s nodeid hash) :
      (∃ entry ∈ s.inFlight hash, entry.node_id = nodeid) ∨
      (s.inFlight hash).length < MAX_CMPCTBLOCKS_INFLIGHT_PER_BLOCK := by
  cases hflight : s.inFlight hash with
  | nil => exact .inr (by decide)
  | cons entry rest =>
    have hmem : entry ∈ s.inFlight hash := hflight ▸ mem_cons_self
    exact .inl ⟨entry, mem_cons_self, h entry hmem⟩

theorem OpenTo.requested {other : Uint256} {it : Nat} (h : OpenTo s nodeid other)
    (hrequested : Requested s t nodeid hash it) : OpenTo t nodeid other := by
  intro entry hentry
  obtain ⟨hmem, hhash⟩ := mem_inFlight.mp hentry
  rcases hrequested.entries entry hmem with hold | rfl
  · exact h entry (mem_inFlight.mpr ⟨hold, hhash⟩)
  · rfl

/-- The blocks that `HeadersDirectFetchBlocks` collects are not in flight. -/
theorem blocksToward_not_requested {witnesses : Bool} {pindexWalk : CBlockIndex}
    {vToFetch : List CBlockIndex}
      (hblock : block ∈ (blocksToward view s witnesses pindexWalk vToFetch).2) :
    block ∈ vToFetch ∨ s.isBlockRequested block.getBlockHash = false := by
  induction pindexWalk generalizing vToFetch with
  | nil => exact .inl hblock
  | cons hash pprev ih =>
    rw [blocksToward] at hblock
    split at hblock
    · rcases ih hblock with hmem | hfree
      · split at hmem
        case isTrue hwanted =>
          rcases mem_append.mp hmem with hold | hlast
          · exact .inl hold
          obtain rfl := mem_singleton.mp hlast
          have hfree : s.isBlockRequested hash = false := by simpa using hwanted.2.1
          exact .inr hfree
        case isFalse => exact .inl hmem
      · exact .inr hfree
    · exact .inl hblock

/-! ## Scheduled downloads -/

/-- The peer of an entry. -/
def InFlightFrom (s : PeerManager) (nodeid : NodeId) : Prop := ∃ entry ∈ s.mapBlocksInFlight,
    entry.node_id = nodeid

theorem Books.live_of_inFlight (h : Books s) (hfrom : InFlightFrom s nodeid) :
    s.state nodeid ≠ none := by
  obtain ⟨entry, hentry, rfl⟩ := hfrom
  obtain ⟨_, hqueued, -⟩ := (h.entries entry).mp hentry
  obtain ⟨state, hstate, -⟩ := state_of_mem_queue hqueued
  rw [hstate]
  exact Option.some_ne_none state

theorem inFlightFrom_head
    (h : (s.inFlight hash).head?.map InFlight.node_id = some nodeid) : InFlightFrom s nodeid := by
  obtain ⟨entry, hentry, hnode⟩ := Option.map_eq_some_iff.mp h
  exact ⟨entry, (mem_inFlight.mp (mem_of_head? hentry)).1, hnode⟩

/-- What `FindNextBlocks` finds: blocks that are not in flight, and a peer with a request. -/
structure Found (s : PeerManager) (vBlocks : List CBlockIndex)
    (found : List CBlockIndex × Option NodeId) : Prop where
  blocks : ∀ block ∈ found.1, block ∈ vBlocks ∨ s.isBlockRequested block.getBlockHash = false
  staller : ∀ nodeid, found.2 = some nodeid → InFlightFrom s nodeid

theorem found_unchanged (vBlocks : List CBlockIndex) : Found s vBlocks (vBlocks, none) where
  blocks := fun _ => .inl
  staller := nofun

theorem Found.push {vBlocks : List CBlockIndex} {found : List CBlockIndex × Option NodeId}
    (h : Found s (vBlocks ++ [block]) found)
      (hfree : s.isBlockRequested block.getBlockHash = false) : Found s vBlocks found where
  blocks := fun other hother => by
    rcases h.blocks other hother with hmem | hother
    · rcases mem_append.mp hmem with hold | hlast
      · exact .inl hold
      · exact .inr (mem_singleton.mp hlast ▸ hfree)
    · exact .inr hother
  staller := h.staller

theorem findNextBlocksLoop_spec {peer : PeerView} {count nWindowEnd : Nat} {active : Bool}
    (vToFetch vBlocks : List CBlockIndex) {waitingfor : Option NodeId}
    (hwaiting : ∀ other, waitingfor = some other → InFlightFrom s other) :
    Found s vBlocks (findNextBlocksLoop view peer s nodeid count nWindowEnd active vToFetch vBlocks
      waitingfor) := by
  induction vToFetch generalizing vBlocks waitingfor with
  | nil => exact found_unchanged vBlocks
  | cons pindex rest ih =>
    rw [findNextBlocksLoop]
    split
    · exact found_unchanged vBlocks
    split
    · exact found_unchanged vBlocks
    split
    · exact ih vBlocks hwaiting
    split
    · apply ih vBlocks
      intro other hother
      rcases Option.or_eq_some_iff.mp hother with hold | ⟨-, hhead⟩
      · exact hwaiting other hold
      · exact inFlightFrom_head hhead
    · next hfree =>
      have hfree : s.isBlockRequested pindex.getBlockHash = false := (Bool.not_eq_true _).mp hfree
      split
      · refine ⟨fun _ => .inl, fun other hother => ?_⟩
        split at hother
        · exact hwaiting other hother
        · cases hother
      split
      · exact ih vBlocks hwaiting
      split
      · exact (found_unchanged (vBlocks ++ [pindex])).push hfree
      · exact (ih (vBlocks ++ [pindex]) hwaiting).push hfree

section

variable (view : BlockView) (peer : PeerView) (nodeid : NodeId) (count : Nat)

theorem findNextBlocksToDownload_spec :
    Found s [] (findNextBlocksToDownload view peer s nodeid count) := by
  unfold findNextBlocksToDownload
  extract_lets best
  split
  · exact found_unchanged []
  split
  · exact found_unchanged []
  split
  · exact found_unchanged []
  split
  · exact found_unchanged []
  · exact findNextBlocksLoop_spec _ [] nofun

theorem tryDownloadingHistoricalBlocks_spec (vBlocks : List CBlockIndex) (from_tip : CBlockIndex) :
    ∀ block ∈ tryDownloadingHistoricalBlocks view peer s nodeid count vBlocks from_tip,
      block ∈ vBlocks ∨ s.isBlockRequested block.getBlockHash = false := by
  unfold tryDownloadingHistoricalBlocks
  extract_lets target_block
  split
  · exact fun _ => .inl
  split
  · exact fun _ => .inl
  · have hwaiting : ∀ other : NodeId, none = some other → InFlightFrom s other := nofun
    exact (findNextBlocksLoop_spec _ vBlocks hwaiting).blocks

theorem withHistoricalBlocks_spec (vBlocks : List CBlockIndex) (historical : Option CBlockIndex) :
    ∀ block ∈ withHistoricalBlocks view peer s nodeid count vBlocks historical,
      block ∈ vBlocks ∨ s.isBlockRequested block.getBlockHash = false := by
  cases historical with
  | none => exact fun _ => .inl
  | some from_tip =>
    rw [withHistoricalBlocks]
    split
    · exact fun _ => .inl
    · exact tryDownloadingHistoricalBlocks_spec view peer nodeid count vBlocks from_tip

end

/-! ## Compact blocks -/

theorem Books.reconstruct (h : Books s) (block : CmpctBlock) (already_in_flight : Nat)
    (first_in_flight : Bool)
    (now : Nat) : ∃ outcome t, s.reconstruct nodeid block already_in_flight first_in_flight now =
      some (outcome, t) ∧ Books t := by
  obtain ⟨t, hstep, hremoved⟩ := h.removeBlockRequest block.pindex.getBlockHash (some nodeid) now
  unfold PeerManager.reconstruct
  dsimp only
  rw [hstep]
  split
  · exact ⟨.done, t, rfl, hremoved.books⟩
  split
  · split
    · exact ⟨.done, s, rfl, h⟩
    · exact ⟨.done, t, rfl, hremoved.books⟩
  split
  · exact ⟨.processBlockTxn, s, rfl, h⟩
  split
  · exact ⟨.done, s, rfl, h⟩
  split
  · exact ⟨.done, s, rfl, h⟩
  · exact ⟨.done, t, rfl, hremoved.books⟩

theorem Books.requestedPartial (h : Books s) (nodeid : NodeId) {range : List InFlight}
    (hrange : ∀ entry ∈ range, entry ∈ s.mapBlocksInFlight) :
    ∃ requested, s.requestedPartial nodeid range = some requested := by
  induction range with
  | nil => exact ⟨false, rfl⟩
  | cons entry range ih =>
    have hrest := ih fun other hother => hrange other (mem_cons_of_mem _ hother)
    rw [PeerManager.requestedPartial]
    split
    · next hnode =>
      obtain ⟨_, hqueued⟩ := h.queuedAt (hrange entry mem_cons_self)
      rw [hnode] at hqueued
      rw [hqueued, Option.bind_eq_bind, Option.bind_some]
      split
      · exact ⟨true, rfl⟩
      · exact hrest
    · exact hrest

theorem Books.processCompactBlockTxns (h : Books s) (nodeid : NodeId) (blockhash : Uint256)
    (status : ReadStatus)
    (now : Nat) : ∃ t, s.processCompactBlockTxns nodeid blockhash status now = some t ∧
      Books t := by
  obtain ⟨_, hrequested⟩ := h.requestedPartial nodeid fun entry hentry =>
    (mem_inFlight.mp (show entry ∈ s.inFlight blockhash from hentry)).1
  obtain ⟨t, hstep, hremoved⟩ := h.removeBlockRequest blockhash (some nodeid) now
  unfold PeerManager.processCompactBlockTxns
  dsimp only
  rw [hrequested, Option.bind_eq_bind, Option.bind_some]
  split
  · exact ⟨s, rfl, h⟩
  split
  · exact ⟨s, rfl, h⟩
  · exact ⟨t, hstep, hremoved.books⟩

/-! ## Connected peers -/

section Connected

variable (h : Books s) (hlive : s.state nodeid ≠ none)

include h hlive

theorem Books.peer_of_state : ∃ peer, s.m_peer_map.lookup nodeid = some peer :=
  Option.ne_none_iff_exists'.mp (mt (lookup_eq_none_congr h.counts.peers).mp hlive)

theorem Books.processVersion (nVersion : Nat) (preferred : Bool) :
    ∃ t, s.processVersion nodeid nVersion preferred = some t ∧ Books t := by
  obtain ⟨state, hstate⟩ := Option.ne_none_iff_exists'.mp hlive
  obtain ⟨peer, hpeer⟩ := h.peer_of_state hlive
  have hpeers : (s.m_peer_map.map Prod.fst).Nodup := h.counts.peers ▸ h.nodes
  unfold PeerManager.processVersion
  rw [hpeer, hstate]
  simp only [Option.bind_eq_bind, Option.bind_some]
  split
  · exact ⟨s, rfl, h⟩
  next hsecond =>
  obtain ⟨hfirst, hversion⟩ := not_or.mp hsecond
  have hzero := not_not.mp hfirst
  let f : CNodeState → CNodeState := fun state => { state with fPreferredDownload := preferred }
  let g : Peer → Peer := fun peer => { peer with nVersion := nVersion }
  refine ⟨_, rfl, h.relabel (nodup_modifyKey h.nodes nodeid f)
    (queue_modifyKey (f := f) (fun _ => rfl) rfl) rfl rfl ⟨?_, ?_, ?_, ?_, ?_, ?_⟩⟩
  · exact (keys_modifyKey s.m_peer_map nodeid g).trans
      (h.counts.peers.trans (keys_modifyKey s.m_node_states nodeid f).symm)
  · exact counter_modifyKey_of_eq h.counts.downloading h.nodes hstate f rfl
  · apply counter_modifyKey h.counts.preferred h.nodes hstate f
    rw [h.counts.unversioned nodeid state peer hstate hpeer hzero]
    exact Int.add_zero _
  · intro other otherState otherPeer hother hotherPeer hunversioned
    rcases lookup_modifyKey_cases g hpeer hotherPeer with ⟨rfl, rfl⟩ | ⟨hne, hold⟩
    · rw [MIN_PEER_PROTO_VERSION] at hversion
      exact absurd hunversioned (by show nVersion ≠ 0; omega)
    · have hsame := (lookup_modifyKey_cases f hstate hother).resolve_left fun heq => hne heq.1
      exact h.counts.unversioned other otherState otherPeer hsame.2 hold hunversioned
  · exact counter_modifyKey_of_eq h.counts.protectedPeers h.nodes hstate f rfl
  · exact counter_modifyKey_of_eq h.counts.wtxidRelay hpeers hpeer g rfl

theorem Books.processWtxidRelay : ∃ t, s.processWtxidRelay nodeid = some t ∧ Books t := by
  obtain ⟨peer, hpeer⟩ := h.peer_of_state hlive
  have hpeers : (s.m_peer_map.map Prod.fst).Nodup := h.counts.peers ▸ h.nodes
  unfold PeerManager.processWtxidRelay
  rw [hpeer, Option.bind_eq_bind, Option.bind_some]
  split
  · exact ⟨s, rfl, h⟩
  next hsecond =>
  let g : Peer → Peer := fun peer => { peer with m_wtxid_relay := true }
  refine ⟨_, rfl, h.relabel h.nodes (fun _ => rfl) rfl rfl ⟨?_, h.counts.downloading,
    h.counts.preferred, ?_, h.counts.protectedPeers, ?_⟩⟩
  · exact (keys_modifyKey s.m_peer_map nodeid g).trans h.counts.peers
  · intro other state otherPeer hstate hotherPeer hversion
    rcases lookup_modifyKey_cases g hpeer hotherPeer with ⟨rfl, rfl⟩ | ⟨-, hold⟩
    · exact h.counts.unversioned other state peer hstate hpeer hversion
    · exact h.counts.unversioned other state otherPeer hstate hold hversion
  · apply counter_modifyKey h.counts.wtxidRelay hpeers hpeer g
    rw [(Bool.not_eq_true _).mp hsecond]
    exact Int.add_zero _

theorem Books.updatePeerStateForReceivedHeaders (view : BlockView) (best : CBlockIndex)
    (fullOutbound : Bool) :
    ∃ t, updatePeerStateForReceivedHeaders view s nodeid best fullOutbound = some t ∧ Books t := by
  obtain ⟨state, hstate⟩ := Option.ne_none_iff_exists'.mp hlive
  unfold PeerManager.updatePeerStateForReceivedHeaders
  rw [hstate]
  simp only [Option.bind_eq_bind, Option.bind_some]
  split
  case isFalse => exact ⟨s, rfl, h⟩
  case isTrue hprotect =>
    let f : CNodeState → CNodeState := fun state => { state with m_protect := true }
    refine ⟨_, rfl, h.relabel (nodup_modifyKey h.nodes nodeid f)
      (queue_modifyKey (f := f) (fun _ => rfl) rfl)
      rfl rfl ⟨?_, ?_, ?_, ?_, ?_, h.counts.wtxidRelay⟩⟩
    · exact h.counts.peers.trans (keys_modifyKey s.m_node_states nodeid f).symm
    · exact counter_modifyKey_of_eq h.counts.downloading h.nodes hstate f rfl
    · exact counter_modifyKey_of_eq h.counts.preferred h.nodes hstate f rfl
    · intro other otherState peer hother hpeer hversion
      rcases lookup_modifyKey_cases f hstate hother with ⟨rfl, rfl⟩ | ⟨-, hold⟩
      · exact h.counts.unversioned other state peer hstate hpeer hversion
      · exact h.counts.unversioned other otherState peer hold hpeer hversion
    · have hnot : state.m_protect = false := by simpa using hprotect.2.2.2.2
      apply counter_modifyKey h.counts.protectedPeers h.nodes hstate f
      rw [hnot]
      exact Int.add_zero _

/-- The assertions of `FinalizeNode` hold, and it forgets the peer. -/
theorem Books.finalizeNode :
    ∃ t, s.finalizeNode nodeid = some t ∧ Books t ∧ Finalized s nodeid t := by
  obtain ⟨state, hstate⟩ := Option.ne_none_iff_exists'.mp hlive
  obtain ⟨peer, hpeer⟩ := h.peer_of_state hlive
  have hbooks := h.withoutNode hstate hpeer
  have hleft := hbooks.nothingLeft
  refine ⟨s.withoutNode nodeid peer state, ?_, hbooks, h.finalized hstate hpeer⟩
  have hwtxid : 0 ≤ (s.withoutNode nodeid peer state).m_wtxid_relay_peers :=
    hbooks.counts.wtxidRelay ▸ Int.natCast_nonneg _
  have hdownloading : 0 ≤ (s.withoutNode nodeid peer state).m_peers_downloading_from :=
    hbooks.counts.downloading ▸ Int.natCast_nonneg _
  have hprotected :
    0 ≤ (s.withoutNode nodeid peer state).m_outbound_peers_with_protect_from_disconnect :=
    hbooks.counts.protectedPeers ▸ Int.natCast_nonneg _
  have hempty := fun hnone : (s.withoutNode nodeid peer state).m_node_states = [] =>
    And.intro (hleft hnone).map
      (And.intro (hleft hnone).preferred (And.intro (hleft hnone).downloading
        (And.intro (hleft hnone).protectedPeers (hleft hnone).wtxidRelay)))
  unfold PeerManager.finalizeNode
  simp only [hpeer, hstate, Option.bind_eq_bind, Option.bind_some]
  unfold PeerManager.withoutNode at hwtxid
  rw [guard_of hwtxid, guard_of hdownloading, guard_of hprotected, guard_of hempty]
  rfl

section Open

variable (hopen : ∀ block ∈ blocks, OpenTo s nodeid block.getBlockHash) (now : Nat)

include hopen

theorem Books.requestAll : ∃ t, requestAll nodeid now blocks s = some t ∧ Books t ∧
      t.m_node_states.map Prod.fst = s.m_node_states.map Prod.fst := by
  induction blocks generalizing s with
  | nil => exact ⟨s, rfl, h, rfl⟩
  | cons block blocks ih =>
    obtain ⟨_, _, _, hmid, hrequested⟩ :=
      h.blockRequested hlive (hopen block mem_cons_self).room false now
    obtain ⟨t, hstep, hbooks, hkeys⟩ := ih hrequested.books (live_of_keys hrequested.keys hlive)
      fun other hother => (hopen other (mem_cons_of_mem _ hother)).requested hrequested
    refine ⟨t, ?_, hbooks, hkeys.trans hrequested.keys⟩
    rw [PeerManager.requestAll, hmid]
    exact hstep

theorem Books.requestUpToLimit : ∃ t, requestUpToLimit nodeid now blocks s = some t ∧ Books t := by
  induction blocks generalizing s with
  | nil => exact ⟨s, rfl, h⟩
  | cons block blocks ih =>
    obtain ⟨state, hstate⟩ := Option.ne_none_iff_exists'.mp hlive
    rw [PeerManager.requestUpToLimit, hstate, Option.bind_eq_bind, Option.bind_some]
    split
    · exact ⟨s, rfl, h⟩
    obtain ⟨_, _, _, hmid, hrequested⟩ :=
      h.blockRequested hlive (hopen block mem_cons_self).room false now
    rw [hmid]
    exact ih hrequested.books (live_of_keys hrequested.keys hlive)
      fun other hother => (hopen other (mem_cons_of_mem _ hother)).requested hrequested

end Open

theorem Books.headersDirectFetchBlocks (view : BlockView) (witnesses : Bool)
    (last_header : CBlockIndex) (now : Nat) :
    ∃ t, headersDirectFetchBlocks view s nodeid witnesses last_header now = some t ∧ Books t := by
  obtain ⟨_, hstate⟩ := Option.ne_none_iff_exists'.mp hlive
  unfold PeerManager.headersDirectFetchBlocks
  simp only [hstate, Option.bind_eq_bind, Option.bind_some]
  split
  · split
    · exact ⟨s, rfl, h⟩
    · refine h.requestUpToLimit hlive (fun block hblock => openTo_of_not_requested ?_) now
      exact (blocksToward_not_requested (mem_reverse.mp hblock)).resolve_left not_mem_nil
  · exact ⟨s, rfl, h⟩

theorem Books.fetchBlock (block : CBlockIndex) (now : Nat) :
    ∃ t, s.fetchBlock nodeid block now = some t ∧ Books t := by
  obtain ⟨mid, hmid, hremoved⟩ := h.removeBlockRequest block.getBlockHash none now
  have hopen : OpenTo mid nodeid block.getBlockHash := by
    intro entry hentry
    obtain ⟨hmem, hhash⟩ := mem_inFlight.mp hentry
    exact absurd ⟨hhash, .inl rfl⟩ ((hremoved.entries entry).mp hmem).2
  obtain ⟨_, _, t, hstep, hrequested⟩ :=
    hremoved.books.blockRequested (live_of_keys hremoved.keys hlive) hopen.room false now
  refine ⟨t, ?_, hrequested.books⟩
  unfold PeerManager.fetchBlock
  rw [hmid]
  simp only [Option.bind_eq_bind, Option.bind_some]
  rw [hstep]
  rfl

theorem Books.markStaller {staller : Option NodeId} (hstaller : ∀ other, staller = some other →
    s.state other ≠ none) (now : Nat) :
    ∃ t, s.markStaller nodeid staller now = some t ∧ Books t := by
  obtain ⟨state, hstate⟩ := Option.ne_none_iff_exists'.mp hlive
  unfold PeerManager.markStaller
  rw [hstate]
  cases staller with
  | none => exact ⟨s, rfl, h⟩
  | some other =>
    obtain ⟨stalling, hstalling⟩ := Option.ne_none_iff_exists'.mp (hstaller other rfl)
    by_cases hempty : state.vBlocksInFlight = []
    · let f : CNodeState → CNodeState := fun state => { state with
        m_stalling_since := if stalling.m_stalling_since = 0 then now else state.m_stalling_since }
      refine ⟨s.change other f s.mapBlocksInFlight s.m_peers_downloading_from s.nextIt, ?_, ?_⟩
      · show (if _ then _ else _) = _
        rw [if_pos hempty, hstalling]
        rfl
      · exact h.relabel (nodup_modifyKey h.nodes other f)
          (queue_modifyKey (f := f) (fun _ => rfl) rfl) rfl rfl
          (h.counts.change h.nodes hstalling rfl rfl rfl)
    · refine ⟨s, ?_, h⟩
      show (if _ then _ else _) = _
      rw [if_neg hempty]
      rfl

theorem Books.sendBlockRequests (view : BlockView) (peer : PeerView) (syncFromPeer : Bool)
    (historical : Option CBlockIndex) (now : Nat) :
    ∃ t, sendBlockRequests view peer s nodeid syncFromPeer historical now = some t ∧ Books t := by
  obtain ⟨state, hstate⟩ := Option.ne_none_iff_exists'.mp hlive
  unfold PeerManager.sendBlockRequests
  rw [hstate, Option.bind_eq_bind, Option.bind_some]
  dsimp only
  split
  case isFalse => exact ⟨s, rfl, h⟩
  case isTrue =>
    have hfound := findNextBlocksToDownload_spec (s := s) view peer nodeid
      (MAX_BLOCKS_IN_TRANSIT_PER_PEER - state.vBlocksInFlight.length)
    generalize findNextBlocksToDownload view peer s nodeid _ = found at hfound
    obtain ⟨vToDownload, staller⟩ := found
    have hopen : ∀ block ∈ withHistoricalBlocks view peer s nodeid
        (MAX_BLOCKS_IN_TRANSIT_PER_PEER - state.vBlocksInFlight.length) vToDownload historical,
        OpenTo s nodeid block.getBlockHash := by
      intro block hblock
      apply openTo_of_not_requested
      rcases withHistoricalBlocks_spec view peer nodeid _ vToDownload historical block
        hblock with hmem | hfree
      · exact (hfound.blocks block hmem).resolve_left not_mem_nil
      · exact hfree
    obtain ⟨mid, hmid, hbooks, hkeys⟩ := h.requestAll hlive hopen now
    have hstaller : ∀ other, staller = some other → mid.state other ≠ none := fun other hother =>
      live_of_keys hkeys (h.live_of_inFlight (hfound.staller other hother))
    obtain ⟨t, hstep, ht⟩ := hbooks.markStaller (live_of_keys hkeys hlive) hstaller now
    refine ⟨t, ?_, ht⟩
    show (do let s ← PeerManager.requestAll nodeid now _ s; s.markStaller nodeid staller now) =
      some t
    rw [hmid]
    exact hstep

theorem Books.processCmpctBlock (view : BlockView) (block : CmpctBlock) (now : Nat) :
    ∃ outcome t, processCmpctBlock view s nodeid block now = some (outcome, t) ∧ Books t := by
  obtain ⟨_, hstate⟩ := Option.ne_none_iff_exists'.mp hlive
  unfold PeerManager.processCmpctBlock
  rw [hstate, Option.bind_eq_bind, Option.bind_some]
  dsimp only
  split
  · exact ⟨.done, s, rfl, h⟩
  split
  · exact ⟨.done, s, rfl, h⟩
  split
  · exact ⟨.done, s, rfl, h⟩
  split
  · split
    case isTrue hroom =>
      have hask : (∃ entry ∈ s.inFlight block.pindex.getBlockHash, entry.node_id = nodeid) ∨
          (s.inFlight block.pindex.getBlockHash).length < MAX_CMPCTBLOCKS_INFLIGHT_PER_BLOCK := by
        rcases hroom with hroom | hrequested
        · exact .inr hroom.1
        · obtain ⟨entry, hentry, hnode⟩ := any_eq_true.mp hrequested
          exact .inl ⟨entry, hentry, of_decide_eq_true hnode⟩
      obtain ⟨_, it, mid, hmid, hrequested⟩ := h.blockRequested hlive hask true now
      obtain ⟨_, hmidState⟩ := Option.ne_none_iff_exists'.mp (live_of_keys hrequested.keys hlive)
      obtain ⟨_, hqueued⟩ := hrequested.books.queuedAt hrequested.there
      rw [hmid]
      dsimp only [Option.bind_eq_bind, Option.bind_some]
      rw [hqueued, Option.bind_some]
      split
      · exact ⟨.done, mid, rfl, hrequested.books⟩
      · exact (hrequested.books.setPartialBlock hmidState it).reconstruct block _ _ now
    case isFalse => exact ⟨_, s, rfl, h⟩
  · split
    · exact ⟨.done, s, rfl, h⟩
    · exact ⟨.revertToHeaderProcessing, s, rfl, h⟩

end Connected

/-! ## Runs -/

/-- Every handler keeps the books, and no assertion fails, as long as the peer is connected. -/
theorem Books.perform (h : Books s) (hlive : ∀ nodeid, action.actor = some nodeid →
    s.state nodeid ≠ none) : ∃ t, s.perform action = some t ∧ Books t := by
  cases action with
  | initializeNode nodeid is_inbound => exact ⟨_, rfl, h.initializeNode nodeid is_inbound⟩
  | version nodeid nVersion preferred =>
    exact h.processVersion (hlive nodeid rfl) nVersion preferred
  | wtxidRelay nodeid => exact h.processWtxidRelay (hlive nodeid rfl)
  | headers view nodeid best fullOutbound =>
    exact h.updatePeerStateForReceivedHeaders (hlive nodeid rfl) view best fullOutbound
  | directFetch view nodeid witnesses last_header now =>
    exact h.headersDirectFetchBlocks (hlive nodeid rfl) view witnesses last_header now
  | cmpctBlock view nodeid block now =>
    obtain ⟨_, t, hstep, hbooks⟩ := h.processCmpctBlock (hlive nodeid rfl) view block now
    exact ⟨t, congrArg (Option.map Prod.snd) hstep, hbooks⟩
  | blockTxn nodeid blockhash status now =>
    exact h.processCompactBlockTxns nodeid blockhash status now
  | block nodeid hash now =>
    obtain ⟨t, hstep, hremoved⟩ := h.removeBlockRequest hash (some nodeid) now
    exact ⟨t, hstep, hremoved.books⟩
  | blockProcessed hash now =>
    obtain ⟨t, hstep, hremoved⟩ := h.removeBlockRequest hash none now
    exact ⟨t, hstep, hremoved.books⟩
  | fetchBlock nodeid block now => exact h.fetchBlock (hlive nodeid rfl) block now
  | sendBlockRequests view peer nodeid syncFromPeer historical now =>
    exact h.sendBlockRequests (hlive nodeid rfl) view peer syncFromPeer historical now
  | finalizeNode nodeid =>
    obtain ⟨t, hstep, hbooks, -⟩ := h.finalizeNode (hlive nodeid rfl)
    exact ⟨t, hstep, hbooks⟩

/-- A handler for a peer that is gone does not get through, or it does not need the peer. -/
theorem Books.perform_dead (h : Books s) (hactor : action.actor = some nodeid)
    (hdead : s.state nodeid = none) (hstep : s.perform action = some t) : Books t := by
  have hpeer := (lookup_eq_none_congr h.counts.peers).mpr hdead
  cases action with
  | initializeNode | blockProcessed => cases hactor
  | block other hash now =>
    obtain ⟨t', hstep', hremoved⟩ := h.removeBlockRequest hash (some other) now
    exact Option.some.inj (hstep'.symm.trans hstep) ▸ hremoved.books
  | blockTxn other blockhash status now =>
    obtain ⟨t', hstep', hbooks⟩ := h.processCompactBlockTxns other blockhash status now
    exact Option.some.inj (hstep'.symm.trans hstep) ▸ hbooks
  | fetchBlock other block now =>
    obtain rfl := Option.some.inj hactor
    obtain ⟨mid, hmid, hremoved⟩ := h.removeBlockRequest block.getBlockHash none now
    have hgone : mid.state other = none := (lookup_eq_none_congr hremoved.keys).mpr hdead
    simp [PeerManager.perform, PeerManager.fetchBlock, hmid, PeerManager.blockRequested,
      hgone] at hstep
  | _ =>
    cases hactor
    simp [PeerManager.perform, PeerManager.processVersion, PeerManager.processWtxidRelay,
      PeerManager.updatePeerStateForReceivedHeaders, PeerManager.headersDirectFetchBlocks,
      PeerManager.processCmpctBlock, PeerManager.sendBlockRequests, PeerManager.finalizeNode, hdead,
      hpeer] at hstep

theorem books_empty : Books {} where
  nodes := nodup_nil
  entries :=
    fun _ => ⟨fun hmem => absurd hmem not_mem_nil, fun ⟨_, hmem, _⟩ => absurd hmem not_mem_nil⟩
  queues := fun _ => nodup_nil
  iterators := nodup_nil
  fresh := nofun
  pairs := nodup_nil
  bounded := fun _ => Nat.zero_le _
  counts := ⟨rfl, rfl, rfl, fun _ _ _ hstate => (nomatch hstate), rfl, rfl⟩

theorem Reaches.books (h : Reaches s) : Books s := by
  induction h with
  | start => exact books_empty
  | @step s t hbefore action hstep ih =>
    by_cases hlive : ∀ nodeid, action.actor = some nodeid → s.state nodeid ≠ none
    · obtain ⟨_, hstep', hbooks⟩ := ih.perform hlive
      exact Option.some.inj (hstep'.symm.trans hstep) ▸ hbooks
    obtain ⟨nodeid, hnodeid⟩ := not_forall.mp hlive
    obtain ⟨hactor, hdead⟩ := Classical.not_imp.mp hnodeid
    exact ih.perform_dead hactor (not_not.mp hdead) hstep

/-- The elements of all queues, as entries. -/
def queuedEntries (s : PeerManager) : List InFlight :=
  s.m_node_states.flatMap fun node => node.2.vBlocksInFlight.map fun queued => queued.entry node.1

/-- The bookkeeping is exact. -/
structure Exact (s : PeerManager) : Prop where
  /-- The entries of the multimap are the elements of the queues. -/
  correspondence : s.mapBlocksInFlight.Perm s.queuedEntries
  /-- No two of them are at one address. -/
  iterators : (s.mapBlocksInFlight.map InFlight.list_it).Nodup
  pairs : (s.mapBlocksInFlight.map fun entry => (entry.hash, entry.node_id)).Nodup
  bounded : ∀ hash, (s.inFlight hash).length ≤ MAX_CMPCTBLOCKS_INFLIGHT_PER_BLOCK
  live : ∀ entry ∈ s.mapBlocksInFlight, s.state entry.node_id ≠ none
  downloading : s.m_peers_downloading_from = countValues CNodeState.downloading s.m_node_states
  empty : s.m_node_states = [] → NothingLeft s

theorem Books.mem_queuedEntries (h : Books s) : entry ∈ s.queuedEntries ↔
    entry ∈ s.mapBlocksInFlight := by
  unfold queuedEntries
  rw [mem_flatMap, h.entries]
  constructor
  · rintro ⟨⟨nodeid, state⟩, hnode, hentry⟩
    obtain ⟨queued, hqueued, rfl⟩ := mem_map.mp hentry
    have hstate := (lookup_iff_mem h.nodes).mpr hnode
    refine ⟨queued, ?_, rfl⟩
    show queued ∈ s.queue nodeid
    rw [queue_of_state hstate]
    exact hqueued
  · rintro ⟨queued, hqueued, hsame⟩
    obtain ⟨state, hstate, hmem⟩ := state_of_mem_queue hqueued
    exact ⟨(entry.node_id, state), mem_of_lookup hstate, mem_map.mpr ⟨queued, hmem, hsame⟩⟩

theorem Books.nodup_queuedEntries (h : Books s) : s.queuedEntries.Nodup := by
  unfold queuedEntries
  rw [nodup_flatMap]
  constructor
  · rintro ⟨nodeid, _⟩ hnode
    have hstate := (lookup_iff_mem h.nodes).mpr hnode
    apply Nodup.of_map InFlight.list_it
    rw [map_map]
    exact queue_of_state hstate ▸ h.queues nodeid
  · have hkeys := pairwise_map.mp h.nodes
    refine hkeys.imp fun hne entry hfirst hsecond => hne ?_
    obtain ⟨_, _, rfl⟩ := mem_map.mp hfirst
    obtain ⟨_, _, heq⟩ := mem_map.mp hsecond
    exact (congrArg InFlight.node_id heq).symm

theorem Books.exact (h : Books s) : Exact s where
  correspondence := (perm_ext_iff_of_nodup (.of_map _ h.iterators) h.nodup_queuedEntries).mpr
    fun _ => h.mem_queuedEntries.symm
  iterators := h.iterators
  pairs := h.pairs
  bounded := h.bounded
  live := fun entry hentry => h.live_of_inFlight ⟨entry, hentry, rfl⟩
  downloading := h.counts.downloading
  empty := h.nothingLeft

/-- In every state of every run the bookkeeping is exact, and each handler of a connected peer gets
through. `FinalizeNode`, in particular, gets through with all of its assertions, and takes the peer
and its requests out. -/
theorem block_requests_exact (s : PeerManager) (h : Reaches s) :
    Exact s ∧ (∀ action : Action, (∀ nodeid, action.actor = some nodeid → s.state nodeid ≠ none) →
      ∃ t, s.perform action = some t ∧ Exact t) ∧
    ∀ nodeid, s.state nodeid ≠ none →
      ∃ t, s.finalizeNode nodeid = some t ∧ Exact t ∧ Finalized s nodeid t := by
  refine ⟨h.books.exact, fun action hlive => ?_, fun nodeid hlive => ?_⟩
  · obtain ⟨t, hstep, hbooks⟩ := h.books.perform hlive
    exact ⟨t, hstep, hbooks.exact⟩
  · obtain ⟨t, hstep, hbooks, hfinalized⟩ := h.books.finalizeNode hlive
    exact ⟨t, hstep, hbooks.exact, hfinalized⟩

/-- Two peers are asked for a block each. The first one leaves with its request, and with the
second one nothing is left. -/
theorem block_requests_exact_fetch : ∃ s t u, Exact s ∧
    s.mapBlocksInFlight = [⟨5, 0, 0⟩, ⟨6, 1, 1⟩] ∧
    s.finalizeNode 0 = some t ∧ Exact t ∧ t.mapBlocksInFlight = [⟨6, 1, 1⟩] ∧
    t.finalizeNode 1 = some u ∧ NothingLeft u := by
  have hreaches : Reaches _ :=
    .step (.step (.step (.step .start (.initializeNode 0 false) rfl) (.initializeNode 1 true) rfl)
      (.fetchBlock 0 [5] 7) rfl) (.fetchBlock 1 [6] 8) rfl
  obtain ⟨hexact, -, hfinalize⟩ := block_requests_exact _ hreaches
  obtain ⟨t, hfirst, hexactFirst, -⟩ := hfinalize 0 (by decide)
  have hrest : Reaches t := hreaches.step (.finalizeNode 0) hfirst
  obtain rfl := Option.some.inj hfirst
  obtain ⟨u, hsecond, -, hfinalized⟩ := (block_requests_exact _ hrest).2.2 1 (by decide)
  refine ⟨_, _, u, hexact, rfl, hfirst, hexactFirst, rfl, hsecond, (hfinalized.last ?_).2⟩
  intro other hlive
  by_contra hne
  refine hlive (lookup_eq_none_iff_keys.mpr ?_)
  exact fun hmem => hne (mem_singleton.mp hmem)

end PeerManager

end BtcSharp
