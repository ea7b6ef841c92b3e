/-
# The books on blocks in flight are exact

The entries of the multimap and the elements of the queues are the same requests. The functions
change both with two operations, one that takes out a request and one that puts one in, and each
of them keeps the books; everything else is made of these.
-/

import BtcSharp.Net.BlockRequests

namespace BtcSharp

open List Math

/-- The entry for an element of the queue of a peer. -/
def QueuedBlock.entry (queued : QueuedBlock) (nodeid : NodeId) : InFlight :=
  ⟨queued.pindex.getBlockHash, nodeid, queued.it⟩

/-- Whether blocks are downloaded from the peer. -/
def CNodeState.downloading (state : CNodeState) : Bool := !state.vBlocksInFlight.isEmpty

namespace PeerManager

/-- The queue of a peer, which is empty if the peer is not connected. -/
def queue (s : PeerManager) (nodeid : NodeId) : List QueuedBlock :=
  ((s.state nodeid).map CNodeState.vBlocksInFlight).getD []

/-- Each peer is counted for what its state says. -/
structure Counts (s : PeerManager) : Prop where
  peers : s.m_peer_map.map Prod.fst = s.m_node_states.map Prod.fst
  downloading : s.m_peers_downloading_from = countValues CNodeState.downloading s.m_node_states
  preferred : s.m_num_preferred_download_peers =
    countValues CNodeState.fPreferredDownload s.m_node_states
  unversioned : ∀ nodeid state peer, s.state nodeid = some state →
    s.m_peer_map.lookup nodeid = some peer → peer.nVersion = 0 → state.fPreferredDownload = false
  protectedPeers : s.m_outbound_peers_with_protect_from_disconnect =
    countValues CNodeState.m_protect s.m_node_states
  wtxidRelay : s.m_wtxid_relay_peers = countValues Peer.m_wtxid_relay s.m_peer_map

/-- The books. -/
structure Books (s : PeerManager) : Prop where
  nodes : (s.m_node_states.map Prod.fst).Nodup
  entries : ∀ entry, entry ∈ s.mapBlocksInFlight ↔
    ∃ queued ∈ s.queue entry.node_id, queued.entry entry.node_id = entry
  queues : ∀ nodeid, ((s.queue nodeid).map QueuedBlock.it).Nodup
  iterators : (s.mapBlocksInFlight.map InFlight.list_it).Nodup
  fresh : ∀ entry ∈ s.mapBlocksInFlight, entry.list_it < s.nextIt
  pairs : (s.mapBlocksInFlight.map fun entry => (entry.hash, entry.node_id)).Nodup
  bounded : ∀ hash, (s.inFlight hash).length ≤ MAX_CMPCTBLOCKS_INFLIGHT_PER_BLOCK
  counts : Counts s

variable {s t : PeerManager} {nodeid : NodeId} {entry : InFlight} {state : CNodeState}
  {block : CBlockIndex}

theorem queue_of_state (h : s.state nodeid = some state) :
    s.queue nodeid = state.vBlocksInFlight := by
  unfold queue
  rw [h]
  rfl

theorem state_of_mem_queue {queued : QueuedBlock} (h : queued ∈ s.queue nodeid) :
    ∃ state, s.state nodeid = some state ∧ queued ∈ state.vBlocksInFlight := by
  cases hstate : s.state nodeid with
  | none =>
    unfold queue at h
    rw [hstate] at h
    cases h
  | some state => exact ⟨state, rfl, queue_of_state hstate ▸ h⟩

/-- The iterator of a request points at an element of the queue. -/
theorem Books.queuedAt (h : Books s) (hentry : entry ∈ s.mapBlocksInFlight) :
    ∃ queued, s.queuedAt entry.node_id entry.list_it = some queued := by
  obtain ⟨queued, hqueued, hsame⟩ := (h.entries entry).mp hentry
  obtain ⟨_, hstate, hmem⟩ := state_of_mem_queue hqueued
  have hit : queued.it = entry.list_it := congrArg InFlight.list_it hsame
  unfold PeerManager.queuedAt
  rw [hstate]
  exact Option.isSome_iff_exists.mp (find?_isSome.mpr ⟨queued, hmem, beq_iff_eq.mpr hit⟩)

/-! ## One peer is changed -/

/-- The tables after the state of a peer was changed. -/
def change (s : PeerManager) (nodeid : NodeId) (change : CNodeState → CNodeState)
    (map : List InFlight) (downloading : Int) (nextIt : Nat) : PeerManager :=
  { s with
    m_node_states := modifyKey s.m_node_states nodeid change
    mapBlocksInFlight := map
    m_peers_downloading_from := downloading
    nextIt := nextIt }

section Change

variable {f : CNodeState → CNodeState} {map : List InFlight} {downloading : Int} {nextIt : Nat}

theorem state_change (other : NodeId) : (s.change nodeid f map downloading nextIt).state other =
    if other = nodeid then (s.state other).map f else s.state other :=
  lookup_modifyKey s.m_node_states nodeid other f

theorem queue_change_self (hstate : s.state nodeid = some state) :
    (s.change nodeid f map downloading nextIt).queue nodeid = (f state).vBlocksInFlight := by
  apply queue_of_state
  rw [state_change, if_pos rfl, hstate]
  rfl

theorem queue_change_ne {other : NodeId} (hne : other ≠ nodeid) :
    (s.change nodeid f map downloading nextIt).queue other = s.queue other := by
  unfold queue
  rw [state_change, if_neg hne]

theorem keys_change : (s.change nodeid f map downloading nextIt).m_node_states.map Prod.fst =
    s.m_node_states.map Prod.fst := keys_modifyKey s.m_node_states nodeid f

/-- Only the queue of the peer is changed, and the peer is counted if the queue is not empty. -/
theorem Counts.change (h : Counts s) (hnodes : (s.m_node_states.map Prod.fst).Nodup)
    (hstate : s.state nodeid = some state)
      (hpreferred : (f state).fPreferredDownload = state.fPreferredDownload)
    (hprotect : (f state).m_protect = state.m_protect)
    (hcount : downloading + state.downloading.toNat =
      s.m_peers_downloading_from + (f state).downloading.toNat) :
    Counts (s.change nodeid f map downloading nextIt) where
  peers := h.peers.trans keys_change.symm
  downloading := counter_modifyKey h.downloading hnodes hstate f hcount
  preferred := counter_modifyKey_of_eq h.preferred hnodes hstate f hpreferred
  unversioned := by
    intro other otherState peer hother hpeer hversion
    rw [state_change] at hother
    split at hother
    · next heq =>
      subst heq
      rw [hstate] at hother
      cases hother
      rw [hpreferred]
      exact h.unversioned other state peer hstate hpeer hversion
    · exact h.unversioned other otherState peer hother hpeer hversion
  protectedPeers := counter_modifyKey_of_eq h.protectedPeers hnodes hstate f hprotect
  wtxidRelay := h.wtxidRelay

end Change

/-! ## The two operations -/

theorem toNat_downloading (state : CNodeState) :
    state.downloading.toNat = if state.vBlocksInFlight = [] then 0 else 1 := by
  unfold CNodeState.downloading
  cases state.vBlocksInFlight <;> rfl

/-- Both tables lose a request. -/
theorem Books.eraseRequest (h : Books s) (hentry : entry ∈ s.mapBlocksInFlight) (now : Nat) :
    ∃ t, s.eraseRequest entry now = some t ∧ Books t ∧
      t.mapBlocksInFlight = s.mapBlocksInFlight.erase entry ∧
      t.m_node_states.map Prod.fst = s.m_node_states.map Prod.fst := by
  obtain ⟨queued, hqueued, hsame⟩ := (h.entries entry).mp hentry
  obtain ⟨state, hstate, hmem⟩ := state_of_mem_queue hqueued
  have hit : queued.it = entry.list_it := congrArg InFlight.list_it hsame
  obtain ⟨found, hfound⟩ := h.queuedAt hentry
  let rest := state.vBlocksInFlight.filter fun queued => queued.it ≠ entry.list_it
  let since :=
    if (state.vBlocksInFlight.head?.map QueuedBlock.it) = some entry.list_it then
      max state.m_downloading_since now
    else state.m_downloading_since
  let f : CNodeState → CNodeState := fun state => { state with
    vBlocksInFlight := rest
    m_downloading_since := since
    m_stalling_since := 0 }
  have hstep :
      s.eraseRequest entry now = some (s.change entry.node_id f (s.mapBlocksInFlight.erase entry)
      (s.m_peers_downloading_from - if rest = [] then 1 else 0) s.nextIt) := by
    unfold PeerManager.queuedAt at hfound
    unfold PeerManager.eraseRequest
    rw [hstate, Option.bind_eq_bind, Option.bind_some] at hfound ⊢
    rw [hfound]
    rfl
  have hsub : Sublist (s.mapBlocksInFlight.erase entry) s.mapBlocksInFlight := erase_sublist
  have hqueue := queue_of_state hstate
  refine ⟨_, hstep, ⟨(keys_change (s := s)).symm ▸ h.nodes, fun other => ?_, fun other => ?_, ?_,
    ?_, ?_, fun hash => ?_, ?_⟩, rfl, keys_change⟩
  · show other ∈ s.mapBlocksInFlight.erase entry ↔ _
    rw [(Nodup.of_map _ h.iterators).mem_erase_iff, h.entries]
    by_cases hnode : other.node_id = entry.node_id
    · rw [hnode, queue_change_self hstate, hqueue]
      constructor
      · rintro ⟨hne, found, hfound, heq⟩
        refine ⟨found, mem_filter.mpr ⟨hfound, decide_eq_true fun haddress => hne ?_⟩, heq⟩
        have hall := inj_on_of_nodup_map (h.queues _) (hqueue ▸ hfound) hqueued
          (haddress.trans hit.symm)
        rw [← heq, hall, hsame]
      rintro ⟨found, hfound, heq⟩
      obtain ⟨hold, haddress⟩ := mem_filter.mp hfound
      refine ⟨?_, found, hold, heq⟩
      rintro rfl
      exact of_decide_eq_true haddress (congrArg InFlight.list_it heq)
    · rw [queue_change_ne hnode]
      exact ⟨fun hall => hall.2, fun hall => ⟨fun heq => hnode (heq ▸ rfl), hall⟩⟩
  · by_cases hnode : other = entry.node_id
    · subst hnode
      rw [queue_change_self hstate]
      exact (hqueue ▸ h.queues _).sublist (filter_sublist.map _)
    · rw [queue_change_ne hnode]
      exact h.queues other
  · exact h.iterators.sublist (hsub.map _)
  · exact fun other hother => h.fresh other (hsub.subset hother)
  · exact h.pairs.sublist (hsub.map _)
  · exact ((hsub.filter _).length_le).trans (h.bounded hash)
  · apply h.counts.change h.nodes hstate rfl rfl
    rw [toNat_downloading, toNat_downloading, if_neg (ne_nil_of_mem hmem)]
    split <;> simp

theorem nodup_map_append {α β : Type} {f : α → β} {list : List α} {last : α}
    (h : (list.map f).Nodup)
    (hnew : ∀ a ∈ list, f a ≠ f last) : ((list ++ [last]).map f).Nodup := by
  rw [map_append, map_singleton, nodup_append_comm, singleton_append, nodup_cons]
  refine ⟨fun hmem => ?_, h⟩
  obtain ⟨a, ha, heq⟩ := mem_map.mp hmem
  exact hnew a ha heq

/-- A request is put in both tables, where the peer has no such request and the block has room. -/
theorem Books.addRequest (h : Books s) (hstate : s.state nodeid = some state)
    (hnew : ∀ entry ∈ s.inFlight block.getBlockHash, entry.node_id ≠ nodeid)
    (hroom : (s.inFlight block.getBlockHash).length < MAX_CMPCTBLOCKS_INFLIGHT_PER_BLOCK)
    (partialBlock : Bool) (now : Nat) :
      Books (s.addRequest nodeid state block partialBlock now) := by
  let added : QueuedBlock := ⟨s.nextIt, block, partialBlock⟩
  let queue := state.vBlocksInFlight ++ [added]
  let f : CNodeState → CNodeState := fun state => { state with
    vBlocksInFlight := queue
    m_downloading_since := if queue.length = 1 then now else state.m_downloading_since }
  have hstep : s.addRequest nodeid state block partialBlock now =
      s.change nodeid f (s.mapBlocksInFlight ++ [added.entry nodeid])
        (s.m_peers_downloading_from + if queue.length = 1 then 1 else 0) (s.nextIt + 1) := rfl
  have hqueue := queue_of_state hstate
  have hused : ∀ queued ∈ state.vBlocksInFlight, queued.it < s.nextIt := fun queued hmem =>
    h.fresh (queued.entry nodeid) ((h.entries _).mpr ⟨queued, hqueue ▸ hmem, rfl⟩)
  rw [hstep]
  refine ⟨(keys_change (s := s)).symm ▸ h.nodes, fun other => ?_, fun other => ?_, ?_,
    fun other hother => ?_, ?_, fun hash => ?_, ?_⟩
  · show other ∈ s.mapBlocksInFlight ++ [added.entry nodeid] ↔ _
    rw [mem_append, mem_singleton, h.entries]
    by_cases hnode : other.node_id = nodeid
    · rw [hnode, queue_change_self hstate, hqueue]
      constructor
      · rintro (⟨queued, hqueued, heq⟩ | heq)
        · exact ⟨queued, mem_append_left _ hqueued, heq⟩
        · exact ⟨added, mem_append_right _ (mem_singleton.mpr rfl), heq.symm⟩
      rintro ⟨queued, hqueued, heq⟩
      rcases mem_append.mp hqueued with hold | hlast
      · exact .inl ⟨queued, hold, heq⟩
      · exact .inr (mem_singleton.mp hlast ▸ heq.symm)
    · rw [queue_change_ne hnode]
      exact or_iff_left fun heq => hnode (heq ▸ rfl)
  · by_cases hnode : other = nodeid
    · subst hnode
      rw [queue_change_self hstate]
      exact nodup_map_append (hqueue ▸ h.queues other) fun queued
        hqueued => (hused queued hqueued).ne
    · rw [queue_change_ne hnode]
      exact h.queues other
  · exact nodup_map_append h.iterators fun other hother => (h.fresh other hother).ne
  · rcases mem_append.mp hother with hold | hlast
    · exact Nat.lt_succ_of_lt (h.fresh other hold)
    · rw [mem_singleton.mp hlast]
      exact Nat.lt_succ_self _
  · refine nodup_map_append h.pairs fun other hother heq => ?_
    obtain ⟨hhash, hnode⟩ := Prod.mk.inj heq
    exact hnew other (mem_filter.mpr ⟨hother, decide_eq_true hhash⟩) hnode
  · show ((s.mapBlocksInFlight ++ [added.entry nodeid]).filter _).length ≤ _
    rw [filter_append, length_append]
    by_cases hhash : block.getBlockHash = hash
    · subst hhash
      have hone :
        ([added.entry nodeid].filter fun entry => entry.hash = block.getBlockHash).length ≤ 1 :=
        length_filter_le _ _
      exact (Nat.add_le_add_left hone _).trans hroom
    have hnone : [added.entry nodeid].filter (fun entry => entry.hash = hash) = [] := by
      apply filter_eq_nil_iff.mpr
      intro entry hentry heq
      rw [mem_singleton.mp hentry] at heq
      exact hhash (of_decide_eq_true heq)
    rw [hnone]
    exact h.bounded hash
  · apply h.counts.change h.nodes hstate rfl rfl
    rw [toNat_downloading, toNat_downloading]
    show _ + (if (state.vBlocksInFlight ++ [added]).length = 1 then (1 : Int) else 0) + _ = _ +
      ((if state.vBlocksInFlight ++ [added] = [] then 0 else 1 : Nat) : Int)
    cases state.vBlocksInFlight <;> simp

/-- The peer of an entry is concerned. -/
def Concerns (from_peer : Option NodeId) (entry : InFlight) : Prop :=
  from_peer = none ∨ from_peer = some entry.node_id

/-- Some requests are gone, and the books are kept. -/
structure Removed (s t : PeerManager) (gone : InFlight → Prop) : Prop where
  books : Books t
  entries : ∀ entry, entry ∈ t.mapBlocksInFlight ↔ entry ∈ s.mapBlocksInFlight ∧ ¬ gone entry
  keys : t.m_node_states.map Prod.fst = s.m_node_states.map Prod.fst

theorem Books.eraseRequests (from_peer : Option NodeId) (now : Nat)
    {range : List InFlight} (h : Books s)
    (hrange : ∀ entry ∈ range, entry ∈ s.mapBlocksInFlight) (hnodup : range.Nodup) :
    ∃ t, eraseRequests from_peer now range s = some t ∧
      Removed s t fun entry => entry ∈ range ∧ Concerns from_peer entry := by
  induction range generalizing s with
  | nil => exact ⟨s, rfl, h, fun _ => by simp, rfl⟩
  | cons head range ih =>
    obtain ⟨hhead, hrest⟩ := nodup_cons.mp hnodup
    rw [PeerManager.eraseRequests]
    by_cases hskip : from_peer ≠ none ∧ from_peer ≠ some head.node_id
    · obtain ⟨t, hstep, hremoved⟩ :=
        ih h (fun entry hentry => hrange entry (mem_cons_of_mem _ hentry)) hrest
      rw [if_pos hskip]
      refine ⟨t, hstep, hremoved.books, fun entry => ?_, hremoved.keys⟩
      have hother : Concerns from_peer head → False := fun hall => hall.elim hskip.1 hskip.2
      rw [hremoved.entries, mem_cons]
      refine and_congr_right fun _ => not_congr (and_congr_left fun hall => (or_iff_right ?_).symm)
      exact fun heq => hother (heq ▸ hall)
    · obtain ⟨mid, hmid, hbooks, hmap, hkeys⟩ := h.eraseRequest (hrange head mem_cons_self) now
      have hmem : ∀ entry, entry ∈ mid.mapBlocksInFlight ↔ entry ≠ head ∧
          entry ∈ s.mapBlocksInFlight := by
        intro entry
        rw [hmap, (Nodup.of_map _ h.iterators).mem_erase_iff]
      obtain ⟨t, hstep, hremoved⟩ := ih hbooks
        (fun entry hentry => (hmem entry).mpr ⟨fun heq => hhead (heq ▸ hentry),
          hrange entry (mem_cons_of_mem _ hentry)⟩) hrest
      have hconcerns : Concerns from_peer head := by
        by_contra hnot
        exact hskip (not_or.mp hnot)
      rw [if_neg hskip, hmid]
      refine ⟨t, hstep, hremoved.books, fun entry => ?_, hremoved.keys.trans hkeys⟩
      rw [hremoved.entries, hmem, mem_cons]
      constructor
      · rintro ⟨⟨hne, hold⟩, hkept⟩
        exact ⟨hold, fun hgone => hkept ⟨hgone.1.resolve_left hne, hgone.2⟩⟩
      rintro ⟨hold, hkept⟩
      exact ⟨⟨fun heq => hkept ⟨.inl heq, heq ▸ hconcerns⟩, hold⟩,
        fun hgone => hkept ⟨.inr hgone.1, hgone.2⟩⟩

theorem mem_inFlight {hash : Uint256} : entry ∈ s.inFlight hash ↔ entry ∈ s.mapBlocksInFlight ∧
    entry.hash = hash :=
  mem_filter.trans (and_congr_right fun _ => decide_eq_true_iff)

/-- `RemoveBlockRequest` takes out the requests for a block, of one peer or of all. -/
theorem Books.removeBlockRequest (h : Books s) (hash : Uint256)
    (from_peer : Option NodeId) (now : Nat) :
    ∃ t, s.removeBlockRequest hash from_peer now = some t ∧
      Removed s t fun entry => entry.hash = hash ∧ Concerns from_peer entry := by
  unfold PeerManager.removeBlockRequest
  dsimp only
  split
  · next hnone =>
    refine ⟨s, rfl, h, fun entry => ⟨fun hmem => ⟨hmem, fun hgone => ?_⟩, fun hall => hall.1⟩, rfl⟩
    have hin := mem_inFlight.mpr ⟨hmem, hgone.1⟩
    rw [hnone] at hin
    cases hin
  obtain ⟨t, hstep, hremoved⟩ := h.eraseRequests from_peer now
    (fun entry hentry => (mem_inFlight.mp hentry).1) ((Nodup.of_map _ h.iterators).filter _)
  rw [if_pos (h.bounded hash)]
  refine ⟨t, hstep, hremoved.books, fun entry => ?_, hremoved.keys⟩
  rw [hremoved.entries, mem_inFlight]
  exact and_congr_right fun hmem => by rw [and_iff_right hmem]

/-- The state of a peer is known as long as the peers are the same. -/
theorem live_of_keys (hkeys : t.m_node_states.map Prod.fst = s.m_node_states.map Prod.fst)
    (hlive : s.state nodeid ≠ none) : t.state nodeid ≠ none :=
      mt (lookup_eq_none_congr hkeys).mp hlive

/-- A request of a peer for a block is in the tables, and at most one is new. -/
structure Requested (s t : PeerManager) (nodeid : NodeId) (hash : Uint256) (it : Nat) : Prop where
  books : Books t
  entries : ∀ entry, entry ∈ t.mapBlocksInFlight → entry ∈ s.mapBlocksInFlight ∨
    entry = ⟨hash, nodeid, it⟩
  there : ⟨hash, nodeid, it⟩ ∈ t.mapBlocksInFlight
  kept : ∀ entry, entry ∈ s.mapBlocksInFlight → entry ∈ t.mapBlocksInFlight
  keys : t.m_node_states.map Prod.fst = s.m_node_states.map Prod.fst

/-- `BlockRequested`, where the peer has asked for the block already or the block has room. -/
theorem Books.blockRequested (h : Books s) (hlive : s.state nodeid ≠ none)
    (hroom : (∃ entry ∈ s.inFlight block.getBlockHash, entry.node_id = nodeid) ∨
      (s.inFlight block.getBlockHash).length < MAX_CMPCTBLOCKS_INFLIGHT_PER_BLOCK) (pit :
      Bool) (now : Nat) :
    ∃ isNew it t, s.blockRequested nodeid block pit now = some (isNew, it, t) ∧
      Requested s t nodeid block.getBlockHash it := by
  obtain ⟨state, hstate⟩ := Option.ne_none_iff_exists'.mp hlive
  unfold PeerManager.blockRequested
  rw [hstate, if_pos (h.bounded _)]
  cases hfind : (s.inFlight block.getBlockHash).find? fun entry => entry.node_id = nodeid with
  | some found =>
    have hnode : found.node_id = nodeid := by
      have htest := find?_some hfind
      exact of_decide_eq_true htest
    obtain ⟨hmem, hhash⟩ := mem_inFlight.mp (mem_of_find?_eq_some hfind)
    have hsame : found = ⟨block.getBlockHash, nodeid, found.list_it⟩ := by
      rw [← hnode, ← hhash]
    exact ⟨false, found.list_it, s, rfl, h, fun _ => .inl, hsame ▸ hmem, fun _ => id, rfl⟩
  | none =>
    have hnew : ∀ entry ∈ s.inFlight block.getBlockHash, entry.node_id ≠ nodeid :=
      fun entry hentry heq =>
      find?_eq_none.mp hfind entry hentry (decide_eq_true heq)
    have hfree := hroom.resolve_left fun ⟨entry, hentry, heq⟩ => hnew entry hentry heq
    obtain ⟨mid, hmid, hremoved⟩ := h.removeBlockRequest block.getBlockHash (some nodeid) now
    obtain ⟨state', hstate'⟩ := Option.ne_none_iff_exists'.mp (live_of_keys hremoved.keys hlive)
    have hall : ∀ entry, entry ∈ mid.mapBlocksInFlight ↔ entry ∈ s.mapBlocksInFlight := by
      intro entry
      rw [hremoved.entries]
      refine and_iff_left_of_imp fun hmem hgone => ?_
      refine hnew entry (mem_inFlight.mpr ⟨hmem, hgone.1⟩) ?_
      exact (Option.some.inj (hgone.2.resolve_left nofun)).symm
    have hperm := (perm_ext_iff_of_nodup (.of_map _ hremoved.books.iterators)
        (.of_map _ h.iterators)).mpr hall
    have hbooks := hremoved.books.addRequest hstate'
      (fun entry hentry => hnew entry (mem_inFlight.mpr ⟨(hall entry).mp (mem_inFlight.mp hentry).1,
        (mem_inFlight.mp hentry).2⟩)) ((hperm.filter _).length_eq ▸ hfree) pit now
    refine ⟨true, mid.nextIt, mid.addRequest nodeid state' block pit now, ?_, hbooks,
      fun entry hentry => ?_, mem_append_right _ (mem_singleton.mpr rfl), fun entry hentry => ?_,
      (keys_change (s := mid)).trans hremoved.keys⟩
    · rw [hmid]
      show (do let state ← mid.state nodeid; _) = _
      rw [hstate']
      rfl
    · rcases mem_append.mp hentry with hold | hlast
      · exact .inl ((hall entry).mp hold)
      · exact .inr (mem_singleton.mp hlast)
    · exact mem_append_left _ ((hall entry).mpr hentry)

/-- A partial block is put into a queue. -/
theorem Books.setPartialBlock (h : Books s) (hstate : s.state nodeid = some state) (it : Nat) :
    Books (s.setPartialBlock nodeid it) := by
  let g : QueuedBlock → QueuedBlock := fun queued =>
    { queued with partialBlock := queued.partialBlock || queued.it == it }
  let f : CNodeState → CNodeState := fun state =>
    { state with vBlocksInFlight := state.vBlocksInFlight.map g }
  have hstep : s.setPartialBlock nodeid it =
      s.change nodeid f s.mapBlocksInFlight s.m_peers_downloading_from s.nextIt := rfl
  have hqueue := queue_of_state hstate
  rw [hstep]
  refine ⟨(keys_change (s := s)).symm ▸ h.nodes, fun other => ?_, fun other => ?_, h.iterators,
    h.fresh, h.pairs, h.bounded, ?_⟩
  · refine (h.entries other).trans ?_
    by_cases hnode : other.node_id = nodeid
    · rw [hnode, queue_change_self hstate, hqueue]
      constructor
      · rintro ⟨queued, hqueued, heq⟩
        exact ⟨g queued, mem_map_of_mem hqueued, heq⟩
      rintro ⟨_, hchanged, heq⟩
      obtain ⟨queued, hqueued, rfl⟩ := mem_map.mp hchanged
      exact ⟨queued, hqueued, heq⟩
    · rw [queue_change_ne hnode]
  · by_cases hnode : other = nodeid
    · subst hnode
      rw [queue_change_self hstate]
      rw [map_map]
      exact hqueue ▸ h.queues other
    · rw [queue_change_ne hnode]
      exact h.queues other
  · apply h.counts.change h.nodes hstate rfl rfl
    rw [toNat_downloading, toNat_downloading]
    show _ + _ = _ + ((if state.vBlocksInFlight.map g = [] then 0 else 1 : Nat) : Int)
    simp

end PeerManager

end BtcSharp
