/-
# An index that follows the active chain

`BaseIndex` of `index/base.cpp`: the thread that runs `Sync` with its own cursor, the active
chain that changes under it, and the notifications that wait in the queue of the validation
interface. What runs under `cs_main` is one step, and so is a notification that is delivered:
it does nothing until `m_synced` is set, which is the last thing that `Sync` does.

The calls of the derived index are recorded together with the commits. A commit that fails is
passed over, and any other failure shuts the node down with what was done up to it. Notifications
of a chainstate that is assumed valid are ignored by the source and left out.
-/

import BtcSharp.Validation.Block

namespace BtcSharp

/-! ## The active chain, by its tip -/

namespace CChain

def contains (tip pindex : CBlockIndex) : Bool := tip.getAncestor pindex.nHeight == pindex

def next (tip pindex : CBlockIndex) : CBlockIndex :=
  if contains tip pindex then tip.getAncestor (pindex.nHeight + 1) else []

/-- The loop of `FindFork`. -/
def walkToFork (tip : CBlockIndex) : CBlockIndex → CBlockIndex
  | [] => []
  | hash :: pprev => if contains tip (hash :: pprev) then hash :: pprev else walkToFork tip pprev

def findFork (tip pindex : CBlockIndex) : CBlockIndex :=
  walkToFork tip (if tip.length < pindex.length then
    if tip = [] then [] else pindex.getAncestor tip.nHeight
  else pindex)

end CChain

def nextSyncBlock (pindex_prev tip : CBlockIndex) : CBlockIndex :=
  if pindex_prev = [] then tip.getAncestor 0
  else
    let pindex := CChain.next tip pindex_prev
    if pindex ≠ [] then pindex else CChain.next tip (CChain.findFork tip pindex_prev)

/-! ## The index -/

/-- What the queue of the validation interface holds for the index. -/
inductive Notification
  | blockConnected (pindex : CBlockIndex)
  | chainStateFlushed (locator_tip : CBlockIndex)
  deriving DecidableEq, Repr

/-- What the derived index and its database are told. -/
inductive IndexCall
  | append (pindex : CBlockIndex)
  | rewind (current_tip new_tip : CBlockIndex)
  | commit (best_block : CBlockIndex)
  deriving DecidableEq, Repr

/-- What `Sync` does next. -/
inductive SyncPoint
  /-- At the head of the loop. -/
  | head
  /-- There was no next block. -/
  | atTip
  /-- The cursor was committed as the tip. -/
  | committed
  /-- A next block was found. -/
  | found (pindex_next : CBlockIndex)
  /-- The index was rewound to the parent of the next block. -/
  | rewound (pindex_next : CBlockIndex)
  /-- A block was appended. -/
  | appended
  /-- The index is in sync. -/
  | finished
  /-- The thread was interrupted. -/
  | interrupted
  deriving DecidableEq, Repr

/-- `BaseIndex`, with the active chain and the notifications that are not delivered yet. -/
structure BaseIndex where
  tip : CBlockIndex
  queue : List Notification := []
  m_synced : Bool
  m_best_block_index : CBlockIndex
  /-- The cursor of `Sync`. -/
  pindex : CBlockIndex
  point : SyncPoint
  calls : List IndexCall := []
  assertFailed : Bool := false
  /-- Whether `FatalErrorf` was called. -/
  fatalError : Bool := false

namespace BaseIndex

/-- `Init`, when the locator of the database leads to a block or is null. -/
def init (tip start_block : CBlockIndex) : BaseIndex where
  tip := tip
  m_synced := start_block == tip
  m_best_block_index := start_block
  pindex := start_block
  point := if start_block = tip then .finished else .head

def setBestBlockIndex (s : BaseIndex) (block : CBlockIndex) : BaseIndex :=
  { s with m_best_block_index := block }

def commit (s : BaseIndex) : BaseIndex :=
  if s.m_best_block_index = [] then s
  else { s with calls := s.calls ++ [.commit s.m_best_block_index] }

def customAppend (s : BaseIndex) (pindex : CBlockIndex) : BaseIndex :=
  { s with calls := s.calls ++ [.append pindex] }

/-- `Rewind`. To follow a null pointer is to fail as well. -/
def rewind (s : BaseIndex) (current_tip new_tip : CBlockIndex) : BaseIndex :=
  if current_tip = s.m_best_block_index ∧ new_tip ≠ [] ∧
      current_tip.getAncestor new_tip.nHeight = new_tip then
    (setBestBlockIndex { s with calls := s.calls ++ [.rewind current_tip new_tip] } new_tip).commit
  else { s with assertFailed := true }

def blockConnected (s : BaseIndex) (pindex : CBlockIndex) : BaseIndex :=
  if !s.m_synced then s
  else if s.m_best_block_index = [] then
    if pindex.nHeight ≠ 0 then s else (s.customAppend pindex).setBestBlockIndex pindex
  else if (if pindex.nHeight = 0 then [] else s.m_best_block_index.getAncestor
      (pindex.nHeight - 1)) ≠ pindex.pprev then s
  else
    let s := if s.m_best_block_index ≠ pindex.pprev then s.rewind s.m_best_block_index pindex.pprev
      else s
    if s.assertFailed then s else (s.customAppend pindex).setBestBlockIndex pindex

def chainStateFlushed (s : BaseIndex) (locator_tip_index : CBlockIndex) : BaseIndex :=
  if !s.m_synced then s
  else if s.m_best_block_index = [] then { s with assertFailed := true }
  else if s.m_best_block_index.getAncestor locator_tip_index.nHeight ≠ locator_tip_index then s
  else s.commit

def deliver (s : BaseIndex) : Notification → BaseIndex
  | .blockConnected pindex => s.blockConnected pindex
  | .chainStateFlushed locator_tip => s.chainStateFlushed locator_tip

/-- What `Sync` does with the next block that it has found under `cs_main`. -/
def afterSearch (s atEnd : BaseIndex) : BaseIndex :=
  let pindex_next := nextSyncBlock s.pindex s.tip
  if pindex_next = [] then atEnd else { s with point := .found pindex_next }

/-- A step of `Sync`, where the thread may be interrupted at the head of the loop and the time
for a commit may have come after a block. -/
def sync (s : BaseIndex) (m_interrupt write_locator : Bool) : BaseIndex :=
  match s.point with
  | .head =>
    if m_interrupt then { (s.setBestBlockIndex s.pindex).commit with point := .interrupted }
    else s.afterSearch { s with point := .atTip }
  | .atTip => { (s.setBestBlockIndex s.pindex).commit with point := .committed }
  | .committed => s.afterSearch { s with m_synced := true, point := .finished }
  | .found pindex_next =>
    if pindex_next.pprev ≠ s.pindex then
      { s.rewind s.pindex pindex_next.pprev with point := .rewound pindex_next }
    else { s.customAppend pindex_next with pindex := pindex_next, point := .appended }
  | .rewound pindex_next =>
    { s.customAppend pindex_next with pindex := pindex_next, point := .appended }
  | .appended =>
    let s := if write_locator then (s.setBestBlockIndex s.pindex).commit else s
    { s with point := .head }
  | .finished => s
  | .interrupted => s

/-- The node goes on. -/
def running (s : BaseIndex) : Bool := !s.assertFailed && !s.fatalError

/-- The steps of the node and of the index in which nothing fails but an assertion. -/
inductive Works : BaseIndex → BaseIndex → Prop
  | connect {s : BaseIndex} (hash : Uint256) (halive : s.running = true) :
      Works s { s with
        tip := hash :: s.tip
        queue := s.queue ++ [.blockConnected (hash :: s.tip)] }
  | disconnect {s : BaseIndex} (halive : s.running = true) (hgenesis : s.tip.pprev ≠ []) :
      Works s { s with tip := s.tip.pprev }
  | flush {s : BaseIndex} (halive : s.running = true) (htip : s.tip ≠ []) :
      Works s { s with queue := s.queue ++ [.chainStateFlushed s.tip] }
  | deliver {s : BaseIndex} {notification : Notification} {rest : List Notification}
      (halive : s.running = true) (hqueue : s.queue = notification :: rest) :
      Works s (BaseIndex.deliver { s with queue := rest } notification)
  | sync {s : BaseIndex} (halive : s.running = true) (m_interrupt write_locator : Bool) :
      Works s (s.sync m_interrupt write_locator)

/-- The steps of the node and of the index, until an assertion fails or the node is shut down. -/
inductive Step : BaseIndex → BaseIndex → Prop
  | works {s t : BaseIndex} (h : Works s t) : Step s t
  /-- `Commit` fails where that is passed over. -/
  | missed {s t : BaseIndex} {best_block : CBlockIndex} (h : Works s t)
      (hcommit : t.calls = s.calls ++ [.commit best_block]) : Step s { t with calls := s.calls }
  /-- A block cannot be read, or the index cannot go on or back, after some of the calls. -/
  | fatal {s t : BaseIndex} {calls : List IndexCall} (h : Works s t)
      (halive : t.assertFailed = false) (hafter : s.calls <+: calls)
      (hbefore : calls <+: t.calls) :
      Step s { s with calls := calls, fatalError := true }

end BaseIndex

end BtcSharp
