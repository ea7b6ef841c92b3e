/-
# Consistency of the mempool over whole runs

The calls on a mempool as one step relation, with what the callers promise for each, and
what holds in every state that is reached from the empty mempool: as long as no fee sum
was clamped and every size passed on fitted an `int32_t`, no assertion has failed, and
between reorganisations the sets, maps and totals are those of the entries.
-/

import BtcSharp.Mempool.Reorg

namespace BtcSharp

open List Math Relation

namespace CTxMemPool

/-- A mempool with the transactions that came back from blocks since
`UpdateTransactionsFromBlock` was called. -/
structure RunState where
  pool : CTxMemPool := {}
  readded : List Uint256 := []

/-- The calls that change a mempool. -/
inductive Call
  | apply (m_to_remove : List Uint256) (additions : List Addition) (cached : Bool)
  | readd (m_to_remove : List Uint256) (addition : Addition) (cached : Bool)
  | updateTransactionsFromBlock
  | removeForBlock (vtx : List CTransaction)
  | removeRecursive (tx : CTransaction)
  | expire (time : Int)
  | trimToSize (usage : CTxMemPool → Nat) (before : CTxMemPoolEntry → CTxMemPoolEntry → Bool)
      (sizelimit : Nat)
  | prioritiseTransaction (hash : Uint256) (nFeeDelta : Int)

variable (env : MempoolEnv)

/-- What the callers promise. New transactions do not arrive between the return of
transactions from blocks and the call that links them. -/
def Call.Legal (state : RunState) : Call → Prop
  | apply m_to_remove additions cached =>
    state.readded = [] ∧ Applicable env state.pool m_to_remove additions cached
  | readd m_to_remove addition cached =>
    Returnable env state.readded state.pool m_to_remove addition cached
  | removeForBlock vtx => TopologicallyOrdered env state.pool vtx
  | _ => True

/-- What a call does. -/
def Call.run (state : RunState) : Call → RunState
  | apply m_to_remove additions cached =>
    { state with pool := CTxMemPool.apply env state.pool m_to_remove additions cached }
  | readd m_to_remove addition cached =>
    { pool := CTxMemPool.apply env state.pool m_to_remove [addition] cached
      readded := state.readded ++ [env.txid addition.tx] }
  | updateTransactionsFromBlock =>
    { pool := CTxMemPool.updateTransactionsFromBlock env state.pool state.readded }
  | removeForBlock vtx => { state with pool := CTxMemPool.removeForBlock env state.pool vtx }
  | removeRecursive tx => { state with pool := CTxMemPool.removeRecursive env state.pool tx }
  | expire time => { state with pool := CTxMemPool.expire env state.pool time }
  | trimToSize usage before sizelimit =>
    { state with
      pool := CTxMemPool.trimToSize env usage before sizelimit state.pool.txids.length state.pool }
  | prioritiseTransaction hash nFeeDelta =>
    { state with pool := CTxMemPool.prioritiseTransaction env state.pool hash nFeeDelta }

/-- The states that calls lead to from the empty mempool. -/
inductive Reaches : RunState → Prop
  | empty : Reaches {}
  | step {state : RunState} (call : Call) : Reaches state → call.Legal env state →
      Reaches (call.run env state)

/-- The sets, maps and totals are those of the entries. Ancestors and descendants are what
paths of the spend relation lead from and to. -/
structure Consistent (pool : CTxMemPool) : Prop where
  parents : ∀ child ∈ pool.txids, ∀ parent,
    parent ∈ (pool.entry child).m_parents ↔ pool.Spends parent child
  children : ∀ parent ∈ pool.txids, ∀ child,
    child ∈ (pool.entry parent).m_children ↔ pool.Spends parent child
  nextTx : ∀ prevout it, (prevout, it) ∈ pool.mapNextTx ↔
    it ∈ pool.txids ∧ ∃ txin ∈ (pool.entry it).tx.vin, txin.prevout = prevout
  nextTx_unique : (pool.mapNextTx.map Prod.fst).Nodup
  withAncestors : ∀ it ∈ pool.txids, ∀ q, (pool.entry it).withAncestors.get q =
    relTotal pool.nodes (TransGen pool.Spends) (pool.weight env q) it
  withDescendants : ∀ it ∈ pool.txids, ∀ q, q ≠ .sigOps → (pool.entry it).withDescendants.get q =
    relTotal pool.nodes (flip (TransGen pool.Spends)) (pool.weight env q) it
  totalTxSize : pool.totalTxSize = ∑ it ∈ pool.nodes, ((pool.entry it).getTxSize env : Int)
  totalFee : pool.m_total_fee = ∑ it ∈ pool.nodes, (pool.entry it).nFee

variable {env}

theorem inOrder_empty : InOrder env [] {} := by
  have hnone : ∀ it, it ∉ ({} : CTxMemPool).txids := fun _ => not_mem_nil
  have hlinked : ∀ parent child, ¬ ({} : CTxMemPool).Linked parent child := fun _ _ h => hnone _ h.1
  refine ⟨⟨⟨nodup_nil, ?_, ?_, ?_, ?_, ?_⟩, ⟨?_, ?_, nodup_nil, rfl, rfl⟩, ⟨?_, ?_, ?_⟩,
    fun _ => ⟨rfl, ?_⟩⟩, ?_, ?_, nodup_nil, .nil⟩
  · exact fun child hchild => absurd hchild (hnone child)
  · exact fun child hchild => absurd hchild (hnone child)
  · exact fun parent hparent => absurd hparent (hnone parent)
  · exact fun parent hparent => absurd hparent (hnone parent)
  · intro it hpath
    obtain ⟨next, hstep, -⟩ := TransGen.head'_iff.mp hpath
    exact hlinked it next hstep
  · exact fun it hit => absurd hit (hnone it)
  · exact fun prevout it => ⟨fun hpair => absurd hpair not_mem_nil, fun hboth =>
      absurd hboth.1 (hnone it)⟩
  · exact fun it hit => absurd hit (hnone it)
  · exact fun it hit => absurd hit (hnone it)
  · exact fun it hit => absurd hit (hnone it)
  · exact fun it hit => absurd hit (hnone it)
  · exact fun parent child => ⟨fun h => absurd h (hlinked parent child), fun hboth =>
      absurd hboth.1.1 (hnone parent)⟩
  · exact fun _ _ _ hchild => absurd hchild not_mem_nil

/-- A call keeps the mempool in order. -/
theorem Call.run_inOrder {state : RunState} {call : Call} (h : InOrder env state.readded state.pool)
    (hlegal : call.Legal env state) :
    InOrder env (call.run env state).readded (call.run env state).pool := by
  cases call with
  | apply m_to_remove additions cached =>
    obtain ⟨hnone, happlicable⟩ := hlegal
    show InOrder env state.readded _
    rw [hnone] at h ⊢
    exact h.apply happlicable
  | readd m_to_remove addition cached => exact h.applyReadded hlegal
  | updateTransactionsFromBlock => exact h.updateTransactionsFromBlock
  | removeForBlock vtx => exact (h.removeForBlock hlegal).1
  | removeRecursive tx => exact (h.removeRecursive tx).1
  | expire time => exact (h.expire time).1
  | trimToSize usage before sizelimit => exact h.trimToSize.1
  | prioritiseTransaction hash nFeeDelta => exact h.prioritiseTransaction hash nFeeDelta

theorem Reaches.inOrder {state : RunState} (h : Reaches env state) :
    InOrder env state.readded state.pool := by
  induction h with
  | empty => exact inOrder_empty
  | step call _ hlegal ih => exact call.run_inOrder ih hlegal

theorem InOrder.consistent {pool : CTxMemPool} (h : InOrder env [] pool)
    (hunsaturated : pool.Unsaturated) : Consistent env pool := by
  have hlinked := h.linked_eq
  have hexact := h.kept.exact
  rw [hlinked] at hexact
  have hbooks := h.kept.books
  refine ⟨?_, ?_, hbooks.nextTx, hbooks.nextTx_nodup, ?_, ?_, hbooks.totalTxSize, hbooks.totalFee⟩
  · intro child hchild parent
    rw [← hlinked]
    exact (and_iff_right hchild).symm
  · intro parent hparent child
    rw [← hlinked]
    exact h.kept.links.children_iff parent hparent child
  · exact fun it hit q => hexact.ancestors it hit q fun _ => hunsaturated
  · exact fun it hit q hq => hexact.descendants it hit q hq fun _ => hunsaturated

/-- An environment in which the lock time is the transaction id. -/
def sampleEnv : MempoolEnv where
  txid tx := BitVec.ofNat 256 tx.nLockTime.toNat
  nBytesPerSigOp := 20
  limits := {}

/-- A transaction with one input and a given id. -/
def sampleAddition (prevout : Uint256) (id : UInt32) : Addition :=
  ⟨⟨[⟨⟨prevout, 0⟩, [], 0, []⟩], [⟨50, []⟩], 2, id⟩, 10, 0, 4⟩

/-- A child is added, its parent comes back from a block, and they are linked. -/
def sampleChild : RunState := Call.run sampleEnv {} (.apply [] [sampleAddition 1 2] false)
def sampleReadded : RunState := Call.run sampleEnv sampleChild (.readd [] (sampleAddition 7 1) true)
def sampleUpdated : RunState := Call.run sampleEnv sampleReadded .updateTransactionsFromBlock

theorem removable_nil (pool : CTxMemPool) : pool.Removable [] false :=
  ⟨nodup_nil, nofun, nofun⟩

theorem sampleUpdated_reaches : Reaches sampleEnv sampleUpdated := by
  have hchild : Reaches sampleEnv sampleChild := by
    apply Reaches.step _ .empty
    refine ⟨rfl, removable_nil _, ⟨fun _ _ => not_mem_nil, nodup_singleton _,
      fun _ _ _ _ => not_mem_nil, pairwise_singleton _ _, ?_, pairwise_singleton _ _,
      fun _ _ _ hit => absurd hit not_mem_nil⟩, fun hcached => absurd hcached (by decide)⟩
    intro tx htx
    rw [mem_singleton.mp htx]
    decide
  have hreadded : Reaches sampleEnv sampleReadded := by
    apply Reaches.step _ hchild
    refine ⟨removable_nil _, ⟨⟨?_, ?_, ?_⟩, not_mem_nil, ?_, ?_⟩, ?_⟩
    · decide
    · decide
    · decide
    · intro parent hparent
      rw [mem_singleton.mp hparent]
      decide
    · exact fun _ _ hreadded => absurd hreadded not_mem_nil
    · exact fun _ _ hit => absurd hit not_mem_nil
  exact .step _ hreadded trivial

theorem sampleUpdated_unsaturated : sampleUpdated.pool.Unsaturated := by
  refine ⟨by decide, ?_⟩
  intro it hit
  rcases mem_pair.mp hit with rfl | rfl <;> exact ⟨by decide, by decide, by decide⟩

/-- Each signature operation counts as 1,250,000,000 bytes. -/
def wideEnv : MempoolEnv := { sampleEnv with nBytesPerSigOp := 1250000000 }

/-- A transaction, its child and its grandchild are added. -/
def wideChain : RunState := Call.run wideEnv {}
  (.apply [] [sampleAddition 7 1, sampleAddition 1 2, sampleAddition 2 3] false)

end CTxMemPool

end BtcSharp
