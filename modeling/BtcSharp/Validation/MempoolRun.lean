/-
# Runs of the mempool without reorganisations

The mempool of a node that accepts transactions and packages, connects blocks and evicts
entries. Confirmed transactions are those of the chain; a block only adds to them. The coins
of the tip are unspent outputs of confirmed transactions, which is all that is asked of the
chain. From it follows what the mempool takes for granted when it links a new entry: no
transaction that is in the chain is accepted again, and so no entry spends from a transaction
that is accepted. The graph of the old entries loses what is replaced, and all that comes below
the rest are new transactions.
-/

import BtcSharp.Validation.Subpackage

namespace BtcSharp

open List Relation

/-- The mempool and the transactions in the blocks of the chain. -/
structure NodeState where
  pool : CTxMemPool := {}
  confirmed : List CTransaction := []

/-! ## Ancestors and descendants after a submission -/

open Math

namespace CTxMemPool

variable {env : MempoolEnv} {pool after : CTxMemPool} {removed : List Uint256}
  {txns : List CTransaction} {tx : CTransaction} {parent child : Uint256}

/-- Entries were removed and transactions added that no entry spends from. -/
structure Grafted (env : MempoolEnv) (pool : CTxMemPool) (removed : List Uint256)
    (txns : List CTransaction) (after : CTxMemPool) : Prop where
  mem : ∀ it, it ∈ after.txids ↔ (it ∈ pool.txids ∧ it ∉ removed) ∨ it ∈ txns.map env.txid
  old : ∀ it ∈ pool.txids, it ∉ removed → (after.entry it).static = (pool.entry it).static
  new : ∀ tx ∈ txns, (after.entry (env.txid tx)).tx = tx
  fresh : ∀ tx ∈ txns, env.txid tx ∉ pool.txids
  noLoop : ∀ tx ∈ txns, ¬ tx.SpendsFrom (env.txid tx)
  noSpender : ∀ tx ∈ txns, ∀ it ∈ pool.txids, ¬ (pool.entry it).tx.SpendsFrom (env.txid tx)

section

variable (h : Grafted env pool removed txns after)

include h

theorem Grafted.not_new {it : Uint256} (hit : it ∈ pool.txids) : it ∉ txns.map env.txid := by
  intro hnew
  obtain ⟨tx, htx, rfl⟩ := mem_map.mp hnew
  exact h.fresh tx htx hit

theorem Grafted.tx_old {it : Uint256} (hit : it ∈ pool.txids) (hafter : it ∈ after.txids) :
    (after.entry it).static = (pool.entry it).static := by
  cases (h.mem it).mp hafter with
  | inl hold => exact h.old it hold.1 hold.2
  | inr hnew => exact absurd hnew (h.not_new hit)

/-- What an old entry spends from is old. -/
theorem Grafted.spends_old (hspends : after.Spends parent child)
    (hchild : child ∉ txns.map env.txid) :
    pool.Spends parent child ∧ parent ∉ txns.map env.txid := by
  obtain ⟨hparent, hthere, hinput⟩ := hspends
  obtain ⟨hold, hkept⟩ := ((h.mem child).mp hthere).resolve_right hchild
  rw [CTxMemPoolEntry.tx_of_static (h.old child hold hkept)] at hinput
  have hnot : parent ∉ txns.map env.txid := by
    intro hnew
    obtain ⟨tx, htx, rfl⟩ := mem_map.mp hnew
    exact h.noSpender tx htx child hold hinput
  exact ⟨⟨(((h.mem parent).mp hparent).resolve_right hnot).1, hold, hinput⟩, hnot⟩

/-- What a new transaction spends from is an old entry that was not removed, or another new
transaction. -/
theorem Grafted.spends_new (htx : tx ∈ txns) (hspends : after.Spends parent (env.txid tx)) :
    tx.SpendsFrom parent ∧ (parent ∈ pool.txids ∨ ∃ other ∈ txns, other ≠ tx ∧
    env.txid other = parent) := by
  obtain ⟨hparent, -, hinput⟩ := hspends
  rw [h.new tx htx] at hinput
  refine ⟨hinput, ((h.mem parent).mp hparent).imp And.left fun hnew => ?_⟩
  obtain ⟨other, hother, rfl⟩ := mem_map.mp hnew
  refine ⟨other, hother, ?_, rfl⟩
  rintro rfl
  exact h.noLoop other hother hinput

/-- An old entry has no new ancestors. -/
theorem Grafted.ancestor_old (hpath : TransGen after.Spends parent child)
    (hchild : child ∈ pool.txids) : TransGen pool.Spends parent child :=
  (transGen_old (· ∈ txns.map env.txid) (fun _ _ => h.spends_old) hpath (h.not_new hchild)).1

/-- A new descendant of an old entry comes through a new transaction that the entry is an
ancestor of. -/
theorem Grafted.descendant (hparent : parent ∈ pool.txids)
    (hpath : TransGen after.Spends parent child) :
    (child ∈ pool.txids ∧ TransGen pool.Spends parent child) ∨
      ∃ tx ∈ txns, AncestorOf pool tx parent ∧ ReflTransGen after.Spends (env.txid tx) child := by
  rcases transGen_graft (· ∈ txns.map env.txid) (fun _ _ => h.spends_old)
    (h.not_new hparent) hpath with
    ⟨hold, -⟩ | ⟨a, b, hold, ha, hedge, hb, hnew⟩
  · obtain ⟨_, -, hlast⟩ := TransGen.tail'_iff.mp hold
    exact .inl ⟨hlast.2.1, hold⟩
  obtain ⟨tx, htx, rfl⟩ := mem_map.mp hb
  obtain ⟨hinput, hthere | ⟨_, hother, -, rfl⟩⟩ := h.spends_new htx hedge
  · exact .inr ⟨tx, htx, ⟨a, hthere, hinput, hold⟩, hnew⟩
  · exact absurd (mem_map_of_mem hother) ha

end

theorem Applied.grafted {additions : List Addition} (h : Applied env pool removed additions after)
    (hperm : txns.Perm (additions.map (·.tx))) (hfresh : ∀ tx ∈ txns, env.txid tx ∉ pool.txids)
    (hnoLoop : ∀ tx ∈ txns, ¬ tx.SpendsFrom (env.txid tx))
    (hnoSpender : ∀ tx ∈ txns, ∀ it ∈ pool.txids, ¬ (pool.entry it).tx.SpendsFrom (env.txid tx)) :
    Grafted env pool removed txns after := by
  refine ⟨fun it => ?_, h.old, fun tx htx => ?_, hfresh, hnoLoop, hnoSpender⟩
  · rw [h.mem, (hperm.map env.txid).mem_iff, List.map_map]
    rfl
  · obtain ⟨_, ha, rfl⟩ := mem_map.mp (hperm.mem_iff.mp htx)
    exact h.tx_new ha

/-- An entry with a child counts at least that child. -/
theorem InOrder.two_le_count (h : InOrder env [] pool) (hspends : pool.Spends parent child) :
    2 ≤ (pool.entry parent).withDescendants.count := by
  classical
  have hlinked : pool.Linked parent child := h.linked_eq ▸ hspends
  have hcount := h.kept.exact.descendants parent hspends.1 .count (by decide)
    (sound_of_ne (by decide))
  have hmem : child ∈ pool.nodes.filter fun a => flip (TransGen pool.Linked) a parent :=
    Finset.mem_filter.mpr ⟨mem_nodes.mpr hspends.2.1, .single hlinked⟩
  have hle := Finset.single_le_sum (fun a _ => @weight_nonneg env pool .count (by decide) a) hmem
  have hget :
    (pool.entry parent).withDescendants.count = (pool.entry parent).withDescendants.get .count :=
    rfl
  rw [hget, hcount]
  exact Int.add_le_add (Int.le_refl 1) hle

end CTxMemPool

namespace MempoolRun

open CTxMemPool MemPoolAccept

/-- The coins of the tip are outputs of confirmed transactions, without those that confirmed
transactions spend. -/
structure TipOf (env : MempoolEnv) (confirmed : List CTransaction)
    (coinsTip : COutPoint → Option Coin) : Prop where
  created : ∀ outpoint, (coinsTip outpoint).isSome = true → outpoint.hash ∈ confirmed.map env.txid
  spent : ∀ tx ∈ confirmed, tx.isCoinBase = false → ∀ txin ∈ tx.vin, coinsTip txin.prevout = none

/-- The transactions of a block spend from confirmed ones and from earlier ones of the block. -/
def Extends (env : MempoolEnv) (confirmed vtx : List CTransaction) : Prop :=
  ∀ before tx rest, vtx = before ++ tx :: rest → tx.isCoinBase = false → ∀ txin ∈ tx.vin,
    txin.prevout.hash ∈ (confirmed ++ before).map env.txid

/-- Confirmed transactions spend from confirmed transactions. -/
def ChainClosed (env : MempoolEnv) (confirmed : List CTransaction) : Prop :=
  ∀ tx ∈ confirmed, tx.isCoinBase = false → ∀ txin ∈ tx.vin,
    txin.prevout.hash ∈ confirmed.map env.txid

/-- No two of these transactions have one id and spend different outpoints. -/
def TxidCommits (env : MempoolEnv) (txs others : List CTransaction) : Prop :=
  ∀ tx ∈ txs, ∀ other ∈ others, env.txid tx = env.txid other →
    tx.vin.map (·.prevout) = other.vin.map (·.prevout)

/-- The transactions of the entries. -/
def entryTxs (pool : CTxMemPool) : List CTransaction := pool.txids.map fun it => (pool.entry it).tx

/-- A submission of one transaction or of several, an eviction, or a block. Ids do not collide
with those of the chain and of the entries. What is submitted may be restricted further. -/
inductive Step (env : MempoolEnv)
    (allowed : CTxMemPool → ATMPArgs → List CTransaction → Prop) : NodeState → NodeState → Prop
  | submit {state : NodeState} (accept : AcceptEnv) (args : ATMPArgs) (txns : List CTransaction)
      (submission : Submission) (hmempool : accept.mempool = env)
      (htip : TipOf env state.confirmed accept.coinsTip)
      (hcommits : TxidCommits env txns state.confirmed) (hallowed : allowed state.pool args txns)
      (hpasses : Passes accept state.pool args txns submission) :
      Step env allowed state { state with pool := finalizeSubpackage accept state.pool submission }
  | expire {state : NodeState} (time : Int) :
      Step env allowed state { state with pool := state.pool.expire env time }
  | trimToSize {state : NodeState} (usage : CTxMemPool → Nat)
      (before : CTxMemPoolEntry → CTxMemPoolEntry → Bool) (sizelimit rounds : Nat) :
      Step env allowed state
        { state with pool := state.pool.trimToSize env usage before sizelimit rounds }
  | block {state : NodeState} (vtx : List CTransaction)
      (hextends : Extends env state.confirmed vtx)
      (hcommits : TxidCommits env vtx (entryTxs state.pool)) :
      Step env allowed state ⟨state.pool.removeForBlock env vtx, state.confirmed ++ vtx⟩

/-- What transactions that are submitted have passed. -/
structure Submitted (env : MempoolEnv)
    (allowed : CTxMemPool → ATMPArgs → List CTransaction → Prop) (state : NodeState)
    (accept : AcceptEnv) (args : ATMPArgs) (txns : List CTransaction) (submission : Submission) :
    Prop where
  mempool : accept.mempool = env
  tip : TipOf env state.confirmed accept.coinsTip
  commits : TxidCommits env txns state.confirmed
  allowed : allowed state.pool args txns
  passes : Passes accept state.pool args txns submission

/-- Entries leave the mempool, some of them because they were confirmed. -/
structure Shrinks (env : MempoolEnv) (state next : NodeState) (vtx : List CTransaction) : Prop where
  extends_ : Extends env state.confirmed vtx
  confirmed : next.confirmed = state.confirmed ++ vtx
  inOrder : InOrder env [] next.pool
  left : Left (vtx.map env.txid) state.pool next.pool
  gone : ∀ id ∈ vtx.map env.txid, id ∉ next.pool.txids

/-- The invariant of runs without reorganisations. -/
structure Sound (env : MempoolEnv) (state : NodeState) : Prop where
  inOrder : InOrder env [] state.pool
  notCoinBase : ∀ it ∈ state.pool.txids, (state.pool.entry it).tx.isCoinBase = false
  unconfirmed : ∀ id ∈ state.confirmed.map env.txid, id ∉ state.pool.txids
  backed : ∀ it ∈ state.pool.txids, ∀ txin ∈ (state.pool.entry it).tx.vin,
    txin.prevout.hash ∈ state.pool.txids ∨ txin.prevout.hash ∈ state.confirmed.map env.txid
  closed : ChainClosed env state.confirmed

section

variable {env : MempoolEnv} {allowed : CTxMemPool → ATMPArgs → List CTransaction → Prop}
  {state next : NodeState} {accept : AcceptEnv} {args : ATMPArgs} {txns vtx : List CTransaction}
  {submission : Submission}

theorem isCoinBase_eq (tx : CTransaction) : tx.isCoinBase =
    match tx.vin.map (·.prevout) with
    | [prevout] => prevout.isNull
    | _ => false := by
  unfold CTransaction.isCoinBase
  rcases tx.vin with _ | ⟨_, _ | ⟨_, _⟩⟩ <;> rfl

section Commits

variable {txs others : List CTransaction} (hcommits : TxidCommits env txs others)
include hcommits

theorem TxidCommits.mono (hsub : ∀ tx ∈ txns, tx ∈ txs) : TxidCommits env txns others :=
  fun tx htx => hcommits tx (hsub tx htx)

theorem TxidCommits.symm : TxidCommits env others txs :=
  fun other hother tx htx heq => (hcommits tx htx other hother heq.symm).symm

variable {tx other : CTransaction} (htx : tx ∈ txs) (hother : other ∈ others)
  (heq : env.txid tx = env.txid other)
include htx hother heq

theorem TxidCommits.isCoinBase : tx.isCoinBase = other.isCoinBase := by
  rw [isCoinBase_eq, isCoinBase_eq, hcommits tx htx other hother heq]

theorem TxidCommits.input {txin : CTxIn} (htxin : txin ∈ tx.vin) :
    ∃ otherin ∈ other.vin, otherin.prevout = txin.prevout := by
  have hmem : txin.prevout ∈ other.vin.map (·.prevout) :=
    hcommits tx htx other hother heq ▸ mem_map_of_mem htxin
  exact mem_map.mp hmem

end Commits

/-! ## Submissions -/

variable {pool : CTxMemPool} {added package : List CTransaction} {tx : CTransaction}

/-- An outpoint that is available comes from a transaction that was added, from the mempool or
from the tip. -/
theorem getCoin_isSome {outpoint : COutPoint}
    (h : (getCoin accept pool added outpoint).isSome = true) :
    outpoint.hash ∈ added.map accept.mempool.txid ∨ outpoint.hash ∈ pool.txids ∨
      (accept.coinsTip outpoint).isSome = true := by
  unfold getCoin at h
  dsimp only at h
  split at h
  · next coin hfound =>
    obtain ⟨tx, htx, hcoin⟩ := exists_of_findSome?_eq_some hfound
    split at hcoin
    · next hid => exact .inl (mem_map.mpr ⟨tx, htx, hid⟩)
    · cases hcoin
  split at h
  · next hthere => exact .inr (.inl hthere)
  · exact .inr (.inr h)

section

variable (h : Sound accept.mempool state)
  (htip : TipOf accept.mempool state.confirmed accept.coinsTip)
  (hcommits : TxidCommits accept.mempool txns state.confirmed)
  (hadded : ∀ tx ∈ added, accept.mempool.txid tx ∉ state.confirmed.map accept.mempool.txid)
include h htip hcommits hadded

/-- A transaction of the chain is not accepted: what it spends is spent. -/
theorem Sound.not_confirmed (htx : tx ∈ txns) {direct : List Uint256} {ws : Workspace}
    (hchecked : PreChecked accept state.pool added args tx direct ws) :
    accept.mempool.txid tx ∉ state.confirmed.map accept.mempool.txid := by
  intro hmem
  obtain ⟨other, hother, hid⟩ := mem_map.mp hmem
  have hnot := (hcommits.isCoinBase htx hother hid.symm).symm.trans hchecked.notCoinBase
  obtain ⟨txin, htxin⟩ :=
    exists_mem_of_ne_nil _ (checkTransaction_checked hchecked.checked).vin_ne_nil
  obtain ⟨otherin, hotherin, hprevout⟩ := hcommits.input htx hother hid.symm htxin
  have hclosed := h.closed other hother hnot otherin hotherin
  have hspent := htip.spent other hother hnot otherin hotherin
  rw [hprevout] at hclosed hspent
  rcases getCoin_isSome (hchecked.available txin htxin) with hin | hthere | hcoin
  · obtain ⟨before, hbefore, heq⟩ := mem_map.mp hin
    exact hadded before hbefore (heq ▸ hclosed)
  · exact h.unconfirmed _ hclosed hthere
  · rw [hspent] at hcoin
    cases hcoin

theorem Sound.not_confirmed_all {workspaces : List Workspace}
    (hchecked : PreCheckedAll accept state.pool args added txns workspaces) :
    ∀ tx ∈ txns, accept.mempool.txid tx ∉ state.confirmed.map accept.mempool.txid := by
  induction hchecked with
  | nil => exact nofun
  | @cons added tx direct ws txns workspaces hfirst hrest ih =>
    have hself := h.not_confirmed htip hcommits hadded mem_cons_self hfirst
    intro other hother
    cases mem_cons.mp hother with
    | inl heq => exact heq ▸ hself
    | inr hmem =>
      refine ih (hcommits.mono fun _ => mem_cons_of_mem _) (fun before hbefore => ?_) other hmem
      cases mem_append.mp hbefore with
      | inl hold => exact hadded before hold
      | inr heq => exact mem_singleton.mp heq ▸ hself

end

/-- Nothing in the chain or in the mempool is, or spends from, a transaction that is
submitted. -/
structure Fresh (env : MempoolEnv) (state : NodeState) (txns : List CTransaction) : Prop where
  unconfirmed : ∀ tx ∈ txns, env.txid tx ∉ state.confirmed.map env.txid
  new : ∀ tx ∈ txns, env.txid tx ∉ state.pool.txids
  noLoop : ∀ tx ∈ txns, ¬ tx.SpendsFrom (env.txid tx)
  noSpender : ∀ tx ∈ txns, ∀ it ∈ state.pool.txids,
    ¬ (state.pool.entry it).tx.SpendsFrom (env.txid tx)

section

variable (h : Submitted env allowed state accept args txns submission)

include h

theorem Submitted.checked (htx : tx ∈ txns) :
    ∃ before after direct, ∃ ws ∈ submission.workspaces, txns = before ++ tx :: after ∧ ws.tx = tx ∧
      PreChecked accept state.pool before args tx direct ws := by
  obtain ⟨ws, hws, rfl⟩ := mem_map.mp (h.passes.admitted.checked.txs.1.symm ▸ htx)
  obtain ⟨before, after, direct, hsplit, hchecked⟩ := h.passes.admitted.checked.of_mem hws
  exact ⟨before, after, direct, ws, hws, hsplit, rfl, hchecked⟩

theorem Submitted.fresh (hsound : Sound env state) : Fresh env state txns := by
  obtain rfl := h.mempool
  have hunconfirmed :=
    hsound.not_confirmed_all h.tip h.commits (fun _ htx => absurd htx not_mem_nil)
    h.passes.admitted.checked
  have hnew : ∀ tx ∈ txns, accept.mempool.txid tx ∉ state.pool.txids := by
    intro tx htx
    obtain ⟨_, _, _, _, _, _, _, hchecked⟩ := h.checked htx
    exact hchecked.new
  refine ⟨hunconfirmed, hnew, ?_, ?_⟩
  · rintro tx htx ⟨txin, htxin, hid⟩
    obtain ⟨_, _, _, _, -, hsplit, -, hchecked⟩ := h.checked htx
    rcases getCoin_isSome (hchecked.available txin htxin) with hin | hthere | hcoin
    · have hnodup := h.passes.admitted.nodup
      rw [hsplit, map_append, nodup_append'] at hnodup
      exact hnodup.2.2 (hid ▸ hin) mem_cons_self
    · exact hnew tx htx (hid ▸ hthere)
    · exact hunconfirmed tx htx (hid ▸ h.tip.created _ hcoin)
  · rintro tx htx it hit ⟨txin, htxin, hid⟩
    cases hsound.backed it hit txin htxin with
    | inl hthere => exact hnew tx htx (hid ▸ hthere)
    | inr hchain => exact hunconfirmed tx htx (hid ▸ hchain)

/-- What a transaction that is submitted spends from is in the mempool afterwards, or
confirmed. -/
theorem Submitted.inputs (hsound : Sound env state) (htx : tx ∈ txns) {txin : CTxIn}
    (htxin : txin ∈ tx.vin) : txin.prevout.hash ∈ txns.map env.txid ∨
      (txin.prevout.hash ∈ state.pool.txids ∧ txin.prevout.hash ∉ submission.m_to_remove) ∨
      txin.prevout.hash ∈ state.confirmed.map env.txid := by
  obtain rfl := h.mempool
  obtain ⟨_, _, _, _, hws, hsplit, hwsTx, hchecked⟩ := h.checked htx
  rcases getCoin_isSome (hchecked.available txin htxin) with hin | hthere | hcoin
  · refine .inl ?_
    rw [hsplit, map_append]
    exact mem_append_left _ hin
  · refine .inr (.inl ⟨hthere, fun hremoved => ?_⟩)
    refine h.passes.admitted.not_ancestor hsound.inOrder hws hremoved ⟨_, hthere, ?_, .refl⟩
    rw [hwsTx]
    exact ⟨txin, htxin, rfl⟩
  · exact .inr (.inr (h.tip.created _ hcoin))

theorem Submitted.grafted (hsound : Sound env state) :
    Grafted env state.pool submission.m_to_remove txns
      (finalizeSubpackage accept state.pool submission) := by
  have hfresh := h.fresh hsound
  obtain rfl := h.mempool
  have happlied := h.passes.admitted.applied hsound.inOrder.kept.links.nodup
  refine happlied.grafted (.of_eq ?_) hfresh.new hfresh.noLoop hfresh.noSpender
  rw [List.map_map]
  exact h.passes.admitted.checked.txs.2.symm

/-- The size of an entry that was submitted is the one that its checks have used. -/
theorem Submitted.getTxSize {ws : Workspace} (hsound : Sound env state)
    (hws : ws ∈ submission.workspaces) :
    ((finalizeSubpackage accept state.pool submission).entry (env.txid ws.tx)).getTxSize env =
      ws.m_vsize := by
  obtain rfl := h.mempool
  have happlied := h.passes.admitted.applied hsound.inOrder.kept.links.nodup
  obtain ⟨_, _, _, -, hchecked⟩ := h.passes.admitted.checked.of_mem hws
  rw [← hchecked.additionTx, hchecked.vsize]
  exact CTxMemPoolEntry.getTxSize_of_static (happlied.new _ (mem_map_of_mem hws)) _

end

theorem Sound.submit (h : Sound env state)
    (hsubmitted : Submitted env allowed state accept args txns submission) :
    Sound env { state with pool := finalizeSubpackage accept state.pool submission } := by
  have hfresh := hsubmitted.fresh h
  have hinputs := fun {tx} (htx : tx ∈ txns) {txin} (htxin : txin ∈ tx.vin) =>
    hsubmitted.inputs h htx htxin
  have hgrafted := hsubmitted.grafted h
  obtain rfl := hsubmitted.mempool
  have hadmitted := hsubmitted.passes.admitted
  have horder := hadmitted.inOrder h.inOrder hfresh.noLoop hfresh.noSpender
  generalize finalizeSubpackage accept state.pool submission = pool at horder hgrafted
  have hmem := hgrafted.mem
  refine ⟨horder, fun it hit => ?_, fun id hid hit => ?_, fun it hit txin htxin => ?_, h.closed⟩
  · cases (hmem it).mp hit with
    | inl hold =>
      rw [CTxMemPoolEntry.tx_of_static (hgrafted.old it hold.1 hold.2)]
      exact h.notCoinBase it hold.1
    | inr hadded =>
      obtain ⟨tx, htx, rfl⟩ := mem_map.mp hadded
      obtain ⟨_, _, _, _, _, _, _, hchecked⟩ := hsubmitted.checked htx
      rw [hgrafted.new tx htx]
      exact hchecked.notCoinBase
  · cases (hmem id).mp hit with
    | inl hold => exact h.unconfirmed id hid hold.1
    | inr hadded =>
      obtain ⟨tx, htx, rfl⟩ := mem_map.mp hadded
      exact hfresh.unconfirmed tx htx hid
  · cases (hmem it).mp hit with
    | inl hold =>
      rw [CTxMemPoolEntry.tx_of_static (hgrafted.old it hold.1 hold.2)] at htxin
      refine (h.backed it hold.1 txin htxin).imp_left fun hparent => (hmem _).mpr
        (.inl ⟨hparent, ?_⟩)
      intro hremoved
      obtain ⟨-, -, hremovals⟩ := hadmitted.removed h.inOrder
      obtain ⟨ws, hws, conflict, hconflict, hpath⟩ := (hremovals _).mp hremoved
      exact hold.2 ((hremovals it).mpr
        ⟨ws, hws, conflict, hconflict, hpath.tail ⟨hparent, hold.1, txin, htxin, rfl⟩⟩)
    | inr hadded =>
      obtain ⟨tx, htx, rfl⟩ := mem_map.mp hadded
      rw [hgrafted.new tx htx] at htxin
      rcases hinputs htx htxin with hpackage | hpool | hchain
      · exact .inl ((hmem _).mpr (.inr hpackage))
      · exact .inl ((hmem _).mpr (.inl hpool))
      · exact .inr hchain

/-! ## Evictions and blocks -/

theorem Sound.topologicallyOrdered (h : Sound env state)
    (hextends : Extends env state.confirmed vtx)
    (hcommits : TxidCommits env vtx (entryTxs state.pool)) :
      TopologicallyOrdered env state.pool vtx := by
  rintro before tx rest hsplit _ ⟨hparent, hchild, _, htxin, rfl⟩
  have hid := h.inOrder.kept.books.hash _ hchild
  have htx : tx ∈ vtx := hsplit ▸ mem_append_right _ mem_cons_self
  have hentry : (state.pool.entry (env.txid tx)).tx ∈ entryTxs state.pool :=
    mem_map.mpr ⟨_, hchild, rfl⟩
  have hnot := (hcommits.isCoinBase htx hentry hid.symm).trans (h.notCoinBase _ hchild)
  obtain ⟨otherin, hotherin, hprevout⟩ := hcommits.symm.input hentry htx hid htxin
  have hfrom := hextends before tx rest hsplit hnot otherin hotherin
  rw [hprevout, map_append, mem_append] at hfrom
  exact hfrom.resolve_left fun hchain => h.unconfirmed _ hchain hparent

theorem Sound.shrink (h : Sound env state) (hshrinks : Shrinks env state next vtx) :
    Sound env next := by
  have hshrunk := hshrinks.left.toShrunk
  have hconfirmed : next.confirmed.map env.txid = state.confirmed.map env.txid ++ vtx.map
      env.txid := by
    rw [hshrinks.confirmed, map_append]
  refine ⟨hshrinks.inOrder, fun it hit => ?_, fun id hid hit => ?_, fun it hit txin htxin => ?_,
    fun tx htx hnot txin htxin => ?_⟩
  · rw [hshrunk.tx hit]
    exact h.notCoinBase it (hshrunk.txids it hit)
  · rw [hconfirmed] at hid
    cases mem_append.mp hid with
    | inl hold => exact h.unconfirmed id hold (hshrunk.txids id hit)
    | inr hnew => exact hshrinks.gone id hnew hit
  · rw [hshrunk.tx hit] at htxin
    rw [hconfirmed, mem_append]
    cases h.backed it (hshrunk.txids it hit) txin htxin with
    | inl hparent =>
      have hlinked : state.pool.Linked txin.prevout.hash it := by
        rw [h.inOrder.linked_eq]
        exact ⟨hparent, hshrunk.txids it hit, txin, htxin, rfl⟩
      exact (hshrinks.left.parents _ it hlinked hit).imp_right .inr
    | inr hchain => exact .inr (.inl hchain)
  · rw [hshrinks.confirmed] at htx
    rw [hconfirmed, mem_append]
    cases mem_append.mp htx with
    | inl hold => exact .inl (h.closed tx hold hnot txin htxin)
    | inr hnew =>
      obtain ⟨before, rest, hsplit⟩ := append_of_mem hnew
      have hfrom := hshrinks.extends_ before tx rest hsplit hnot txin htxin
      rw [map_append, mem_append] at hfrom
      refine hfrom.imp_right fun hbefore => ?_
      rw [hsplit, map_append]
      exact mem_append_left _ hbefore

/-- A step is a submission, or entries leave the mempool. -/
theorem Step.cases (hsound : Sound env state) (h : Step env allowed state next) :
    (∃ accept args txns submission, Submitted env allowed state accept args txns submission ∧
      next = { state with pool := finalizeSubpackage accept state.pool submission }) ∨
    ∃ vtx, Shrinks env state next vtx := by
  have hnil : Extends env state.confirmed [] := fun before tx rest hsplit =>
    absurd hsplit.symm (append_ne_nil_of_right_ne_nil _ (cons_ne_nil _ _))
  cases h with
  | submit accept args txns submission hmempool htip hcommits hallowed hpasses =>
    exact .inl ⟨accept, args, txns, submission, ⟨hmempool, htip, hcommits, hallowed, hpasses⟩, rfl⟩
  | expire time =>
    obtain ⟨horder, hleft⟩ := hsound.inOrder.expire time
    exact .inr ⟨[], hnil, (append_nil _).symm, horder, hleft, nofun⟩
  | trimToSize usage before sizelimit rounds =>
    obtain ⟨horder, hleft⟩ := hsound.inOrder.trimToSize
    exact .inr ⟨[], hnil, (append_nil _).symm, horder, hleft, nofun⟩
  | block vtx hextends hcommits =>
    obtain ⟨horder, hleft, hgone⟩ := hsound.inOrder.removeForBlock
      (hsound.topologicallyOrdered hextends hcommits)
    exact .inr ⟨vtx, hextends, rfl, horder, hleft, hgone⟩

theorem Sound.step (h : Sound env state) (hstep : Step env allowed state next) :
    Sound env next := by
  rcases hstep.cases h with ⟨_, _, _, _, hsubmitted, rfl⟩ | ⟨_, hshrinks⟩
  · exact h.submit hsubmitted
  · exact h.shrink hshrinks

theorem sound_start {confirmed : List CTransaction} (hclosed : ChainClosed env confirmed) :
    Sound env { confirmed := confirmed } :=
  ⟨inOrder_empty, nofun, fun _ _ => not_mem_nil,
    nofun, hclosed⟩

/-! ## Calls -/

/-- Acceptances of transactions and packages are sequences of steps. -/
theorem limitMempoolSize_steps (hmempool : accept.mempool = env) :
      ReflTransGen (Step env allowed) state
      { state with pool := limitMempoolSize accept state.pool } := by
  obtain rfl := hmempool
  exact (ReflTransGen.single (.expire accept.expiry)).tail (.trimToSize _ _ _ _)

theorem acceptSingleTransaction_steps (hmempool : accept.mempool = env)
    (htip : TipOf env state.confirmed accept.coinsTip) {tx : CTransaction}
    (hcommits : TxidCommits env [tx] state.confirmed) (hallowed : allowed state.pool args [tx]) :
    ReflTransGen (Step env allowed) state
      { state with pool := (acceptSingleTransaction accept state.pool args tx).1 } := by
  rcases acceptSingleTransaction_cases accept state.pool args tx with
    hsame | ⟨submission, hcheck, hafter⟩
  · rw [hsame]
  have hstep := ReflTransGen.single
    (Step.submit accept args [tx] submission hmempool htip hcommits hallowed (.single hcheck))
  cases hafter with
  | inl hafter => exact hafter.symm ▸ hstep
  | inr hafter => exact hafter.symm ▸ hstep.trans (limitMempoolSize_steps hmempool)

theorem noteFailure_spec (package_size : Nat) (tx : CTransaction) (result : MempoolAcceptResult)
    (progress : PackageProgress) :
    (noteFailure accept package_size tx result progress).pool = progress.pool ∧
      ∀ other ∈ (noteFailure accept package_size tx result progress).txns_package_eval,
        other ∈ progress.txns_package_eval ∨ other = tx := by
  unfold noteFailure
  split
  · exact ⟨rfl, fun _ => .inl⟩
  · exact ⟨rfl, fun _ hother => (mem_append.mp hother).imp_right mem_singleton.mp⟩

/-- A transaction that is tried alone is submitted or not, and may be tried again. -/
theorem tryAlone_spec (package_size : Nat) (progress : PackageProgress) (tx : CTransaction) :
    ((tryAlone accept args package_size progress tx).pool = progress.pool ∨
      (tryAlone accept args package_size progress tx).pool =
        (acceptSingleTransaction accept progress.pool args.singleInPackageAccept tx).1) ∧
      ∀ other ∈ (tryAlone accept args package_size progress tx).txns_package_eval,
        other ∈ progress.txns_package_eval ∨ other = tx := by
  unfold tryAlone
  dsimp only
  split
  · exact ⟨.inl rfl, fun _ => .inl⟩
  split
  · exact ⟨.inr rfl, fun _ => .inl⟩
  · exact (noteFailure_spec _ _ _ _).imp_left .inr
  · exact ⟨.inr rfl, fun _ => .inl⟩

/-- What is submitted for a package, without carve-outs, is allowed. -/
def AllowsPackage (allowed : CTxMemPool → ATMPArgs → List CTransaction → Prop)
    (package : List CTransaction) : Prop :=
  ∀ pool args txns, args.m_allow_carveouts = false → (∀ tx ∈ txns, tx ∈ package) →
    allowed pool args txns

/-- The environment of a call is that of the mempool and of the chain. -/
structure Accepts (env : MempoolEnv) (state : NodeState) (accept : AcceptEnv) : Prop where
  mempool : accept.mempool = env
  tip : TipOf env state.confirmed accept.coinsTip
  scripts : ScriptsAgree accept

section Package

variable (haccepts : Accepts env state accept) (hcommits : TxidCommits env package state.confirmed)
  (hallows : AllowsPackage allowed package)
include haccepts hcommits hallows

theorem tryAlone_steps (package_size : Nat) (hsub : ∀ tx ∈ txns, tx ∈ package) :
    let last := txns.foldl (tryAlone accept args package_size) { pool := state.pool }
    ReflTransGen (Step env allowed) state { state with pool := last.pool } ∧
      ∀ tx ∈ last.txns_package_eval, tx ∈ package := by
  induction txns using reverseRecOn with
  | nil => exact ⟨.refl, nofun⟩
  | append_singleton before tx ih =>
    have htx := hsub tx (mem_append_right _ mem_cons_self)
    obtain ⟨hsteps, heval⟩ := ih fun other hother => hsub other (mem_append_left _ hother)
    rw [foldl_append, foldl_cons, foldl_nil]
    generalize before.foldl (tryAlone accept args package_size) { pool := state.pool } =
      progress at hsteps heval ⊢
    obtain ⟨hpool, hnext⟩ := @tryAlone_spec accept args package_size progress tx
    refine ⟨?_, fun other hother => (hnext other hother).elim (heval other) fun heq => heq ▸ htx⟩
    cases hpool with
    | inl hsame => exact hsame.symm ▸ hsteps
    | inr hafter =>
      rw [hafter]
      refine hsteps.trans (@acceptSingleTransaction_steps env allowed
        { state with pool := progress.pool } accept _ haccepts.mempool haccepts.tip tx ?_ ?_)
      · exact hcommits.mono fun other hother => mem_singleton.mp hother ▸ htx
      · exact hallows _ _ _ rfl fun other hother => mem_singleton.mp hother ▸ htx

variable (htest : args.m_test_accept = false) (hcarveouts : args.m_allow_carveouts = false)
include htest hcarveouts

theorem submitLeftovers_steps
    {progress : PackageProgress} (heval : ∀ tx ∈ progress.txns_package_eval, tx ∈ package) :
    ReflTransGen (Step env allowed) { state with pool := progress.pool }
      { state with pool := (submitLeftovers accept args progress).1 } := by
  unfold submitLeftovers
  dsimp only
  split
  · exact .refl
  next hrun =>
  have hne : progress.txns_package_eval ≠ [] := fun hnil => hrun (by simp [hnil])
  cases acceptSubPackage_outcome haccepts.scripts htest hcarveouts hne with
  | refused hresult hafter => rw [hafter]
  | submitted args' submission hargs hpasses hafter hstate hresults =>
    rw [hafter]
    exact .single (.submit accept args' _ submission haccepts.mempool haccepts.tip
      (hcommits.mono heval) (hallows _ _ _ hargs heval) hpasses)

theorem acceptPackage_steps : ReflTransGen (Step env allowed) state
      { state with pool := (acceptPackage accept state.pool args package).1 } := by
  unfold acceptPackage
  split
  · exact .refl
  obtain ⟨halone, heval⟩ := @tryAlone_steps env allowed state accept args package package haccepts
    hcommits hallows package.length fun _ htx => htx
  have htogether :=
    halone.trans (submitLeftovers_steps haccepts hcommits hallows htest hcarveouts heval)
  exact htogether.trans (@limitMempoolSize_steps env allowed { state with pool := _ } accept
    haccepts.mempool)

end Package

theorem acceptMultipleTransactions_test (htest : args.m_test_accept = true) :
    (acceptMultipleTransactions accept pool args txns).1 = pool := by
  unfold acceptMultipleTransactions
  cases checkMultiple accept pool args txns with
  | error result => rfl
  | ok checked =>
    dsimp only
    rw [if_pos htest]

/-- A call on the mempool of a node. -/
inductive Call
  | acceptToMemoryPool (accept : AcceptEnv) (tx : CTransaction) (accept_time : Int)
      (bypass_limits test_accept : Bool)
  | processNewPackage (accept : AcceptEnv) (package : List CTransaction) (time : Int)
      (test_accept : Bool) (client_maxfeerate : Option CFeeRate)
  | removeForBlock (vtx : List CTransaction)
  | expire (time : Int)
  | trimToSize (usage : CTxMemPool → Nat) (before : CTxMemPoolEntry → CTxMemPoolEntry → Bool)
      (sizelimit : Nat)

/-- What the rest of the node guarantees of a call, and that ids do not collide. -/
def Call.Legal (env : MempoolEnv) (state : NodeState) : Call → Prop
  | .acceptToMemoryPool accept tx _ _ _ =>
    Accepts env state accept ∧ TxidCommits env [tx] state.confirmed
  | .processNewPackage accept package _ _ _ =>
    Accepts env state accept ∧ TxidCommits env package state.confirmed
  | .removeForBlock vtx =>
    Extends env state.confirmed vtx ∧ TxidCommits env vtx (entryTxs state.pool)
  | .expire _ => True
  | .trimToSize _ _ _ => True

/-- What a call does. -/
def Call.run (env : MempoolEnv) (state : NodeState) : Call → NodeState
  | .acceptToMemoryPool accept tx accept_time bypass_limits test_accept =>
    { state with pool :=
      (BtcSharp.acceptToMemoryPool accept state.pool tx accept_time bypass_limits test_accept).1 }
  | .processNewPackage accept package time test_accept client_maxfeerate =>
    { state with pool :=
      (BtcSharp.processNewPackage accept state.pool package time test_accept client_maxfeerate).1 }
  | .removeForBlock vtx => ⟨state.pool.removeForBlock env vtx, state.confirmed ++ vtx⟩
  | .expire time => { state with pool := state.pool.expire env time }
  | .trimToSize usage before sizelimit =>
    { state with pool :=
      state.pool.trimToSize env usage before sizelimit state.pool.txids.length }

/-- What a call submits is allowed. -/
def Call.Allowed (allowed : CTxMemPool → ATMPArgs → List CTransaction → Prop) (state : NodeState) :
    Call → Prop
  | .acceptToMemoryPool _ tx accept_time bypass_limits test_accept =>
    allowed state.pool (.singleAccept accept_time bypass_limits test_accept) [tx]
  | .processNewPackage _ package _ _ _ => AllowsPackage allowed package
  | _ => True

/-- A call is a sequence of steps. -/
theorem Call.steps {call : Call} (hlegal : call.Legal env state)
    (hallowed : call.Allowed allowed state) :
    ReflTransGen (Step env allowed) state (call.run env state) := by
  cases call with
  | acceptToMemoryPool accept tx accept_time bypass_limits test_accept =>
    exact acceptSingleTransaction_steps hlegal.1.mempool hlegal.1.tip hlegal.2 hallowed
  | processNewPackage accept package time test_accept client_maxfeerate =>
    cases test_accept with
    | true =>
      show ReflTransGen _ state { state with pool := (acceptMultipleTransactions accept state.pool
        (.packageTestAccept time) package).1 }
      rw [acceptMultipleTransactions_test rfl]
    | false =>
      exact acceptPackage_steps hlegal.1 hlegal.2 hallowed rfl rfl
  | removeForBlock vtx => exact .single (.block vtx hlegal.1 hlegal.2)
  | expire time => exact .single (.expire time)
  | trimToSize usage before sizelimit =>
    exact .single (.trimToSize usage before sizelimit _)

/-- The states that calls lead to from an empty mempool. -/
inductive Reaches (env : MempoolEnv)
    (allowed : CTxMemPool → ATMPArgs → List CTransaction → Prop) : NodeState → Prop
  | start (confirmed : List CTransaction) (hclosed : ChainClosed env confirmed) :
      Reaches env allowed { confirmed := confirmed }
  | call {state : NodeState} (call : Call) : Reaches env allowed state → call.Legal env state →
      call.Allowed allowed state → Reaches env allowed (call.run env state)

section Induction

variable {good : NodeState → Prop}
  (hstep : ∀ state next, Sound env state → good state → Step env allowed state next → good next)
include hstep

theorem steps_induction (hsteps : ReflTransGen (Step env allowed) state next)
    (h : Sound env state ∧ good state) : Sound env next ∧ good next := by
  induction hsteps with
  | refl => exact h
  | tail _ hlast ih => exact ⟨ih.1.step hlast, hstep _ _ ih.1 ih.2 hlast⟩

/-- What every step preserves holds in every state that calls lead to. -/
theorem Reaches.induction (hstart : ∀ confirmed, good { confirmed := confirmed })
    (h : Reaches env allowed state) : Sound env state ∧ good state := by
  induction h with
  | start confirmed hclosed => exact ⟨sound_start hclosed, hstart confirmed⟩
  | call call _ hlegal hallowed ih =>
    exact steps_induction hstep (call.steps hlegal hallowed) ih

end Induction

theorem Reaches.sound (h : Reaches env allowed state) : Sound env state :=
  (Reaches.induction (fun _ _ _ _ _ => trivial) (fun _ => trivial) h).1

end

/-! ## A sample run -/

/-- A coinbase whose outputs make up the tip of a sample node. -/
def sampleCoinbase : CTransaction := ⟨[⟨⟨0, COutPoint.NULL_INDEX⟩, [], 0, []⟩], [], 2, 1000⟩

/-- A node with these outputs in its tip. The fee is what the outputs leave of a million. -/
def sampleNode : AcceptEnv := { sampleAccept with
  coinsTip := fun outpoint => if outpoint.hash = 1000 then some ⟨⟨50, []⟩, false, 1⟩ else none
  checkTxInputs := fun tx _ => .ok (1000000 - (tx.vout.map (·.nValue)).sum) }

/-- Transactions are given to the node one after another. -/
def sampleRun (txs : List CTransaction) : NodeState :=
  txs.foldl
    (fun state tx => Call.run sampleEnv state (.acceptToMemoryPool sampleNode tx 1 false false))
    { confirmed := [sampleCoinbase] }

theorem sampleNode_accepts {state : NodeState} (hconfirmed : state.confirmed = [sampleCoinbase]) :
    Accepts sampleEnv state sampleNode where
  mempool := rfl
  tip := by
    rw [hconfirmed]
    refine ⟨fun outpoint hsome => ?_, fun tx htx hnot => ?_⟩
    · have hhash : outpoint.hash = 1000 := by simpa [sampleNode] using hsome
      rw [hhash]
      exact mem_singleton.mpr rfl
    · rw [mem_singleton.mp htx] at hnot
      exact absurd hnot (by decide)
  scripts _ _ _ := rfl

theorem sampleRun_reaches {allowed : CTxMemPool → ATMPArgs → List CTransaction → Prop}
    {txs : List CTransaction} (hids : ∀ tx ∈ txs, sampleEnv.txid tx ≠ 1000)
    (hallowed : ∀ before tx after, txs = before ++ tx :: after →
      allowed (sampleRun before).pool (.singleAccept 1 false false) [tx]) :
    Reaches sampleEnv allowed (sampleRun txs) ∧ (sampleRun txs).confirmed = [sampleCoinbase] := by
  induction txs using reverseRecOn with
  | nil =>
    refine ⟨.start [sampleCoinbase] fun tx htx hnot => ?_, rfl⟩
    rw [mem_singleton.mp htx] at hnot
    exact absurd hnot (by decide)
  | append_singleton txs tx ih =>
    obtain ⟨hreaches, hconfirmed⟩ := ih (fun other hother => hids other (mem_append_left _ hother))
      fun before other after hsplit => hallowed before other (after ++ [tx]) (by rw [hsplit]; simp)
    have hstep : sampleRun (txs ++ [tx]) = Call.run sampleEnv (sampleRun txs)
        (.acceptToMemoryPool sampleNode tx 1 false false) := by
      rw [sampleRun, foldl_append]
      rfl
    rw [hstep]
    refine ⟨hreaches.call _ ⟨sampleNode_accepts hconfirmed,
      fun other hother coinbase hcoinbase heq =>
      ?_⟩ (hallowed txs tx [] rfl), hconfirmed⟩
    rw [hconfirmed] at hcoinbase
    rw [mem_singleton.mp hother, mem_singleton.mp hcoinbase] at heq
    exact absurd heq (hids tx (mem_append_right _ mem_cons_self))

end MempoolRun

end BtcSharp
