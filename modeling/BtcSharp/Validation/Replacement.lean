/-
# Replacements

What becomes of the mempool when new transactions replace entries: exactly the conflicts
and their descendants go, they are few and no ancestors of what is new, and the modified
fees of the mempool rise by the fee for relaying the new transactions. A candidate that is
rejected changes nothing, unless it was submitted and then evicted.
-/

import BtcSharp.Mempool.Consistency
import BtcSharp.Validation.Admission

namespace BtcSharp

open List Relation

/-- Two transactions spend different outpoints. -/
def CTransaction.InputsDisjoint (first second : CTransaction) : Prop :=
  ∀ firstin ∈ first.vin, ∀ secondin ∈ second.vin, firstin.prevout ≠ secondin.prevout

instance : Std.Symm CTransaction.InputsDisjoint where
  symm _ _ h secondin hsecond firstin hfirst := (h firstin hfirst secondin hsecond).symm

namespace CTxMemPool

variable {env : MempoolEnv} {pool after : CTxMemPool} {m_to_remove : List Uint256}
  {additions : List Addition}

theorem feesOf_append (its others : List Uint256) :
    pool.feesOf (its ++ others) = pool.feesOf its + pool.feesOf others := by
  unfold feesOf
  rw [map_append, sum_append]

theorem feesOf_perm {its others : List Uint256} (h : its.Perm others) :
    pool.feesOf its = pool.feesOf others := (h.map _).sum_eq

/-- The fees of a mempool to which a change set was applied. -/
theorem Applied.feesOf (h : Applied env pool m_to_remove additions after)
    (hpool : pool.txids.Nodup) (hremove : m_to_remove.Nodup)
    (hthere : ∀ it ∈ m_to_remove, it ∈ pool.txids)
    (hdistinct : (additions.map fun a => env.txid a.tx).Nodup)
    (hnew : ∀ a ∈ additions, env.txid a.tx ∉ pool.txids) :
    after.feesOf after.txids + pool.feesOf m_to_remove = pool.feesOf pool.txids +
      (additions.map fun a => (stageAddition env pool a).m_modified_fee).sum := by
  have hkept : ∀ it, it ∈ pool.txids.diff m_to_remove ↔ it ∈ pool.txids ∧ it ∉ m_to_remove :=
    fun it => hpool.mem_sdiff_iff
  have hbefore : (m_to_remove ++ pool.txids.diff m_to_remove).Perm pool.txids :=
    subperm_append_diff_self_of_count_le fun it _ => (hremove.subperm hthere).count_le it
  have hafter :
      after.txids.Perm (pool.txids.diff m_to_remove ++ additions.map fun a => env.txid a.tx) := by
    refine (perm_ext_iff_of_nodup h.nodup ?_).mpr fun it => ?_
    · refine nodup_append'.mpr ⟨hpool.diff, hdistinct, fun it hit hadded => ?_⟩
      obtain ⟨a, ha, rfl⟩ := mem_map.mp hadded
      exact hnew a ha ((hkept _).mp hit).1
    · rw [h.mem, mem_append, hkept]
  have hold : after.feesOf (pool.txids.diff m_to_remove) = pool.feesOf
      (pool.txids.diff m_to_remove) := by
    refine congrArg sum (map_congr_left fun it hit => ?_)
    obtain ⟨hmem, hnot⟩ := (hkept it).mp hit
    exact CTxMemPoolEntry.modifiedFee_of_static (h.old it hmem hnot)
  have hadded : after.feesOf (additions.map fun a => env.txid a.tx) =
      (additions.map fun a => (stageAddition env pool a).m_modified_fee).sum := by
    unfold CTxMemPool.feesOf
    rw [List.map_map]
    exact congrArg sum (map_congr_left fun a ha =>
      CTxMemPoolEntry.modifiedFee_of_static (h.new a ha))
  rw [feesOf_perm hafter, ← feesOf_perm hbefore, feesOf_append, feesOf_append, hold, hadded]
  omega

end CTxMemPool

namespace MemPoolAccept

open CTxMemPool

variable {env : AcceptEnv} {pool after : CTxMemPool} {txns : List CTransaction} {args : ATMPArgs}
  {tx : CTransaction} {submission : Submission}

/-! ## The contents of the mempool after a submission -/

section Submitted

variable (h : Admitted env pool args txns submission)
include h

theorem Admitted.additions_txid :
    ((submission.workspaces.map (·.addition)).map fun a => env.mempool.txid a.tx) =
      txns.map env.mempool.txid := by
  have htxs := h.checked.txs.2
  rw [List.map_map, ← htxs, List.map_map]
  rfl

theorem Admitted.additions_new {a : Addition} (ha : a ∈ submission.workspaces.map (·.addition)) :
    env.mempool.txid a.tx ∉ pool.txids := by
  obtain ⟨_, hws, rfl⟩ := mem_map.mp ha
  obtain ⟨_, _, _, -, hchecked⟩ := h.checked.of_mem hws
  rw [hchecked.additionTx]
  exact hchecked.new

theorem Admitted.applied (hnodup : pool.txids.Nodup) :
    Applied env.mempool pool submission.m_to_remove (submission.workspaces.map (·.addition))
      (finalizeSubpackage env pool submission) := by
  refine apply_applied hnodup ?_ (fun a => h.additions_new) true
  rw [h.additions_txid]
  exact h.nodup

/-- What a submission removes. -/
theorem Admitted.removed (horder : InOrder env.mempool [] pool) :
      pool.Removable submission.m_to_remove false ∧
      submission.m_to_remove.length ≤ MAX_REPLACEMENT_CANDIDATES ∧
      ∀ it, it ∈ submission.m_to_remove ↔
        ∃ ws ∈ submission.workspaces, ∃ conflict ∈ ws.m_conflicts,
        ReflTransGen pool.Spends conflict it := by
  cases h.removal with
  | none hconflicts hnone =>
    rw [hnone]
    refine ⟨⟨nodup_nil, nofun, nofun⟩, Nat.zero_le _, fun it => ?_⟩
    refine iff_of_false not_mem_nil ?_
    rintro ⟨ws, hws, conflict, hconflict, -⟩
    rw [hconflicts ws hws] at hconflict
    exact not_mem_nil hconflict
  | replaces hreplaces =>
    obtain ⟨iters, hentries, hiters⟩ := hreplaces.entries
    have hmem : ∀ it, it ∈ iters ↔ ∃ ws ∈ submission.workspaces, it ∈ ws.m_conflicts := by
      intro it
      rw [hiters]
      refine exists_congr fun ws => and_congr_right fun hws => ?_
      obtain ⟨before, after, direct, -, hchecked⟩ := h.checked.of_mem hws
      exact hchecked.mem_iters horder it
    have hthere : ∀ it ∈ iters, it ∈ pool.txids := by
      intro it hit
      obtain ⟨ws, hws, hconflict⟩ := (hmem it).mp hit
      obtain ⟨before, after, direct, -, hchecked⟩ := h.checked.of_mem hws
      exact hchecked.conflicts_there horder hconflict
    obtain ⟨hremovable, hfew, hclosure⟩ := horder.entriesForConflicts hthere hentries
    refine ⟨hremovable, hfew, fun it => (hclosure it).trans ?_⟩
    constructor
    · rintro ⟨conflict, hconflict, hpath⟩
      obtain ⟨ws, hws, hconflict⟩ := (hmem conflict).mp hconflict
      exact ⟨ws, hws, conflict, hconflict, hpath⟩
    · rintro ⟨ws, hws, conflict, hconflict, hpath⟩
      exact ⟨conflict, (hmem conflict).mpr ⟨ws, hws, hconflict⟩, hpath⟩

section

variable (horder : InOrder env.mempool [] pool)

include horder

/-- An entry that spends what a new transaction spends is removed. -/
theorem Admitted.conflict_removed {ws : Workspace}
    (hws : ws ∈ submission.workspaces) {it : Uint256}
      (hconflict : ConflictsWith pool ws.tx.vin it) : it ∈ submission.m_to_remove := by
  obtain ⟨_, _, _, -, hchecked⟩ := h.checked.of_mem hws
  exact ((h.removed horder).2.2 it).mpr ⟨ws, hws, it, (hchecked.mem_conflicts horder it).mpr
    (.inl hconflict), .refl⟩

/-- No entry that is removed is an ancestor of a new transaction. -/
theorem Admitted.not_ancestor {ws : Workspace}
    (hws : ws ∈ submission.workspaces) {it : Uint256} (hit : it ∈ submission.m_to_remove) :
    ¬ AncestorOf pool ws.tx it := by
  rintro ⟨parent, hparent, hspends, hpath⟩
  obtain ⟨_, _, _, -, hchecked⟩ := h.checked.of_mem hws
  obtain ⟨_, hother, conflict, hconflict, hreach⟩ := ((h.removed horder).2.2 it).mp hit
  have hancestor : AncestorOf pool ws.tx conflict := ⟨parent, hparent, hspends, hreach.trans hpath⟩
  cases h.removal with
  | none hconflicts hnone =>
    rw [hnone] at hit
    exact not_mem_nil hit
  | replaces hreplaces =>
    cases hreplaces.parents with
    | inl halone =>
      obtain ⟨_, honly, -⟩ := halone
      rw [honly] at hws hother
      rw [mem_singleton.mp hother, ← mem_singleton.mp hws] at hconflict
      exact hchecked.not_ancestor horder hconflict hancestor
    | inr hnone =>
      have hmem := ((hchecked.mem_ancestors horder).2 conflict).mpr hancestor
      rw [hnone ws hws] at hmem
      exact not_mem_nil hmem

/-- The fees of the new transactions, and of what they replace. -/
theorem Admitted.feesOf :
    (finalizeSubpackage env pool submission).feesOf (finalizeSubpackage env pool submission).txids +
        pool.feesOf submission.m_to_remove =
      pool.feesOf pool.txids + newFees submission.workspaces := by
  have hnodup := horder.kept.links.nodup
  obtain ⟨hremove, hthere, -⟩ := (h.removed horder).1
  have hfees := (h.applied hnodup).feesOf hnodup hremove hthere (h.additions_txid ▸ h.nodup)
    fun a => h.additions_new
  rw [hfees, List.map_map]
  refine congrArg _ (congrArg sum (map_congr_left fun ws hws => ?_))
  obtain ⟨_, _, _, -, hchecked⟩ := h.checked.of_mem hws
  exact hchecked.fees.symm

/-- No two entries spend the same outpoint after a submission. An old entry that shared one with a
new transaction would have been removed. -/
theorem Admitted.noDoubleSpend (happlied : Applied env.mempool pool submission.m_to_remove
      (submission.workspaces.map (·.addition)) after) {it other : Uint256} (hit : it ∈ after.txids)
    (hother : other ∈ after.txids) {txin otherin : CTxIn} (htxin : txin ∈ (after.entry it).tx.vin)
    (hotherin : otherin ∈ (after.entry other).tx.vin) (heq : txin.prevout = otherin.prevout) :
    it = other := by
  have hmixed : ∀ ws ∈ submission.workspaces, ∀ old ∈ pool.txids, old ∉ submission.m_to_remove →
      ∀ newin ∈ ws.tx.vin, ∀ oldin ∈ (pool.entry old).tx.vin, oldin.prevout ≠ newin.prevout :=
    fun ws hws old hold hkept newin hnewin oldin holdin hsame =>
      hkept (h.conflict_removed horder hws ⟨hold, newin, hnewin, oldin, holdin, hsame⟩)
  have hnew : ∀ it, it ∈ (submission.workspaces.map (·.addition)).map
      (fun a => env.mempool.txid a.tx) →
      ∃ ws ∈ submission.workspaces, env.mempool.txid ws.tx = it ∧ (after.entry it).tx = ws.tx := by
    intro it hit
    rw [List.map_map] at hit
    obtain ⟨ws, hws, rfl⟩ := mem_map.mp hit
    obtain ⟨_, _, _, -, hchecked⟩ := h.checked.of_mem hws
    refine ⟨ws, hws, congrArg _ hchecked.additionTx.symm, ?_⟩
    rw [← hchecked.additionTx]
    exact happlied.tx_new (mem_map_of_mem hws)
  cases (happlied.mem it).mp hit with
  | inl hold =>
    rw [happlied.tx_old hold.1 hold.2] at htxin
    cases (happlied.mem other).mp hother with
    | inl hold' =>
      rw [happlied.tx_old hold'.1 hold'.2] at hotherin
      have hfirst := horder.kept.books.lookup_iff.mpr ⟨hold.1, txin, htxin, heq⟩
      have hsecond := horder.kept.books.lookup_iff.mpr ⟨hold'.1, otherin, hotherin, rfl⟩
      exact Option.some.inj (hfirst.symm.trans hsecond)
    | inr hadded =>
      obtain ⟨ws, hws, -, htx⟩ := hnew other hadded
      rw [htx] at hotherin
      exact absurd heq (hmixed ws hws it hold.1 hold.2 otherin hotherin txin htxin)
  | inr hadded =>
    obtain ⟨ws, hws, hhash, htx⟩ := hnew it hadded
    rw [htx] at htxin
    cases (happlied.mem other).mp hother with
    | inl hold =>
      rw [happlied.tx_old hold.1 hold.2] at hotherin
      exact absurd heq.symm (hmixed ws hws other hold.1 hold.2 txin htxin otherin hotherin)
    | inr hadded' =>
      obtain ⟨ws', hws', hhash', htx'⟩ := hnew other hadded'
      rw [htx'] at hotherin
      have hmem : ∀ {ws}, ws ∈ submission.workspaces → ws.tx ∈ txns := fun hws =>
        h.checked.txs.1 ▸ mem_map_of_mem hws
      by_contra hne
      have hdistinct : ws.tx ≠ ws'.tx := fun hsame => hne (by rw [← hhash, ← hhash', hsame])
      have hpairs : txns.Pairwise CTransaction.InputsDisjoint :=
        h.noConflict.imp fun hpair firstin hfirst secondin hsecond =>
          hpair secondin hsecond firstin hfirst
      exact hpairs.forall (hmem hws) (hmem hws') hdistinct txin htxin otherin hotherin heq

variable (hnoLoop : ∀ tx ∈ txns, ¬ tx.SpendsFrom (env.mempool.txid tx))
  (hnoSpender : ∀ tx ∈ txns, ∀ it ∈ pool.txids,
    ¬ (pool.entry it).tx.SpendsFrom (env.mempool.txid tx))
include hnoLoop hnoSpender

/-- A submission can be applied, when no entry spends from a new transaction. -/
theorem Admitted.applicable :
    Applicable env.mempool pool submission.m_to_remove
      (submission.workspaces.map (·.addition)) true := by
  obtain ⟨hremovable, -, -⟩ := h.removed horder
  obtain ⟨hrest, hremoved⟩ := horder.removeStaged hremovable
  have htxs : (submission.workspaces.map (·.addition)).map (·.tx) = txns := by
    rw [List.map_map]
    exact h.checked.txs.2
  refine ⟨hremovable, htxs.symm ▸ ?_, fun _ first hfirst it hit hspends => ?_⟩
  · have hnew : ∀ tx ∈ txns, env.mempool.txid tx ∉ pool.txids := by
      intro tx htx
      obtain ⟨_, ha, rfl⟩ := mem_map.mp (htxs.symm ▸ htx)
      exact h.additions_new ha
    refine ⟨fun tx htx hmem => hnew tx htx ((hremoved.txids _).mp hmem).1, h.nodup,
      ?_, h.noConflict, hnoLoop, h.order, fun tx htx it hit => ?_⟩
    · intro tx htx txin htxin hkey
      obtain ⟨ws, hws, rfl⟩ := mem_map.mp (h.checked.txs.1.symm ▸ htx)
      obtain ⟨⟨_, it⟩, hpair, rfl⟩ := mem_map.mp hkey
      obtain ⟨hit, other, hother, hsame⟩ := (hrest.kept.books.nextTx _ it).mp hpair
      obtain ⟨hthere, hkept⟩ := (hremoved.txids it).mp hit
      rw [hremoved.shrunk.tx hit] at hother
      exact hkept (h.conflict_removed horder hws ⟨hthere, txin, htxin, other, hother, hsame⟩)
    · rw [hremoved.shrunk.tx hit]
      exact hnoSpender tx htx it ((hremoved.txids it).mp hit).1
  · obtain ⟨ws, hws, rfl⟩ := mem_map.mp (mem_of_mem_head? hfirst)
    obtain ⟨_, _, _, -, hchecked⟩ := h.checked.of_mem hws
    rw [hchecked.additionTx] at hspends
    exact h.not_ancestor horder hws hit ⟨it, hremovable.2.1 it hit, hspends, .refl⟩

theorem Admitted.inOrder : InOrder env.mempool [] (finalizeSubpackage env pool submission) :=
  horder.apply (h.applicable horder hnoLoop hnoSpender)

end

end Submitted

/-! ## What the calls return -/

/-- A transaction is rejected, or submitted and then perhaps evicted. -/
theorem acceptSingleTransaction_cases (env : AcceptEnv) (pool : CTxMemPool) (args : ATMPArgs)
    (tx : CTransaction) :
    (acceptSingleTransaction env pool args tx).1 = pool ∨
      ∃ submission, checkSingle env pool args tx = .ok submission ∧
        ((acceptSingleTransaction env pool args tx).1 = finalizeSubpackage env pool submission ∨
          (acceptSingleTransaction env pool args tx).1 =
            limitMempoolSize env (finalizeSubpackage env pool submission)) := by
  unfold acceptSingleTransaction
  cases hcheck : checkSingle env pool args tx with
  | error result => exact .inl rfl
  | ok submission =>
    dsimp only
    split
    · exact .inl rfl
    refine .inr ⟨submission, rfl, ?_⟩
    split
    · split <;> exact .inr rfl
    · exact .inl rfl

theorem limitMempoolSize_inOrder {mempool : CTxMemPool} (horder : InOrder env.mempool [] mempool) :
    InOrder env.mempool [] (limitMempoolSize env mempool) ∧
    Left [] mempool (limitMempoolSize env mempool) := by
  obtain ⟨hexpired, hfirst⟩ := horder.expire env.expiry
  obtain ⟨htrimmed, hlast⟩ := hexpired.trimToSize
  exact ⟨htrimmed, hfirst.trans hlast⟩

/-- A transaction that is rejected leaves the mempool as it was, unless it was submitted and
did not survive the trimming that follows. -/
theorem acceptSingleTransaction_rejected {state : TxValidationState}
    {feerate : Option (CFeeRate × List Uint256)}
    (h : (acceptSingleTransaction env pool args tx).2 = .invalid state feerate) :
    (acceptSingleTransaction env pool args tx).1 = pool ∨
      ∃ submission, checkSingle env pool args tx = .ok submission ∧
        env.mempool.txid
          tx ∉ (limitMempoolSize env (finalizeSubpackage env pool submission)).txids := by
  unfold acceptSingleTransaction at h ⊢
  cases hcheck : checkSingle env pool args tx with
  | error result => exact .inl rfl
  | ok submission =>
    obtain ⟨ws, hworkspaces⟩ : ∃ ws, submission.workspaces = [ws] := by
      have htxs := (checkSingle_ok hcheck).1.checked.txs.1
      exact length_eq_one_iff.mp (by rw [← length_map, htxs]; rfl)
    obtain ⟨workspaces, _⟩ := submission
    subst hworkspaces
    rw [hcheck] at h
    dsimp only at h ⊢
    split at h
    · cases h
    split at h
    · split at h
      · cases h
      · next hgone => exact .inr ⟨_, rfl, hgone⟩
    · cases h

/-- Several transactions that are rejected leave the mempool as it was, unless the scripts of
one pass the first check and fail the second. -/
theorem acceptMultipleTransactions_rejected
    (h : (acceptMultipleTransactions env pool args txns).2.m_state ≠ none) :
    (acceptMultipleTransactions env pool args txns).1 = pool ∨
      ∃ submission results, checkMultiple env pool args txns = .ok (submission, results) ∧
        consensusFailures env (getCoin env pool txns) submission.workspaces ≠ [] := by
  unfold acceptMultipleTransactions at h ⊢
  cases hcheck : checkMultiple env pool args txns with
  | error result => exact .inl rfl
  | ok checked =>
    obtain ⟨submission, results⟩ := checked
    rw [hcheck] at h
    dsimp only at h ⊢
    split at h
    · exact absurd rfl h
    unfold submitPackage at h
    split at h
    · exact absurd rfl h
    · next hfailed => exact .inr ⟨submission, results, rfl, hfailed⟩

/-! ## Replacements -/

/-- Some new transaction conflicts with entries or evicts a sibling. -/
def Submission.replacing (submission : Submission) : Bool :=
  submission.workspaces.any fun ws => !ws.m_conflicts.isEmpty

/-- What a mempool holds when new transactions replaced entries of it. -/
structure ReplacedBy (env : AcceptEnv) (pool : CTxMemPool) (txns : List CTransaction)
    (submission : Submission) (after : CTxMemPool) : Prop where
  txs : submission.workspaces.map (·.tx) = txns
  conflicts : ∀ ws ∈ submission.workspaces, ∃ direct : List Uint256,
    (∀ it, it ∈ direct ↔ ConflictsWith pool ws.tx.vin it) ∧
    ∀ it, it ∈ ws.m_conflicts ↔ it ∈ direct ∨
      pool.singleTRUCChecks env.mempool ws.tx ws.m_ancestors direct ws.m_vsize = some (some it)
  removed : ∀ it, it ∈ submission.m_to_remove ↔
    ∃ ws ∈ submission.workspaces, ∃ conflict ∈ ws.m_conflicts, ReflTransGen pool.Spends conflict it
  nodup : after.txids.Nodup
  mem : ∀ it, it ∈ after.txids ↔
    (it ∈ pool.txids ∧ it ∉ submission.m_to_remove) ∨ it ∈ txns.map env.mempool.txid
  old : ∀ it ∈ pool.txids, it ∉ submission.m_to_remove →
    (after.entry it).static = (pool.entry it).static
  new : ∀ ws ∈ submission.workspaces, (after.entry (env.mempool.txid ws.tx)).static =
    (stageAddition env.mempool pool ws.addition).static
  few : submission.m_to_remove.Nodup ∧ submission.m_to_remove.length ≤ MAX_REPLACEMENT_CANDIDATES
  noAncestor : ∀ ws ∈ submission.workspaces, ∀ it ∈ submission.m_to_remove,
    ¬ AncestorOf pool ws.tx it
  fees : FeesFit pool submission.workspaces submission.m_to_remove → pool.feesOf pool.txids +
    env.getFee env.incremental_relay_feerate (totalVsize submission.workspaces) ≤
      after.feesOf after.txids
  unspentTwice : ∀ it ∈ after.txids, ∀ other ∈ after.txids, ∀ txin ∈ (after.entry it).tx.vin,
    ∀ otherin ∈ (after.entry other).tx.vin, txin.prevout = otherin.prevout → it = other
  inputsDistinct : ∀ tx ∈ txns, (tx.vin.map (·.prevout)).Nodup

theorem Admitted.replacedBy (horder : InOrder env.mempool [] pool)
    (h : Admitted env pool args txns submission) (hreplacing : submission.replacing = true) :
    ReplacedBy env pool txns submission (finalizeSubpackage env pool submission) := by
  have happlied := h.applied horder.kept.links.nodup
  obtain ⟨hremovable, hfew, hremoved⟩ := h.removed horder
  have hreplaces : Replaces env pool submission.workspaces submission.m_to_remove := by
    cases h.removal with
    | none hconflicts hnone =>
      obtain ⟨ws, hws, hsome⟩ := any_eq_true.mp hreplacing
      rw [hconflicts ws hws] at hsome
      cases hsome
    | replaces hreplaces => exact hreplaces
  refine ⟨h.checked.txs.1, fun ws hws => ?_, hremoved, happlied.nodup, fun it => ?_, happlied.old,
    fun ws hws => ?_, ⟨hremovable.1, hfew⟩, fun ws hws it => h.not_ancestor horder hws, ?_,
    fun it hit other hother txin htxin otherin hotherin heq =>
      h.noDoubleSpend horder happlied hit hother htxin hotherin heq, fun tx htx => ?_⟩
  · obtain ⟨before, after, direct, -, hchecked⟩ := h.checked.of_mem hws
    refine ⟨direct, (hchecked.mem_direct horder).2, fun it => ?_⟩
    rw [(hchecked.mem_direct horder).2]
    exact hchecked.mem_conflicts horder it
  · rw [happlied.mem, h.additions_txid]
  · obtain ⟨before, after, direct, -, hchecked⟩ := h.checked.of_mem hws
    have hnew := happlied.new ws.addition (mem_map_of_mem hws)
    rw [hchecked.additionTx] at hnew
    exact hnew
  · intro hfit
    have hfees := h.feesOf horder
    have hpays := hreplaces.fees hfit
    omega
  · obtain ⟨ws, hws, rfl⟩ := mem_map.mp (h.checked.txs.1.symm ▸ htx)
    obtain ⟨before, after, direct, -, hchecked⟩ := h.checked.of_mem hws
    exact (checkTransaction_checked hchecked.checked).nodup

/-- A transaction or a package of two that replaces entries does so as a whole, and one that
is rejected changes nothing unless it was submitted before. -/
theorem replacement_exact (horder : InOrder env.mempool [] pool) :
    (∀ tx submission, checkSingle env pool args tx = .ok submission → submission.replacing = true →
      ReplacedBy env pool [tx] submission (finalizeSubpackage env pool submission)) ∧
    (∀ parent child submission results,
      checkMultiple env pool args [parent, child] = .ok (submission, results) →
      submission.replacing = true →
      ReplacedBy env pool [parent, child] submission (finalizeSubpackage env pool submission)) ∧
    (∀ tx state feerate, (acceptSingleTransaction env pool args tx).2 = .invalid state feerate →
      (acceptSingleTransaction env pool args tx).1 = pool ∨
        ∃ submission, checkSingle env pool args tx = .ok submission ∧ env.mempool.txid tx ∉
          (limitMempoolSize env (finalizeSubpackage env pool submission)).txids) ∧
    (∀ txns, (acceptMultipleTransactions env pool args txns).2.m_state ≠ none →
      (acceptMultipleTransactions env pool args txns).1 = pool ∨
        ∃ submission results, checkMultiple env pool args txns = .ok (submission, results) ∧
          consensusFailures env (getCoin env pool txns) submission.workspaces ≠ []) := by
  refine ⟨fun tx submission hcheck hreplacing => ?_,
    fun parent child submission results hcheck hreplacing => ?_,
    fun tx state feerate => acceptSingleTransaction_rejected,
    fun txns => acceptMultipleTransactions_rejected⟩
  · exact (checkSingle_ok hcheck).1.replacedBy horder hreplacing
  · have hlength : 1 < [parent, child].length := Nat.lt_succ_self 1
    exact (checkMultiple_ok hlength hcheck).1.replacedBy horder hreplacing

theorem acceptSingleTransaction_inOrder (horder : InOrder env.mempool [] pool)
    (hnoLoop : ¬ tx.SpendsFrom (env.mempool.txid tx))
    (hnoSpender : ∀ it ∈ pool.txids, ¬ (pool.entry it).tx.SpendsFrom (env.mempool.txid tx)) :
    InOrder env.mempool [] (acceptSingleTransaction env pool args tx).1 := by
  cases acceptSingleTransaction_cases env pool args tx with
  | inl hsame => exact hsame.symm ▸ horder
  | inr hsubmitted =>
    obtain ⟨_, hcheck, hafter⟩ := hsubmitted
    have hinOrder := (checkSingle_ok hcheck).1.inOrder horder
      (fun other hother => mem_singleton.mp hother ▸ hnoLoop)
      (fun other hother => mem_singleton.mp hother ▸ hnoSpender)
    cases hafter with
    | inl hafter => exact hafter.symm ▸ hinOrder
    | inr hafter => exact hafter.symm ▸ (limitMempoolSize_inOrder hinOrder).1

/-! ## A replacement that is lost -/

/-- A node that checks no scripts. Outpoints with large hashes are in its tip, the fee is what
the outputs leave of ten thousand, and the sequence numbers of inputs count as signature
operations. -/
def sampleAccept : AcceptEnv where
  mempool := CTxMemPool.sampleEnv
  wtxid := CTxMemPool.sampleEnv.txid
  require_standard := false
  isStandardTx _ := none
  checkFinalTxAtTip _ := true
  coinsTip outpoint := if 1000 ≤ outpoint.hash then some ⟨⟨50, []⟩, false, 1⟩ else none
  haveCoinInCache _ := false
  checkSequenceLocksAtTip _ _ := true
  checkTxInputs tx _ := .ok (10000 - (tx.vout.map (·.nValue)).sum)
  areInputsStandard _ _ := true
  isWitnessStandard _ _ := true
  getTransactionSigOpCost tx _ := (tx.vin.map (·.nSequence.toNat)).sum
  isDust _ := false
  getFee feerate size := feerate.nSatoshisPerK * size / 1000
  getMinFee _ := ⟨0⟩
  min_relay_feerate := ⟨0⟩
  incremental_relay_feerate := ⟨1000⟩
  policyScriptChecks _ _ := .ok ()
  consensusScriptChecks _ _ := .ok ()
  improvesFeerateDiagram _ _ _ := none
  usage pool := pool.totalTxSize.toNat
  before _ _ := false
  max_size_bytes := 1000000
  expiry := 0

/-- An output with a script that makes transactions large enough. -/
def sampleOutput (nValue : Int) : CTxOut := ⟨nValue, List.replicate 5 0⟩

/-- A transaction that spends an outpoint of the tip, with some outputs. -/
def sampleTx (id : UInt32) (values : List Int) : CTransaction :=
  ⟨[⟨⟨1000, 0⟩, [], 0, []⟩], values.map sampleOutput, 2, id⟩

/-- The mempool with one entry, within the limit of a small mempool. -/
def sampleSmall : AcceptEnv := { sampleAccept with max_size_bytes := 70 }
def samplePool : CTxMemPool :=
    (acceptToMemoryPool sampleSmall {} (sampleTx 1 [5000]) 1 false false).1

theorem samplePool_inOrder : InOrder sampleEnv [] samplePool :=
  @acceptSingleTransaction_inOrder sampleSmall {} _ _ inOrder_empty (by decide) nofun

/-- A transaction that spends an output of the first one. -/
def sampleSpender : CTransaction := ⟨[⟨⟨1, 0⟩, [], 0, []⟩], [sampleOutput 9999], 2, 3⟩

/-- The mempool with an entry of four outputs, and with the child. -/
def childlessPool : CTxMemPool :=
  (acceptToMemoryPool sampleAccept {} (sampleTx 1 [500, 500, 500, 500]) 1 false false).1
def sampleFamily : CTxMemPool :=
  (acceptToMemoryPool sampleAccept childlessPool sampleSpender 1 false false).1

/-- The child is prioritised by the largest amount. -/
def samplePrioritised : CTxMemPool := prioritiseTransaction sampleEnv sampleFamily 3 CAMOUNT_MAX

theorem samplePrioritised_inOrder : InOrder sampleEnv [] samplePrioritised := by
  have hparent : InOrder sampleEnv [] childlessPool :=
    @acceptSingleTransaction_inOrder sampleAccept {} _ _ inOrder_empty (by decide) nofun
  have htxids : childlessPool.txids = [1] := by decide +kernel
  have hfamily : InOrder sampleEnv [] sampleFamily := by
    refine @acceptSingleTransaction_inOrder sampleAccept childlessPool _ _ hparent (by decide)
      fun it hit => ?_
    rw [htxids] at hit
    rw [mem_singleton.mp hit]
    decide +kernel
  exact hfamily.prioritiseTransaction 3 CAMOUNT_MAX

/-- A transaction that pays for the replacement of the entry, but is too large for the mempool,
is rejected, and the entry is gone. Where the fees of the entries that are replaced add up to more
than an amount can be, a transaction that pays less gets in. -/
theorem replacement_lost : (InOrder sampleEnv [] samplePool ∧ samplePool.txids = [1] ∧
    (acceptToMemoryPool sampleSmall samplePool (sampleTx 2 [1000, 1000]) 1 false false).2 =
      .invalid ⟨.txReconsiderable, "mempool full"⟩ (some (⟨101265⟩, [2])) ∧
    (acceptToMemoryPool sampleSmall samplePool (sampleTx 2 [1000, 1000]) 1 false false).1.txids =
      []) ∧
    InOrder sampleEnv [] samplePrioritised ∧
    samplePrioritised.feesOf samplePrioritised.txids = CAMOUNT_MAX + 8000 ∧
    let after := (acceptToMemoryPool sampleAccept samplePrioritised (sampleTx 2 [5000]) 1 false
      false).1
    after.txids = [2] ∧ after.feesOf after.txids = 5000 :=
  ⟨⟨samplePool_inOrder, by decide, by decide, by decide⟩, samplePrioritised_inOrder,
    by decide +kernel, by decide +kernel, by decide +kernel⟩

/-- In a larger mempool the same transaction replaces the entry. -/
theorem replacement_exact_sample : ∃ submission, submission.m_to_remove = [1] ∧
    FeesFit samplePool submission.workspaces submission.m_to_remove ∧
    ReplacedBy sampleAccept samplePool [sampleTx 2 [1000, 1000]] submission
      (finalizeSubpackage sampleAccept samplePool submission) := by
  have hchecked : (match checkSingle sampleAccept samplePool (.singleAccept 1 false false)
      (sampleTx 2 [1000, 1000]) with
    | .ok submission => submission.replacing && decide (submission.m_to_remove = [1] ∧
        newFees submission.workspaces = 8000)
    | .error _ => false) = true := by decide
  cases hcheck : checkSingle sampleAccept samplePool (.singleAccept 1 false false)
      (sampleTx 2 [1000, 1000]) with
  | error result => rw [hcheck] at hchecked; cases hchecked
  | ok submission =>
    rw [hcheck] at hchecked
    obtain ⟨hreplacing, hdecided⟩ := Bool.and_eq_true_iff.mp hchecked
    obtain ⟨hremove, hnew⟩ := of_decide_eq_true hdecided
    have hfit : FeesFit samplePool submission.workspaces submission.m_to_remove := by
      rw [hremove]
      exact ⟨by decide, hnew ▸ by decide, hnew ▸ by decide⟩
    have hexact :=
      @replacement_exact sampleAccept samplePool (.singleAccept 1 false false) samplePool_inOrder
    exact ⟨submission, hremove, hfit, hexact.1 _ submission hcheck hreplacing⟩

end MemPoolAccept

end BtcSharp
