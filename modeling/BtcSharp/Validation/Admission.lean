/-
# What an accepted transaction has passed

Inversion of `PreChecks`, `AcceptSingleTransaction` and `AcceptMultipleTransactions`: from
the success of their checks, the facts that each check has established about the
transactions and the mempool. Later modules use these facts and not the checks.
-/

import BtcSharp.Mempool.Contents
import BtcSharp.Mempool.Limits
import BtcSharp.Validation.MemPoolAccept

namespace BtcSharp

open List Relation

namespace CTxMemPool

variable {env : MempoolEnv} {pool : CTxMemPool}

/-- An entry spends an outpoint that the transaction spends. -/
def ConflictsWith (pool : CTxMemPool) (vin : List CTxIn) (it : Uint256) : Prop :=
  it ∈ pool.txids ∧ ∃ txin ∈ vin, ∃ other ∈ (pool.entry it).tx.vin, other.prevout = txin.prevout

/-- A mempool ancestor of a transaction that is not in the mempool. -/
def AncestorOf (pool : CTxMemPool) (tx : CTransaction) (it : Uint256) : Prop :=
  ∃ parent ∈ pool.txids, tx.SpendsFrom parent ∧ ReflTransGen pool.Spends it parent

theorem Books.lookup_iff (h : pool.Books env) {prevout : COutPoint}
    {it : Uint256} : pool.mapNextTx.lookup prevout = some it ↔
      it ∈ pool.txids ∧ ∃ txin ∈ (pool.entry it).tx.vin, txin.prevout = prevout := by
  rw [← h.nextTx]
  refine ⟨Math.mem_of_lookup, ?_⟩
  intro hmem
  cases hlookup : pool.mapNextTx.lookup prevout with
  | none =>
    have hall := lookup_eq_none_iff.mp hlookup (prevout, it) hmem
    exact absurd hall (by simp)
  | some other =>
    have hother := Math.mem_of_lookup hlookup
    exact congrArg (fun pair => some pair.2) (inj_on_of_nodup_map h.nextTx_nodup hother hmem rfl)

/-- The search for the ancestors of a transaction decides whether it fits in. -/
theorem InOrder.ancestorsDecided (h : InOrder env [] pool) (entry : CTxMemPoolEntry) :
    ∃ found : List Uint256, found.Nodup ∧ (∀ it, it ∈ found ↔ AncestorOf pool entry.tx it) ∧
      ∀ {order : List Uint256 → List Uint256} {limits : MemPoolLimits},
        (∀ its, (order its).Perm its) →
        Decides (Fits env pool limits (entry.getTxSize env) 1 found) found
          (calculateMemPoolAncestorsBy env order pool entry limits) := by
  obtain ⟨found, hnodup, hiff, hdecides⟩ := h.kept.links.decides entry.tx.vin
  refine ⟨found, hnodup, ?_, fun horder => ?_⟩
  · unfold AncestorOf
    rw [← h.linked_eq]
    exact hiff
  · exact hdecides horder

/-- An ancestor search within limits, for a transaction that was staged. -/
theorem InOrder.calculateMemPoolAncestors (h : InOrder env [] pool)
    {entry : CTxMemPoolEntry} {limits : MemPoolLimits} {ancestors : List Uint256}
    (hok : pool.calculateMemPoolAncestors env entry (some limits) true = .ok ancestors) :
    ancestors.Nodup ∧ (∀ it, it ∈ ancestors ↔ AncestorOf pool entry.tx it) ∧
      Fits env pool limits (entry.getTxSize env) 1 ancestors := by
  obtain ⟨_, hnodup, hiff, hdecides⟩ := h.ancestorsDecided entry
  have hfound := @hdecides id limits fun _ => .refl _
  rw [← calculateMemPoolAncestors_eq, hok] at hfound
  cases hfound with
  | ok hfits hperm =>
    exact ⟨hperm.nodup_iff.mpr hnodup, fun it => hperm.mem_iff.trans (hiff it), hfits.perm hperm⟩

/-- A sibling that may be evicted is a child of an ancestor. -/
theorem InOrder.sibling (h : InOrder env [] pool) {tx : CTransaction}
    {ancestors direct : List Uint256} {vsize : Nat} {sibling : Uint256}
    (hancestors : ∀ it ∈ ancestors, AncestorOf pool tx it)
    (hsibling : pool.singleTRUCChecks env tx ancestors direct vsize = some (some sibling)) :
    ∃ parent ∈ ancestors, pool.Spends parent sibling := by
  obtain ⟨parent, hparent, child, hchild, rfl⟩ := singleTRUCChecks_sibling hsibling
  obtain ⟨_, hother, -, hpath⟩ := hancestors parent hparent
  rw [← h.linked_eq] at hpath ⊢
  have hlinked :=
    (h.kept.links.children_iff parent (h.kept.links.reach_mem hother hpath) child).mp hchild
  rw [h.kept.books.hash child hlinked.1]
  exact ⟨parent, hparent, hlinked⟩

end CTxMemPool

namespace MemPoolAccept

open CTxMemPool

variable {env : AcceptEnv} {pool : CTxMemPool} {added txns : List CTransaction} {args : ATMPArgs}
  {tx : CTransaction} {ws : Workspace} {direct : List Uint256} {submission : Submission}

theorem mapError_ok {ε ε' α : Type} {first : Except ε α} {change : ε → ε'} {value : α}
    (h : first.mapError change = .ok value) : first = .ok value := by
  cases first with
  | error err => cases h
  | ok result => exact congrArg _ (Except.ok.inj h)

/-! ## PreChecks -/

/-- The sibling that is evicted for a version 3 transaction joins its conflicts. -/
inductive Conflicts (env : AcceptEnv) (pool : CTxMemPool) (args : ATMPArgs)
    (direct : List Uint256) (ws : Workspace) : Prop
  | direct (htruc : pool.singleTRUCChecks env.mempool ws.tx ws.m_ancestors direct ws.m_vsize = none)
      (hconflicts : ws.m_conflicts = direct)
      (hiters : ws.m_iters_conflicting = direct.filter (· ∈ pool.txids))
  | sibling (sibling : Uint256)
      (htruc : pool.singleTRUCChecks env.mempool ws.tx ws.m_ancestors direct ws.m_vsize =
        some (some sibling))
      (hallowed : args.m_allow_sibling_eviction = true)
      (hconflicts : ws.m_conflicts = direct.insert sibling)
      (hiters : ws.m_iters_conflicting = (direct.filter (· ∈ pool.txids)).insert sibling)

/-- What a transaction that passed `PreChecks` has passed, with its direct conflicts. -/
structure PreChecked (env : AcceptEnv) (pool : CTxMemPool) (added : List CTransaction)
    (args : ATMPArgs) (tx : CTransaction) (direct : List Uint256) (ws : Workspace) : Prop where
  checked : checkTransaction tx = .ok ()
  notCoinBase : tx.isCoinBase = false
  newWtxid : existsWtxid env pool (env.wtxid tx) = false
  new : env.mempool.txid tx ∉ pool.txids
  available : ∀ txin ∈ tx.vin, (getCoin env pool added txin.prevout).isSome = true
  found : findConflicts env pool args.m_allow_replacement tx.vin [] = .ok direct
  wsTx : ws.tx = tx
  additionTx : ws.addition.tx = tx
  vsize : ws.m_vsize = (stageAddition env.mempool pool ws.addition).getTxSize env.mempool
  fees : ws.m_modified_fees = (stageAddition env.mempool pool ws.addition).m_modified_fee
  sigops : ws.addition.sigops_cost ≤ MAX_STANDARD_TX_SIGOPS_COST
  ancestors : findAncestors env pool args { ws with m_conflicts := direct } = .ok ws.m_ancestors
  conflicts : Conflicts env pool args direct ws
  disjoint : pool.entriesAndTxidsDisjoint env.mempool ws.m_ancestors ws.m_conflicts = true

theorem checkLoose_ok (h : checkLoose env pool tx = .ok ()) :
    checkTransaction tx = .ok () ∧ tx.isCoinBase = false ∧
      existsWtxid env pool (env.wtxid tx) = false ∧ env.mempool.txid tx ∉ pool.txids := by
  unfold checkLoose at h
  cases hchecked : checkTransaction tx with
  | error err => rw [hchecked] at h; cases h
  | ok done =>
    rw [hchecked] at h
    dsimp only at h
    split at h
    · cases h
    next hcoinbase =>
    split at h
    · cases h
    split at h
    · cases h
    split at h
    · cases h
    split at h
    · cases h
    next hwtxid =>
    split at h
    · cases h
    · next hnew =>
      exact ⟨rfl, Bool.eq_false_of_not_eq_true hcoinbase, Bool.eq_false_of_not_eq_true hwtxid, hnew⟩

theorem checkInputs_ok {view : COutPoint → Option Coin} {fees : Int}
    (h : checkInputs env tx view = .ok fees) :
      ∀ txin ∈ tx.vin, (view txin.prevout).isSome = true := by
  unfold checkInputs at h
  split at h
  · split at h <;> cases h
  next hall =>
  intro txin htxin
  apply Option.isSome_iff_ne_none.mpr
  intro hnone
  exact hall (any_eq_true.mpr ⟨txin, htxin, by rw [hnone]; rfl⟩)

theorem checkFees_ok (h : checkFees env pool args ws = .ok ()) :
    ws.addition.sigops_cost ≤ MAX_STANDARD_TX_SIGOPS_COST := by
  unfold checkFees at h
  split at h
  · cases h
  split at h
  · cases h
  · next hsigops => exact Nat.not_lt.mp hsigops

theorem checkTruc_ok {staged : Workspace} (h : checkTruc env pool args staged = .ok ws)
    (hiters : staged.m_iters_conflicting = staged.m_conflicts.filter (· ∈ pool.txids)) :
    ∃ m_conflicts m_iters_conflicting m_sibling_eviction, ws = { staged with
        m_conflicts := m_conflicts
        m_iters_conflicting := m_iters_conflicting
        m_sibling_eviction := m_sibling_eviction } ∧
      Conflicts env pool args staged.m_conflicts ws := by
  unfold checkTruc at h
  split at h
  · next htruc =>
    cases h
    exact ⟨_, _, _, rfl, .direct htruc rfl hiters⟩
  · cases h
  next sibling htruc =>
  split at h
  · next hallowed =>
    cases h
    exact ⟨_, _, _, rfl, .sibling sibling htruc hallowed rfl (by rw [← hiters])⟩
  · cases h

/-- A transaction that passes `PreChecks` has passed each of its checks. -/
theorem preChecks_ok (h : preChecks env pool added args tx = .ok ws) :
    ∃ direct, PreChecked env pool added args tx direct ws := by
  unfold preChecks at h
  split at h
  · cases h
  next staged hstaged =>
  split at h
  · cases h
  next result hresult =>
  cases h
  obtain ⟨⟨⟩, hloose, hstaged⟩ := except_bind_ok hstaged
  obtain ⟨direct, hdirect, hstaged⟩ := except_bind_ok hstaged
  obtain ⟨_, hinputs, hstaged⟩ := except_bind_ok hstaged
  cases hstaged
  obtain ⟨⟨⟩, hfees, hresult⟩ := except_bind_ok hresult
  obtain ⟨_, hancestors, hresult⟩ := except_bind_ok hresult
  obtain ⟨_, htruc, hresult⟩ := except_bind_ok hresult
  split at hresult
  · next hdisjoint =>
    cases hresult
    obtain ⟨_, _, _, rfl, hconflicts⟩ := checkTruc_ok htruc rfl
    obtain ⟨hchecked, hcoinbase, hwtxid, hnew⟩ := checkLoose_ok hloose
    exact ⟨direct, hchecked, hcoinbase, hwtxid, hnew, checkInputs_ok hinputs, hdirect, rfl,
      rfl, rfl, rfl, checkFees_ok hfees, hancestors, hconflicts, hdisjoint⟩
  · cases hresult

/-! ## Conflicts and ancestors -/

theorem findConflicts_ok (hbooks : pool.Books env.mempool) {allow_replacement : Bool}
    {vin : List CTxIn} : ∀ {found result : List Uint256},
      findConflicts env pool allow_replacement vin found = .ok result →
      (found.Nodup → result.Nodup) ∧ ∀ it, it ∈ result ↔ it ∈ found ∨
      ConflictsWith pool vin it := by
  induction vin with
  | nil =>
    intro found result h
    cases h
    exact ⟨id, fun it => (or_iff_left fun ⟨_, txin, htxin, _⟩ => not_mem_nil htxin).symm⟩
  | cons txin vin ih =>
    intro found result h
    unfold findConflicts at h
    have hsplit : ∀ it, ConflictsWith pool (txin :: vin) it ↔
        pool.mapNextTx.lookup txin.prevout = some it ∨ ConflictsWith pool vin it := by
      intro it
      rw [hbooks.lookup_iff]
      unfold ConflictsWith
      rw [← and_or_left]
      exact and_congr_right fun _ => by rw [exists_mem_cons_iff]
    cases hlookup : pool.mapNextTx.lookup txin.prevout with
    | none =>
      rw [hlookup] at h
      obtain ⟨hnodup, hmem⟩ := ih h
      refine ⟨hnodup, fun it => (hmem it).trans (or_congr_right ?_)⟩
      rw [hsplit, hlookup]
      exact (or_iff_right fun hnone => Option.some_ne_none _ hnone.symm).symm
    | some conflicting =>
      rw [hlookup] at h
      dsimp only at h
      split at h
      · cases h
      have hthere := ((hbooks.lookup_iff).mp hlookup).1
      rw [hbooks.hash conflicting hthere] at h
      obtain ⟨hnodup, hmem⟩ := ih h
      refine ⟨fun hfound => hnodup hfound.insert, fun it => ?_⟩
      rw [hmem, hsplit, hlookup, mem_insert_iff, Option.some_inj, eq_comm, or_assoc, or_left_comm]

theorem findAncestors_ok {ancestors : List Uint256}
    (h : findAncestors env pool args ws = .ok ancestors) :
    ∃ limits, pool.calculateMemPoolAncestors env.mempool
        (stageAddition env.mempool pool ws.addition) (some limits) true = .ok ancestors ∧
      (limits = maybeRbfLimits env pool args ws ∨
        limits = cpfpCarveOutLimits (maybeRbfLimits env pool args ws) ∧
          args.m_allow_carveouts = true ∧ ws.m_vsize ≤ EXTRA_DESCENDANT_TX_SIZE_LIMIT) := by
  unfold findAncestors at h
  dsimp only at h
  split at h
  · next hfound =>
    cases h
    exact ⟨_, hfound, .inl rfl⟩
  split at h
  · cases h
  next hcarveouts =>
  split at h
  · cases h
  next hsmall =>
  split at h
  · next hfound =>
    cases h
    exact ⟨_, hfound, .inr ⟨rfl, by simpa using hcarveouts,
      Nat.not_lt.mp fun hlarge => hsmall (.inl hlarge)⟩⟩
  · cases h

section Checked

variable (horder : InOrder env.mempool [] pool) (h : PreChecked env pool added args tx direct ws)
include horder h

theorem PreChecked.mem_direct : direct.Nodup ∧ ∀ it, it ∈ direct ↔
    ConflictsWith pool tx.vin it := by
  obtain ⟨hnodup, hmem⟩ := findConflicts_ok horder.kept.books h.found
  exact ⟨hnodup nodup_nil, fun it => (hmem it).trans (or_iff_right not_mem_nil)⟩

theorem PreChecked.mem_ancestors :
    ws.m_ancestors.Nodup ∧ ∀ it, it ∈ ws.m_ancestors ↔ AncestorOf pool tx it := by
  obtain ⟨_, hfound, -⟩ := findAncestors_ok h.ancestors
  obtain ⟨hnodup, hmem, -⟩ := horder.calculateMemPoolAncestors hfound
  refine ⟨hnodup, fun it => ?_⟩
  rw [hmem, stageAddition_tx, h.additionTx]

/-- The conflicts are the entries that spend what the transaction spends, and the sibling
that is evicted. -/
theorem PreChecked.mem_conflicts (it : Uint256) : it ∈ ws.m_conflicts ↔
    ConflictsWith pool tx.vin it ∨ pool.singleTRUCChecks env.mempool ws.tx ws.m_ancestors direct
      ws.m_vsize = some (some it) := by
  have hdirect := (h.mem_direct horder).2 it
  cases h.conflicts with
  | direct htruc hconflicts hiters =>
    rw [hconflicts, hdirect, htruc]
    exact (or_iff_left fun hsome => Option.some_ne_none _ hsome.symm).symm
  | sibling sibling htruc hallowed hconflicts hiters =>
    rw [hconflicts, mem_insert_iff, hdirect, htruc, Option.some_inj, Option.some_inj,
      or_comm, eq_comm]

theorem PreChecked.conflicts_there {it : Uint256} (hit : it ∈ ws.m_conflicts) :
    it ∈ pool.txids := by
  cases (h.mem_conflicts horder it).mp hit with
  | inl hconflict => exact hconflict.1
  | inr hsibling =>
    obtain ⟨_, hparent, hchild⟩ := horder.sibling
      (fun other hother => ((h.mem_ancestors horder).2 other).mp hother) (h.wsTx ▸ hsibling)
    exact hchild.2.1

theorem PreChecked.mem_iters (it : Uint256) : it ∈ ws.m_iters_conflicting ↔
    it ∈ ws.m_conflicts := by
  have hthere : it ∈ ws.m_conflicts → it ∈ pool.txids := h.conflicts_there horder
  cases h.conflicts with
  | direct htruc hconflicts hiters =>
    rw [hconflicts] at hthere ⊢
    rw [hiters, mem_filter, decide_eq_true_eq]
    exact and_iff_left_of_imp hthere
  | sibling sibling htruc hallowed hconflicts hiters =>
    rw [hconflicts] at hthere ⊢
    rw [hiters, mem_insert_iff, mem_insert_iff, mem_filter, decide_eq_true_eq]
    exact or_congr_right (and_iff_left_of_imp fun hit => hthere (mem_insert_of_mem hit))

/-- No conflict is an ancestor of the transaction. -/
theorem PreChecked.not_ancestor {it : Uint256} (hit : it ∈ ws.m_conflicts) :
    ¬ AncestorOf pool tx it := by
  intro hancestor
  have hmem := ((h.mem_ancestors horder).2 it).mpr hancestor
  have hnot := all_eq_true.mp h.disjoint it hmem
  rw [horder.kept.books.hash it (h.conflicts_there horder hit)] at hnot
  exact of_decide_eq_true hnot hit

end Checked

/-! ## Replacements -/

/-- The sums of the fees that are compared can be represented. -/
structure FeesFit (pool : CTxMemPool) (workspaces : List Workspace) (m_to_remove : List Uint256) :
    Prop where
  old : IsAmount (pool.feesOf m_to_remove)
  new : IsAmount (newFees workspaces)
  difference : IsAmount (newFees workspaces - pool.feesOf m_to_remove)

/-- Entries that may be replaced for new transactions: they are what their conflicts evict,
one new transaction alone adds no parent that is not spent by one of them and several have no
parents in the mempool, and the fees pay for it. -/
structure Replaces (env : AcceptEnv) (pool : CTxMemPool) (workspaces : List Workspace)
    (m_to_remove : List Uint256) : Prop where
  entries : ∃ iters_conflicting, pool.getEntriesForConflicts iters_conflicting = some m_to_remove ∧
    ∀ it, it ∈ iters_conflicting ↔ ∃ ws ∈ workspaces, it ∈ ws.m_iters_conflicting
  parents : (∃ ws, workspaces = [ws] ∧ pool.hasNoNewUnconfirmed ws.tx m_to_remove = true) ∨
    ∀ ws ∈ workspaces, ws.m_ancestors = []
  fees : FeesFit pool workspaces m_to_remove → pool.feesOf m_to_remove +
    env.getFee env.incremental_relay_feerate (totalVsize workspaces) ≤ newFees workspaces

theorem FeesFit.paysForRBF_le {workspaces : List Workspace} {m_to_remove : List Uint256}
    (hfit : FeesFit pool workspaces m_to_remove) {relay_fee : Int}
    (h : paysForRBF (conflictingFees pool m_to_remove) (totalModifiedFees workspaces) relay_fee =
      true) : pool.feesOf m_to_remove + relay_fee ≤ newFees workspaces := by
  have hboth := Bool.and_eq_true_iff.mp h
  have hle := of_decide_eq_true hboth.2
  rw [conflictingFees, totalModifiedFees, hfit.old.toAmount_eq, hfit.new.toAmount_eq,
    hfit.difference.toAmount_eq] at hle
  omega

variable {m_to_remove : List Uint256} {workspaces : List Workspace}

theorem replacementChecks_ok
    (h : replacementChecks env pool ws = .ok m_to_remove) : Replaces env pool [ws] m_to_remove := by
  unfold replacementChecks at h
  dsimp only at h
  split at h
  · cases h
  split at h
  · cases h
  next all_conflicts hentries =>
  split at h
  · cases h
  next hparents =>
  split at h
  · cases h
  next hfees =>
  cases h
  refine ⟨⟨_, hentries, fun it => ?_⟩, .inl ⟨ws, rfl, by simpa using hparents⟩, ?_⟩
  · exact ⟨fun hit => ⟨ws, mem_singleton.mpr rfl, hit⟩,
      fun ⟨other, hother, hit⟩ => mem_singleton.mp hother ▸ hit⟩
  · intro hfit
    have hone : newFees [ws] = ws.m_modified_fees := by simp [newFees]
    have htotal : totalModifiedFees [ws] = ws.m_modified_fees := hfit.new.toAmount_eq.trans hone
    have hsize : totalVsize [ws] = ws.m_vsize := by simp [totalVsize]
    rw [hsize]
    apply hfit.paysForRBF_le
    rw [htotal]
    simpa using hfees

theorem packageReplacementChecks_ok (h : packageReplacementChecks env pool txns workspaces =
    .ok m_to_remove) : Replaces env pool workspaces m_to_remove := by
  unfold packageReplacementChecks at h
  split at h
  · next parent_ws child_ws =>
    split at h
    · cases h
    split at h
    · cases h
    next hancestors =>
    split at h
    · cases h
    next all_conflicts hentries =>
    split at h
    · cases h
    next hfees =>
    split at h
    · cases h
    split at h
    · cases h
    cases h
    have hnone : ∀ ws ∈ [parent_ws, child_ws], ws.m_ancestors = [] := by
      intro ws hws
      have hall := any_eq_false.mp (Bool.eq_false_of_not_eq_true hancestors) ws hws
      simpa using hall
    refine ⟨⟨_, hentries, fun it => ?_⟩, .inr hnone, fun hfit => ?_⟩
    · simp
    · exact hfit.paysForRBF_le (by simpa using hfees)
  · cases h

/-! ## Submissions -/

/-- Every transaction of a list passed `PreChecks`, with those before it in view. -/
inductive PreCheckedAll (env : AcceptEnv) (pool : CTxMemPool) (args : ATMPArgs) :
    List CTransaction → List CTransaction → List Workspace → Prop
  | nil (added : List CTransaction) : PreCheckedAll env pool args added [] []
  | cons {added : List CTransaction} {tx : CTransaction} {direct : List Uint256} {ws : Workspace}
      {txns : List CTransaction} {workspaces : List Workspace}
      (first : PreChecked env pool added args tx direct ws)
      (rest : PreCheckedAll env pool args (added ++ [tx]) txns workspaces) :
      PreCheckedAll env pool args added (tx :: txns) (ws :: workspaces)

theorem preChecksLoop_ok : ∀ {txns added : List CTransaction} {workspaces : List Workspace},
    preChecksLoop env pool args txns added = .ok workspaces →
      PreCheckedAll env pool args added txns workspaces := by
  intro txns
  induction txns with
  | nil =>
    intro added workspaces h
    cases h
    exact .nil added
  | cons tx txns ih =>
    intro added workspaces h
    obtain ⟨_, hws, h⟩ := except_bind_ok h
    obtain ⟨_, hfirst⟩ := preChecks_ok (mapError_ok hws)
    split at h
    · cases h
    obtain ⟨_, hrest, h⟩ := except_bind_ok h
    cases h
    exact .cons hfirst (ih hrest)

theorem PreCheckedAll.txs (h : PreCheckedAll env pool args added txns workspaces) :
    workspaces.map (·.tx) = txns ∧ workspaces.map (·.addition.tx) = txns := by
  induction h with
  | nil => exact ⟨rfl, rfl⟩
  | cons first rest ih =>
    rw [map_cons, map_cons, ih.1, ih.2, first.wsTx, first.additionTx]
    exact ⟨rfl, rfl⟩

theorem PreCheckedAll.of_mem (h : PreCheckedAll env pool args added txns workspaces)
    (hws : ws ∈ workspaces) : ∃ before after direct, txns = before ++ ws.tx :: after ∧
      PreChecked env pool (added ++ before) args ws.tx direct ws := by
  induction h with
  | nil => cases hws
  | @cons added tx direct first txns workspaces hfirst hrest ih =>
    cases mem_cons.mp hws with
    | inl heq =>
      subst heq
      rw [hfirst.wsTx]
      exact ⟨[], txns, direct, rfl, by rw [append_nil]; exact hfirst⟩
    | inr hrest =>
      obtain ⟨before, after, direct, htxns, hchecked⟩ := ih hrest
      refine ⟨tx :: before, after, direct, by rw [htxns]; rfl, ?_⟩
      rw [append_cons]
      exact hchecked

/-- What new transactions remove: nothing if they do not conflict with entries. -/
inductive Removal (env : AcceptEnv) (pool : CTxMemPool) (submission : Submission) : Prop
  | none (hconflicts : ∀ ws ∈ submission.workspaces, ws.m_conflicts = [])
      (hnone : submission.m_to_remove = [])
  | replaces (hreplaces : Replaces env pool submission.workspaces submission.m_to_remove)

/-- Transactions that passed all checks before `FinalizeSubpackage`. -/
structure Admitted (env : AcceptEnv) (pool : CTxMemPool) (args : ATMPArgs)
    (txns : List CTransaction) (submission : Submission) : Prop where
  checked : PreCheckedAll env pool args [] txns submission.workspaces
  nodup : (txns.map env.mempool.txid).Nodup
  order : txns.Pairwise fun first second => ¬ first.SpendsFrom (env.mempool.txid second)
  noConflict : txns.Pairwise fun first second =>
    ∀ txin ∈ second.vin, ∀ other ∈ first.vin, other.prevout ≠ txin.prevout
  removal : Removal env pool submission

theorem findRemovals_ok (h : findRemovals env pool ws = .ok m_to_remove) :
    Removal env pool ⟨[ws], m_to_remove⟩ := by
  unfold findRemovals at h
  split at h
  · next hempty =>
    cases h
    refine .none (fun other hother => ?_) rfl
    rw [mem_singleton.mp hother]
    exact isEmpty_iff.mp hempty
  · exact .replaces (replacementChecks_ok (mapError_ok h))

theorem checkSingle_ok (h : checkSingle env pool args tx = .ok submission) :
    Admitted env pool args [tx] submission ∧
      env.policyScriptChecks tx (getCoin env pool []) = .ok () ∧
      env.consensusScriptChecks tx (getCoin env pool []) = .ok () := by
  obtain ⟨_, hws, h⟩ := except_bind_ok h
  obtain ⟨_, hchecked⟩ := preChecks_ok (mapError_ok hws)
  split at h
  · cases h
  split at h
  · cases h
  obtain ⟨_, hremove, h⟩ := except_bind_ok h
  obtain ⟨⟨⟩, hpolicy, h⟩ := except_bind_ok h
  obtain ⟨⟨⟩, hconsensus, h⟩ := except_bind_ok h
  cases h
  exact ⟨⟨.cons hchecked (.nil _), nodup_singleton _, pairwise_singleton _ _,
    pairwise_singleton _ _, findRemovals_ok (mapError_ok hremove)⟩, mapError_ok hpolicy,
    mapError_ok hconsensus⟩

/-- What several transactions have passed besides. -/
structure CheckedTogether (env : AcceptEnv) (pool : CTxMemPool) (args : ATMPArgs)
    (txns : List CTransaction) (submission : Submission) : Prop where
  noLoop : ∀ tx ∈ txns, ¬ tx.SpendsFrom (env.mempool.txid tx)
  truc : ∀ ws ∈ submission.workspaces,
    pool.packageTRUCChecks env.mempool ws.tx ws.m_vsize txns ws.m_ancestors = true
  limits : pool.checkPackageLimits env.mempool txns (totalVsize submission.workspaces) = true
  scripts : ∀ ws ∈ submission.workspaces,
    env.policyScriptChecks ws.tx (getCoin env pool txns) = .ok ()

theorem policyScriptsLoop_ok {view : COutPoint → Option Coin} {rest : List Workspace} :
    ∀ {before results : List (Uint256 × MempoolAcceptResult)},
      policyScriptsLoop env view args workspaces rest before = .ok results →
      ∀ ws ∈ rest, env.policyScriptChecks ws.tx view = .ok () := by
  induction rest with
  | nil => exact fun _ ws hws => absurd hws not_mem_nil
  | cons first rest ih =>
    intro before results h ws hws
    rw [policyScriptsLoop] at h
    split at h
    · cases h
    next hfirst =>
    cases mem_cons.mp hws with
    | inl heq => exact heq ▸ hfirst
    | inr hrest => exact ih h ws hrest

theorem packageMempoolChecks_ok
    (h : packageMempoolChecks env pool txns workspaces = .ok m_to_remove) :
    pool.checkPackageLimits env.mempool txns (totalVsize workspaces) = true ∧
      Removal env pool ⟨workspaces, m_to_remove⟩ := by
  unfold packageMempoolChecks at h
  split at h
  · cases h
  next hlimits =>
  refine ⟨by simpa using hlimits, ?_⟩
  split at h
  · next hempty =>
    cases h
    exact .none (fun ws hws => isEmpty_iff.mp (all_eq_true.mp hempty ws hws)) rfl
  · exact .replaces (packageReplacementChecks_ok h)

theorem checkMultiple_ok {results : List (Uint256 × MempoolAcceptResult)}
    (hlength : 1 < txns.length) (h : checkMultiple env pool args txns = .ok (submission, results)) :
    Admitted env pool args txns submission ∧ CheckedTogether env pool args txns submission := by
  unfold checkMultiple at h
  split at h
  · cases h
  next hwellFormed =>
  obtain ⟨_, hworkspaces, h⟩ := except_bind_ok h
  split at h
  · next htruc =>
    obtain ⟨⟨⟩, -, h⟩ := except_bind_ok h
    obtain ⟨_, hremove, h⟩ := except_bind_ok h
    split at h
    · cases h
    obtain ⟨results, hresults, h⟩ := except_bind_ok h
    cases h
    have hform := isWellFormedPackage_none hwellFormed
    have hremove := mapError_ok hremove
    unfold findPackageRemovals at hremove
    rw [if_pos hlength] at hremove
    obtain ⟨hlimits, hremove⟩ := packageMempoolChecks_ok hremove
    exact ⟨⟨preChecksLoop_ok hworkspaces, hform.nodup, hform.order, hform.noConflict,
      hremove⟩, ⟨hform.noLoop, all_eq_true.mp htruc, hlimits,
      policyScriptsLoop_ok hresults⟩⟩
  · cases h

/-- The checks for one transaction, or those for several, end in a submission. -/
inductive Passes (env : AcceptEnv) (pool : CTxMemPool) (args : ATMPArgs) :
    List CTransaction → Submission → Prop
  | single {tx : CTransaction} {submission : Submission}
      (hcheck : checkSingle env pool args tx = .ok submission) :
        Passes env pool args [tx] submission
  | multiple {txns : List CTransaction} {submission : Submission}
      {results : List (Uint256 × MempoolAcceptResult)} (hlength : 1 < txns.length)
      (hcheck : checkMultiple env pool args txns = .ok (submission, results)) :
      Passes env pool args txns submission

theorem Passes.admitted (h : Passes env pool args txns submission) :
    Admitted env pool args txns submission := by
  cases h with
  | single hcheck => exact (checkSingle_ok hcheck).1
  | multiple hlength hcheck => exact (checkMultiple_ok hlength hcheck).1

theorem Passes.together (h : Passes env pool args txns submission) :
    (∃ tx, txns = [tx]) ∨ CheckedTogether env pool args txns submission := by
  cases h with
  | @single tx => exact .inl ⟨tx, rfl⟩
  | multiple hlength hcheck => exact .inr (checkMultiple_ok hlength hcheck).2

end MemPoolAccept

end BtcSharp
