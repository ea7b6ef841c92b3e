/-
# Chains of unconfirmed transactions stay within the limits

The totals over ancestors and descendants, as sums over the graph of the entries, along runs
without reorganisations. A submission adds its transactions to the totals of the descendants
of their ancestors and takes away what is replaced. The limits are checked before anything is
replaced, and relaxed when there is one direct conflict; that the relaxed check is enough
needs every ancestor of the new transaction to be an ancestor of the conflict, which the code
does not check.
-/

import BtcSharp.Validation.MempoolRun

namespace BtcSharp

open Int List Math Relation

namespace CTxMemPool

/-- The total over an entry and its ancestors. -/
noncomputable def ancestorTotal (env : MempoolEnv) (pool : CTxMemPool) (q : Quantity)
    (it : Uint256) : Int :=
  relTotal pool.nodes (TransGen pool.Spends) (pool.weight env q) it

/-- The total over an entry and its descendants. -/
noncomputable def descendantTotal (env : MempoolEnv) (pool : CTxMemPool) (q : Quantity)
    (it : Uint256) : Int :=
  relTotal pool.nodes (flip (TransGen pool.Spends)) (pool.weight env q) it

/-- The totals of all entries have these bounds. -/
def Bounded (env : MempoolEnv) (pool : CTxMemPool) (q : Quantity)
    (ancestorBound descendantBound : Int) : Prop :=
  ∀ it ∈ pool.txids, ancestorTotal env pool q it ≤ ancestorBound ∧
    descendantTotal env pool q it ≤ descendantBound

/-- The totals are within the limits, where one more descendant is allowed, of a small
size. -/
structure WithinLimits (env : MempoolEnv) (pool : CTxMemPool) : Prop where
  count : Bounded env pool .count env.limits.ancestor_count (env.limits.descendant_count + 1)
  size : Bounded env pool .size env.limits.ancestor_size_vbytes
    (env.limits.descendant_size_vbytes + EXTRA_DESCENDANT_TX_SIZE_LIMIT)

section

variable {env : MempoolEnv} {pool after : CTxMemPool} {removed ancestors : List Uint256}
  {txns : List CTransaction} {q : Quantity} {ancestorBound descendantBound : Int} {it : Uint256}

theorem InOrder.descendantTotal_eq (h : InOrder env [] pool) (hit : it ∈ pool.txids)
    (hq : q ≠ .fees) (hsigOps : q ≠ .sigOps) :
    descendantTotal env pool q it = (pool.entry it).withDescendants.get q := by
  unfold descendantTotal
  rw [h.kept.exact.descendants it hit q hsigOps (sound_of_ne hq), h.linked_eq]

/-- A package within the limits fits in with all its ancestors. -/
theorem InOrder.checkPackageLimits_true (h : InOrder env [] pool) {total_vsize : Int}
    (hok : pool.checkPackageLimits env txns total_vsize = true) :
    countFits txns.length env.limits.ancestor_count = true ∧
      countFits txns.length env.limits.descendant_count = true ∧
      total_vsize ≤ env.limits.ancestor_size_vbytes ∧
      total_vsize ≤ env.limits.descendant_size_vbytes ∧
      ∃ ancestors : List Uint256, ancestors.Nodup ∧
        (∀ it, it ∈ ancestors ↔ ∃ tx ∈ txns, AncestorOf pool tx it) ∧
        Fits env pool env.limits total_vsize txns.length ancestors := by
  unfold checkPackageLimits at hok
  simp only [Bool.and_eq_true, decide_eq_true_eq] at hok
  obtain ⟨⟨⟨⟨hancestorCount, hdescendantCount⟩, hancestorSize⟩, hdescendantSize⟩, hsearch⟩ := hok
  refine ⟨hancestorCount, hdescendantCount, hancestorSize, hdescendantSize, ?_⟩
  obtain ⟨found, hnodup, hiff, hdecides⟩ :=
    @Links.decides env pool h.kept.links (txns.flatMap (·.vin))
  have hfound := @hdecides id env.limits total_vsize txns.length fun _ => .refl _
  refine ⟨found, hnodup, fun it => ?_, ?_⟩
  · rw [hiff, h.linked_eq]
    constructor
    · rintro ⟨parent, hin, ⟨txin, htxin, heq⟩, hpath⟩
      obtain ⟨tx, htx, htxin⟩ := mem_flatMap.mp htxin
      exact ⟨tx, htx, parent, hin, ⟨txin, htxin, heq⟩, hpath⟩
    · rintro ⟨tx, htx, parent, hin, ⟨txin, htxin, heq⟩, hpath⟩
      exact ⟨parent, hin, ⟨txin, mem_flatMap.mpr ⟨tx, htx, htxin⟩, heq⟩, hpath⟩
  cases hstaged : searchParents pool (some env.limits) txns.length (txns.flatMap (·.vin)) [] with
  | error err => rw [hstaged] at hsearch; cases hsearch
  | ok staged =>
    rw [hstaged] at hsearch hfound
    exact Decides.of_isOk hfound hsearch

/-- Entries that leave only take from the totals. -/
theorem Shrunk.totals_le (hshrunk : Shrunk pool after) (hq : q ≠ .fees) (hit : it ∈ after.txids) :
    ancestorTotal env after q it ≤ ancestorTotal env pool q it ∧
      descendantTotal env after q it ≤ descendantTotal env pool q it := by
  have hweight : ∀ it ∈ after.txids, after.weight env q it = pool.weight env q it := fun it hit =>
    congrFun (CTxMemPoolEntry.quantity_of_static (hshrunk.static it hit) env) q
  have hpath : ∀ first last, TransGen after.Spends first last → TransGen pool.Spends first last :=
    .mono fun _ _ => hshrunk.spends
  have hnode : ∀ a ∈ after.nodes, a ∈ pool.nodes := fun a ha =>
    mem_nodes.mpr (hshrunk.txids a (mem_nodes.mp ha))
  have hle : ∀ {counts counts' : Uint256 → Uint256 → Prop}, (∀ a, counts' a it → counts a it) →
      relTotal after.nodes counts' (after.weight env q) it ≤
        relTotal pool.nodes counts (pool.weight env q) it := fun hcounts =>
    relTotal_mono_le (fun a ha hcount => ⟨hnode a ha, hcounts a hcount⟩) (hweight it hit)
      (fun a ha _ => hweight a (mem_nodes.mp ha)) (weight_nonneg hq) (weight_nonneg hq)
  exact ⟨hle fun a => hpath a it,
    @hle (flip (TransGen pool.Spends)) (flip (TransGen after.Spends)) fun a => hpath it a⟩

theorem Bounded.shrunk (h : Bounded env pool q ancestorBound descendantBound) (hq : q ≠ .fees)
    (hshrunk : Shrunk pool after) : Bounded env after q ancestorBound descendantBound := by
  intro it hit
  obtain ⟨hancestors, hdescendants⟩ := h it (hshrunk.txids it hit)
  obtain ⟨hancestorLe, hdescendantLe⟩ := @Shrunk.totals_le env _ _ _ _ hshrunk hq hit
  exact ⟨le_trans hancestorLe hancestors, le_trans hdescendantLe hdescendants⟩

/-- What some entries add to a total. -/
def weightOfAll (env : MempoolEnv) (pool : CTxMemPool) (q : Quantity) (its : List Uint256) : Int :=
  (its.map (pool.weight env q)).sum

open Classical in
/-- What an entry loses of its descendants when some entries are removed. -/
noncomputable def lostBelow (env : MempoolEnv) (pool : CTxMemPool) (removed : List Uint256)
    (q : Quantity) (it : Uint256) : Int :=
  ∑ x ∈ removed.toFinset with TransGen pool.Spends it x, pool.weight env q x

/-- There is room for new transactions below their ancestors, once what they replace is
removed. -/
structure Room (env : MempoolEnv) (pool : CTxMemPool) (removed : List Uint256)
    (txns : List CTransaction) (after : CTxMemPool) (ancestors : List Uint256) (q : Quantity)
    (ancestorBound descendantBound : Int) : Prop where
  own : weightOfAll env after q (txns.map env.txid) ≤ descendantBound
  total : weightOfAll env pool q ancestors + weightOfAll env after q
    (txns.map env.txid) ≤ ancestorBound
  descendants : ∀ it ∈ ancestors,
    descendantTotal env pool q it + weightOfAll env after q (txns.map env.txid) ≤
      descendantBound + lostBelow env pool removed q it

/-- The mempool ancestors of new transactions. -/
structure NewAncestors (env : MempoolEnv) (pool : CTxMemPool) (removed : List Uint256)
    (txns : List CTransaction) (ancestors : List Uint256) : Prop where
  distinct : (txns.map env.txid).Nodup
  nodup : ancestors.Nodup
  mem : ∀ it, it ∈ ancestors ↔ ∃ tx ∈ txns, AncestorOf pool tx it
  kept : ∀ it ∈ ancestors, it ∈ pool.txids ∧ it ∉ removed

theorem lostBelow_nonneg (hq : q ≠ .fees) : 0 ≤ lostBelow env pool removed q it :=
  Finset.sum_nonneg fun a _ => weight_nonneg hq a

/-- There is room below an entry if there is without what it loses. -/
theorem InOrder.room_below (h : InOrder env [] pool) (hit : it ∈ pool.txids) (hq : q ≠ .fees)
    (hsigOps : q ≠ .sigOps)
    {total bound : Int} (hle : (pool.entry it).withDescendants.get q + total ≤ bound) :
    descendantTotal env pool q it + total ≤ bound + lostBelow env pool removed q it := by
  rw [h.descendantTotal_eq hit hq hsigOps]
  exact le_trans hle (le_add_of_nonneg_right (lostBelow_nonneg hq))

theorem weightOfAll_count (pool : CTxMemPool) (its : List Uint256) :
    weightOfAll env pool .count its = its.length := by
  have hone : pool.weight env .count = fun _ => 1 := rfl
  rw [weightOfAll, hone, map_const', sum_replicate, nsmul_one]

theorem Room.mono {ancestorBound' descendantBound' : Int}
    (h : Room env pool removed txns after ancestors q ancestorBound descendantBound)
    (hancestors : ancestorBound ≤ ancestorBound')
      (hdescendants : descendantBound ≤ descendantBound') :
    Room env pool removed txns after ancestors q ancestorBound' descendantBound' where
  own := le_trans h.own hdescendants
  total := le_trans h.total hancestors
  descendants := fun it hit => le_trans (h.descendants it hit) (Int.add_le_add_right hdescendants _)

theorem InOrder.ancestor_mem (h : InOrder env [] pool) {tx : CTransaction}
    (hancestor : AncestorOf pool tx it) : it ∈ pool.txids := by
  obtain ⟨_, hparent, -, hpath⟩ := hancestor
  rw [← h.linked_eq] at hpath
  exact h.kept.links.reach_mem hparent hpath

/-- The checks of a package are for all its transactions and ancestors together. -/
theorem InOrder.room_package (h : InOrder env [] pool) {total_vsize : Int}
    (hok : pool.checkPackageLimits env txns total_vsize = true)
    (hsize : weightOfAll env after .size (txns.map env.txid) = total_vsize) :
    ∃ ancestors : List Uint256, ancestors.Nodup ∧
      (∀ it, it ∈ ancestors ↔ ∃ tx ∈ txns, AncestorOf pool tx it) ∧
      Room env pool removed txns after ancestors .count (env.limits.ancestor_count % 2 ^ 64)
        (env.limits.descendant_count % 2 ^ 64) ∧
      Room env pool removed txns after ancestors .size env.limits.ancestor_size_vbytes
        env.limits.descendant_size_vbytes := by
  obtain ⟨hancestorCount, hdescendantCount, hancestorSize, hdescendantSize, ancestors, hnodup,
    hmem, hfits⟩ :=
    h.checkPackageLimits_true hok
  have hcount := @weightOfAll_count env after (txns.map env.txid)
  rw [length_map] at hcount
  have hthere : ∀ it ∈ ancestors, it ∈ pool.txids := fun it hit =>
    let ⟨_, _, hancestor⟩ := (hmem it).mp hit
    h.ancestor_mem hancestor
  refine ⟨ancestors, hnodup, hmem, ⟨?_, ?_, fun it hit => ?_⟩, ⟨?_, ?_, fun it hit => ?_⟩⟩
  · rw [hcount]
    exact of_decide_eq_true hdescendantCount
  · rw [hcount, weightOfAll_count]
    by_cases hnil : ancestors = []
    · rw [hnil]
      exact le_trans (le_of_eq (zero_add _)) (of_decide_eq_true hancestorCount)
    · exact of_decide_eq_true (hfits.count hnil)
  · rw [hcount]
    exact h.room_below (hthere it hit) (by decide) (by decide)
      (of_decide_eq_true (hfits.descendants it hit).2)
  · rw [hsize]
    exact hdescendantSize
  · rw [hsize]
    by_cases hnil : ancestors = []
    · rw [hnil]
      exact le_trans (le_of_eq (zero_add _)) hancestorSize
    · rw [add_comm]
      exact hfits.size hnil
  · rw [hsize]
    exact h.room_below (hthere it hit) (by decide) (by decide) (hfits.descendants it hit).1

theorem sum_toFinset_weight (pool : CTxMemPool) {its : List Uint256} (hnodup : its.Nodup) :
    ∑ a ∈ its.toFinset, pool.weight env q a = weightOfAll env pool q its :=
  sum_toFinset _ hnodup

section Graft

variable (hgrafted : Grafted env pool removed txns after) (hq : q ≠ .fees)
include hgrafted hq

omit hq in
theorem Grafted.weight_old (hit : it ∈ pool.txids) (hafter : it ∈ after.txids) :
    after.weight env q it = pool.weight env q it :=
  congrFun (CTxMemPoolEntry.quantity_of_static (hgrafted.tx_old hit hafter) env) q

/-- An old entry gets no ancestors. -/
theorem Grafted.ancestorTotal_old (hit : it ∈ pool.txids) (hafter : it ∈ after.txids) :
    ancestorTotal env after q it ≤ ancestorTotal env pool q it := by
  have hold : ∀ a, TransGen after.Spends a it → a ∈ pool.nodes ∧ TransGen pool.Spends a it := by
    intro a hpath
    have hbefore := hgrafted.ancestor_old hpath hit
    exact ⟨mem_nodes.mpr (path_mem_of_spends hbefore).1, hbefore⟩
  refine relTotal_mono_le (fun a _ => hold a) (hgrafted.weight_old hit hafter)
    (fun a ha hpath => ?_) (weight_nonneg hq) (weight_nonneg hq)
  exact hgrafted.weight_old (mem_nodes.mp (hold a hpath).1) (mem_nodes.mp ha)

variable (hnew : NewAncestors env pool removed txns ancestors)
include hnew

open Classical in
/-- An old entry loses the descendants that are removed, and gets new ones at most if it is an
ancestor of them. -/
theorem Grafted.descendantTotal_old (hit : it ∈ pool.txids) (hafter : it ∈ after.txids) :
    (it ∉ ancestors → descendantTotal env after q it ≤ descendantTotal env pool q it) ∧
      descendantTotal env after q it + lostBelow env pool removed q it ≤
        descendantTotal env pool q it + weightOfAll env after q (txns.map env.txid) := by
  constructor
  · intro hnot
    have hold : ∀ a, TransGen after.Spends it a → a ∈ pool.txids ∧ TransGen pool.Spends it a := by
      intro a hpath
      refine (hgrafted.descendant hit hpath).resolve_right ?_
      rintro ⟨tx, htx, hancestor, -⟩
      exact hnot ((hnew.mem it).mpr ⟨tx, htx, hancestor⟩)
    refine relTotal_mono_le (fun a _ hpath => (hold a hpath).imp_left mem_nodes.mpr)
      (hgrafted.weight_old hit hafter) (fun a ha hpath => ?_) (weight_nonneg hq) (weight_nonneg hq)
    exact hgrafted.weight_old (hold a hpath).1 (mem_nodes.mp ha)
  · rw [← sum_toFinset_weight after hnew.distinct]
    refine relTotal_graft_le _ _ (fun a ha hpath => ?_) (fun a ha => ?_)
      (hgrafted.weight_old hit hafter) (fun a ha hpath hnot => ?_) (weight_nonneg hq)
        (weight_nonneg hq)
    · cases (hgrafted.mem a).mp (mem_nodes.mp ha) with
      | inl hold =>
        refine .inl ⟨mem_nodes.mpr hold.1, hgrafted.ancestor_old hpath hold.1, fun hcut => ?_⟩
        exact hold.2 (mem_toFinset.mp (Finset.mem_filter.mp hcut).1)
      | inr hadded => exact .inr (mem_toFinset.mpr hadded)
    · have hpath := (Finset.mem_filter.mp ha).2
      exact ⟨mem_nodes.mpr (path_mem_of_spends hpath).2, hpath⟩
    · have hold := ((hgrafted.mem a).mp (mem_nodes.mp ha)).resolve_right
        fun hadded => hnot (mem_toFinset.mpr hadded)
      exact hgrafted.weight_old hold.1 (mem_nodes.mp ha)

/-- What counts for a new transaction are the new ones and their mempool ancestors. -/
theorem Grafted.total_new (hacyclic : ∀ it, ¬ TransGen after.Spends it it) {tx : CTransaction}
    (htx : tx ∈ txns) :
    ancestorTotal env after q (env.txid tx) ≤
        weightOfAll env pool q ancestors + weightOfAll env after q (txns.map env.txid) ∧
      descendantTotal env after q (env.txid tx) ≤ weightOfAll env after q (txns.map env.txid) := by
  classical
  have hmem : env.txid tx ∈ (txns.map env.txid).toFinset :=
    mem_toFinset.mpr (mem_map_of_mem htx)
  have hold : weightOfAll env pool q ancestors = ∑ a ∈ ancestors.toFinset,
      after.weight env q a := by
    rw [← sum_toFinset_weight pool hnew.nodup]
    apply Finset.sum_congr rfl
    intro a ha
    obtain ⟨hthere, hkept⟩ := hnew.kept a (mem_toFinset.mp ha)
    exact (hgrafted.weight_old hthere ((hgrafted.mem a).mpr (.inl ⟨hthere, hkept⟩))).symm
  rw [hold, ← sum_toFinset_weight after hnew.distinct]
  constructor
  · rw [← Finset.sum_union_inter]
    refine le_trans ?_ (le_add_of_nonneg_right (Finset.sum_nonneg fun a _ => weight_nonneg hq a))
    refine relTotal_le_sum (Finset.mem_union_right _ hmem) (hacyclic _) (fun a ha hpath => ?_)
      (weight_nonneg hq)
    rw [Finset.mem_union, mem_toFinset, mem_toFinset]
    refine ((hgrafted.mem a).mp (mem_nodes.mp ha)).imp_left fun hthere => (hnew.mem a).mpr ?_
    have hlast : ¬ (env.txid tx ∈ pool.txids ∧ TransGen pool.Spends a (env.txid tx)) :=
      fun hboth => hgrafted.fresh tx htx hboth.1
    obtain ⟨other, hother, hancestor, -⟩ := (hgrafted.descendant hthere.1 hpath).resolve_left hlast
    exact ⟨other, hother, hancestor⟩
  · refine relTotal_le_sum hmem (hacyclic _) (fun a ha hpath => mem_toFinset.mpr ?_)
      (weight_nonneg hq)
    by_contra hnot
    have hthere := (((hgrafted.mem a).mp (mem_nodes.mp ha)).resolve_right hnot).1
    exact hgrafted.fresh tx htx (path_mem_of_spends (hgrafted.ancestor_old hpath hthere)).1

/-- New transactions for which there is room keep the bounds of an entry. -/
theorem Grafted.bounded (hacyclic : ∀ it, ¬ TransGen after.Spends it it)
    (hroom : Room env pool removed txns after ancestors q ancestorBound descendantBound)
    (h : it ∈ pool.txids → ancestorTotal env pool q it ≤ ancestorBound ∧
      descendantTotal env pool q it ≤ descendantBound) (hafter : it ∈ after.txids) :
    ancestorTotal env after q it ≤ ancestorBound ∧
      descendantTotal env after q it ≤ descendantBound := by
  cases (hgrafted.mem it).mp hafter with
  | inl hold =>
    obtain ⟨hancestors, hdescendants⟩ := h hold.1
    refine ⟨le_trans (hgrafted.ancestorTotal_old hq hold.1 hafter) hancestors, ?_⟩
    obtain ⟨hother, hbelow⟩ := hgrafted.descendantTotal_old hq hnew hold.1 hafter
    by_cases hancestor : it ∈ ancestors
    · have hle := le_trans hbelow (hroom.descendants it hancestor)
      exact le_of_add_le_add_right hle
    · exact le_trans (hother hancestor) hdescendants
  | inr hadded =>
    obtain ⟨_, htx, rfl⟩ := mem_map.mp hadded
    obtain ⟨hancestors, hdescendants⟩ := hgrafted.total_new hq hnew hacyclic htx
    exact ⟨le_trans hancestors hroom.total, le_trans hdescendants hroom.own⟩

end Graft

end

end CTxMemPool

namespace MempoolRun

open CTxMemPool MemPoolAccept

/-! ## What makes the checks sufficient -/

/-- The size of a transaction with as many signature operations as are allowed. -/
def maxVsize (env : MempoolEnv) (tx : CTransaction) : Nat :=
  getVirtualTransactionSize (getTransactionWeight tx) MAX_STANDARD_TX_SIGOPS_COST env.nBytesPerSigOp

/-- A transaction is not too large by itself. -/
def FitsAlone (env : MempoolEnv) (tx : CTransaction) : Prop :=
  maxVsize env tx ≤ env.limits.ancestor_size_vbytes ∧
    maxVsize env tx ≤ env.limits.descendant_size_vbytes + EXTRA_DESCENDANT_TX_SIZE_LIMIT

instance (env : MempoolEnv) (tx : CTransaction) : Decidable (FitsAlone env tx) :=
  inferInstanceAs (Decidable (_ ∧ _))

/-- If there is one conflict, an ancestor of the transaction is an ancestor of the conflict or
has room for the transaction anyway. -/
def FitsCarveOut (env : MempoolEnv) (pool : CTxMemPool) (tx : CTransaction) : Prop :=
  ∀ conflict, (∀ it, ConflictsWith pool tx.vin it ↔ it = conflict) → ∀ it, AncestorOf pool tx it →
    TransGen pool.Spends it conflict ∨
      (pool.entry it).withDescendants.size + maxVsize env tx ≤
        env.limits.descendant_size_vbytes + EXTRA_DESCENDANT_TX_SIZE_LIMIT

/-- Transactions for which the checks are sufficient. -/
def Fitting (env : MempoolEnv) (pool : CTxMemPool) (args : ATMPArgs) (txns : List CTransaction) :
    Prop :=
  ∀ tx ∈ txns, FitsAlone env tx ∧ (args.m_allow_carveouts = true → FitsCarveOut env pool tx)

section

variable {env : MempoolEnv} {allowed : CTxMemPool → ATMPArgs → List CTransaction → Prop}
  {state next : NodeState} {accept : AcceptEnv} {args : ATMPArgs} {txns : List CTransaction}
  {submission : Submission} {pool : CTxMemPool} {added : List CTransaction} {tx : CTransaction}
  {direct : List Uint256} {ws : Workspace}

theorem stageAddition_sigOpCost (a : Addition) :
    (stageAddition env pool a).sigOpCost = a.sigops_cost := by
  unfold stageAddition
  dsimp only
  split <;> rfl

theorem vsize_le_maxVsize (h : PreChecked accept pool added args tx direct ws) :
    ws.m_vsize ≤ maxVsize accept.mempool tx := by
  rw [h.vsize, CTxMemPoolEntry.getTxSize, stageAddition_tx, stageAddition_sigOpCost, h.additionTx]
  apply Nat.div_le_div_right
  apply Nat.sub_le_sub_right
  apply Nat.add_le_add_right
  exact max_le_max (Nat.le_refl _) (Nat.mul_le_mul_right _ h.sigops)

theorem maybeRbfLimits_cases : maybeRbfLimits accept pool args ws = accept.mempool.limits ∨
    ∃ conflict, ws.m_conflicts = [conflict] ∧ args.m_allow_carveouts = true ∧
      maybeRbfLimits accept pool args ws = { accept.mempool.limits with
        descendant_count := accept.mempool.limits.descendant_count + 1
        descendant_size_vbytes := accept.mempool.limits.descendant_size_vbytes +
          (pool.entry conflict).withDescendants.size } := by
  unfold maybeRbfLimits
  split
  · next conflict hconflicts hcarveouts => exact .inr ⟨conflict, hconflicts, hcarveouts, rfl⟩
  · exact .inl rfl

/-- The limits that a transaction was found to be within: those of the mempool with a small
extra, or with the size of its only conflict besides. -/
structure Relaxed (env : MempoolEnv) (pool : CTxMemPool) (args : ATMPArgs) (direct : List Uint256)
    (limits : MemPoolLimits) : Prop where
  ancestorCount : limits.ancestor_count = env.limits.ancestor_count ∨ limits.ancestor_count = 2
  ancestorSize : limits.ancestor_size_vbytes = env.limits.ancestor_size_vbytes
  descendants :
    (limits.descendant_count = env.limits.descendant_count ∨
        limits.descendant_count = env.limits.descendant_count + 1) ∧
      limits.descendant_size_vbytes ≤
        env.limits.descendant_size_vbytes + EXTRA_DESCENDANT_TX_SIZE_LIMIT ∨
    ∃ conflict, direct = [conflict] ∧ args.m_allow_carveouts = true ∧
      limits.descendant_size_vbytes ≤ env.limits.descendant_size_vbytes +
        EXTRA_DESCENDANT_TX_SIZE_LIMIT + (pool.entry conflict).withDescendants.size

theorem fits_of_preChecked (horder : InOrder accept.mempool [] pool)
    (h : PreChecked accept pool added args tx direct ws) :
    ∃ limits, CTxMemPool.Fits accept.mempool pool limits ws.m_vsize 1 ws.m_ancestors ∧
      Relaxed accept.mempool pool args direct limits := by
  obtain ⟨limits, hfound, hlimits⟩ := findAncestors_ok h.ancestors
  obtain ⟨-, -, hfits⟩ := horder.calculateMemPoolAncestors hfound
  rw [← h.vsize] at hfits
  refine ⟨limits, hfits, ?_⟩
  have hextra : (0 : Int) ≤ EXTRA_DESCENDANT_TX_SIZE_LIMIT := by decide
  rcases @maybeRbfLimits_cases accept args pool { ws with m_conflicts := direct } with
    hbase | ⟨conflict, hconflict, hcarveouts, hrbf⟩
  · rw [hbase] at hlimits
    rcases hlimits with rfl | ⟨rfl, -, -⟩
    · exact ⟨.inl rfl, rfl, .inl ⟨.inl rfl, le_add_of_nonneg_right hextra⟩⟩
    · exact ⟨.inr rfl, rfl, .inl ⟨.inr rfl, le_refl _⟩⟩
  rw [hrbf] at hlimits
  rcases hlimits with rfl | ⟨rfl, -, -⟩
  · refine ⟨.inl rfl, rfl, .inr ⟨conflict, hconflict, hcarveouts, ?_⟩⟩
    exact Int.add_le_add_right (le_add_of_nonneg_right hextra) _
  · refine ⟨.inr rfl, rfl, .inr ⟨conflict, hconflict, hcarveouts, ?_⟩⟩
    exact le_of_eq (add_right_comm _ _ _)

/-- The limits on the number of entries make sense. -/
structure SaneLimits (limits : MemPoolLimits) : Prop where
  ancestors : 2 ≤ limits.ancestor_count
  descendants : 0 ≤ limits.descendant_count

/-! ## Submissions -/

open Classical in
/-- An ancestor of a transaction that replaces entries alone loses one of them. -/
theorem one_removed {removed : List Uint256} (hnoNew : pool.hasNoNewUnconfirmed tx removed = true)
    (hremoved : ∀ it ∈ removed, it ∈ pool.txids) {it : Uint256}
      (hancestor : AncestorOf pool tx it) : 1 ≤ lostBelow env pool removed .count it := by
  obtain ⟨_, hparent, ⟨txin, htxin, rfl⟩, hpath⟩ := hancestor
  have hinput := all_eq_true.mp hnoNew txin htxin
  rw [Bool.or_eq_true, decide_eq_true_eq, decide_eq_true_eq] at hinput
  obtain ⟨mi, hmi, hspent⟩ := mem_flatMap.mp (hinput.resolve_right fun hnot => hnot hparent)
  obtain ⟨other, hother, heq⟩ := mem_map.mp hspent
  have hedge : pool.Spends txin.prevout.hash mi := ⟨hparent, hremoved mi hmi, other, hother, heq⟩
  have hmem : mi ∈ removed.toFinset.filter fun x => TransGen pool.Spends it x :=
    Finset.mem_filter.mpr ⟨mem_toFinset.mpr hmi, .tail' hpath hedge⟩
  exact Finset.single_le_sum (fun a _ => @weight_nonneg env pool .count (by decide) a) hmem

section Submissions

variable (h : Submitted env allowed state accept args txns submission) (hsound : Sound env state)
include h hsound

theorem Submitted.newAncestors {ancestors : List Uint256} (hnodup : ancestors.Nodup)
    (hmem : ∀ it, it ∈ ancestors ↔ ∃ tx ∈ txns, AncestorOf state.pool tx it) :
    NewAncestors env state.pool submission.m_to_remove txns ancestors := by
  obtain rfl := h.mempool
  refine ⟨h.passes.admitted.nodup, hnodup, hmem, fun it hit => ?_⟩
  obtain ⟨tx, htx, hancestor⟩ := (hmem it).mp hit
  obtain ⟨_, hws, rfl⟩ := mem_map.mp (h.passes.admitted.checked.txs.1.symm ▸ htx)
  constructor
  · exact hsound.inOrder.ancestor_mem hancestor
  · exact fun hremoved => h.passes.admitted.not_ancestor hsound.inOrder hws hremoved hancestor

open Classical in
/-- A conflict takes its descendants with it, and they count for its ancestors. -/
theorem Submitted.descendants_removed (hws : ws ∈ submission.workspaces)
    {conflict it : Uint256} (hconflict : conflict ∈ ws.m_conflicts)
    (hpath : TransGen state.pool.Spends it conflict) {q : Quantity} (hq : q ≠ .fees) :
    descendantTotal env state.pool q conflict ≤ lostBelow env state.pool
      submission.m_to_remove q it := by
  obtain rfl := h.mempool
  have hremoved := (h.passes.admitted.removed hsound.inOrder).2.2
  have hself : conflict ∈ submission.m_to_remove.toFinset.filter fun x =>
      TransGen state.pool.Spends it x :=
    Finset.mem_filter.mpr ⟨mem_toFinset.mpr ((hremoved conflict).mpr
      ⟨ws, hws, conflict, hconflict, .refl⟩), hpath⟩
  have hacyclic : ¬ TransGen state.pool.Spends conflict conflict := by
    rw [← hsound.inOrder.linked_eq]
    exact hsound.inOrder.kept.links.acyclic conflict
  refine relTotal_le_sum hself hacyclic (fun a ha hbelow => ?_) (weight_nonneg hq)
  exact Finset.mem_filter.mpr ⟨mem_toFinset.mpr ((hremoved a).mpr
    ⟨ws, hws, conflict, hconflict, TransGen.to_reflTransGen hbelow⟩), hpath.trans hbelow⟩

end Submissions

section Rooms

variable (h : Submitted env (Fitting env) state accept args txns submission)
    (hsound : Sound env state)
include h hsound

/-- The sizes of the new entries are those that were checked. -/
theorem Submitted.weightOfAll_size :
    weightOfAll env (finalizeSubpackage accept state.pool submission) .size (txns.map env.txid) =
      totalVsize submission.workspaces := by
  have hsizes := fun {ws} (hws : ws ∈ submission.workspaces) => h.getTxSize hsound hws
  unfold weightOfAll totalVsize
  rw [← h.passes.admitted.checked.txs.1, List.map_map, List.map_map,
    Nat.cast_list_sum, List.map_map]
  refine congrArg sum (map_congr_left fun ws hws => ?_)
  exact congrArg Nat.cast (hsizes hws)

end Rooms

section Single

variable {m_to_remove : List Uint256}
  (h : Submitted env (Fitting env) state accept args [tx] ⟨[ws], m_to_remove⟩)
  (hsound : Sound env state) (hchecked : PreChecked accept state.pool [] args tx direct ws)
include h hsound hchecked

theorem Submitted.newAncestors_single :
    NewAncestors env state.pool m_to_remove [tx] ws.m_ancestors := by
  have hmempool := h.mempool
  subst hmempool
  obtain ⟨hnodup, hmem⟩ := hchecked.mem_ancestors hsound.inOrder
  refine h.newAncestors hsound hnodup fun it => ?_
  rw [hmem]
  exact ⟨fun hancestor => ⟨tx, mem_singleton.mpr rfl, hancestor⟩,
    fun ⟨other, hother, hancestor⟩ => mem_singleton.mp hother ▸ hancestor⟩

/-- An ancestor of one new transaction has room for one more descendant. Without conflicts the
limits are those of the mempool, or one more. What is replaced has a child of a parent, so the
number does not grow. -/
theorem Submitted.room_count_single (hsane : SaneLimits env.limits)
    (hwithin : Bounded env state.pool .count env.limits.ancestor_count
      (env.limits.descendant_count + 1)) :
    Room env state.pool m_to_remove [tx] (finalizeSubpackage accept state.pool ⟨[ws], m_to_remove⟩)
      ws.m_ancestors .count env.limits.ancestor_count (env.limits.descendant_count + 1) := by
  have hnew := h.newAncestors_single hsound hchecked
  obtain rfl := h.mempool
  obtain ⟨limits, hfits, hrelaxed⟩ := fits_of_preChecked hsound.inOrder hchecked
  obtain ⟨htwo, hzero⟩ := hsane
  have hone : ∀ pool :
    CTxMemPool, weightOfAll accept.mempool pool .count ([tx].map accept.mempool.txid) = 1 :=
    fun pool => weightOfAll_count pool _
  refine ⟨?_, ?_, fun it hit => ?_⟩
  · rw [hone]
    omega
  · rw [hone, weightOfAll_count]
    by_cases hnil : ws.m_ancestors = []
    · rw [hnil]
      have hlength : (([] : List Uint256).length : Int) = 0 := rfl
      omega
    have hle : (ws.m_ancestors.length : Int) + (1 : Nat) ≤ limits.ancestor_count := by
      apply countFits_le _ (hfits.count hnil)
      rcases hrelaxed.ancestorCount with heq | heq <;> omega
    rcases hrelaxed.ancestorCount with heq | heq <;> omega
  · rw [hone]
    have hthere := (hnew.kept it hit).1
    cases h.passes.admitted.removal with
    | none hconflicts hnone =>
      have hnoConflict := hconflicts ws (mem_singleton.mpr rfl)
      have hdirect : ¬ ∃ conflict, direct = [conflict] := by
        rintro ⟨conflict, rfl⟩
        have hmem := (hchecked.mem_conflicts hsound.inOrder conflict).mpr
          (.inl (((hchecked.mem_direct hsound.inOrder).2 conflict).mp (mem_singleton.mpr rfl)))
        rw [hnoConflict] at hmem
        exact not_mem_nil hmem
      have hplain := hrelaxed.descendants.resolve_right fun ⟨conflict, heq, _⟩ => hdirect
        ⟨conflict, heq⟩
      have hle :
          (state.pool.entry it).withDescendants.count + (1 : Nat) ≤ limits.descendant_count := by
        apply countFits_le _ (hfits.descendants it hit).2
        rcases hplain.1 with heq | heq <;> omega
      apply hsound.inOrder.room_below hthere (by decide) (by decide)
      show (state.pool.entry it).withDescendants.count + 1 ≤ _
      rcases hplain.1 with heq | heq <;> omega
    | replaces hreplaces =>
      have hancestor := ((hchecked.mem_ancestors hsound.inOrder).2 it).mp hit
      rcases hreplaces.parents with ⟨_, heq, hnoNew⟩ | hnone
      · obtain rfl := singleton_inj.mp heq
        rw [hchecked.wsTx] at hnoNew
        have hlost : 1 ≤ lostBelow accept.mempool state.pool m_to_remove .count it :=
          one_removed hnoNew (h.passes.admitted.removed hsound.inOrder).1.2.1 hancestor
        have hbound := (hwithin it hthere).2
        omega
      · rw [hnone ws (mem_singleton.mpr rfl)] at hit
        cases hit

/-- An ancestor of one new transaction has room for its size. -/
theorem Submitted.room_size_single :
    Room env state.pool m_to_remove [tx] (finalizeSubpackage accept state.pool ⟨[ws], m_to_remove⟩)
      ws.m_ancestors .size env.limits.ancestor_size_vbytes
      (env.limits.descendant_size_vbytes + EXTRA_DESCENDANT_TX_SIZE_LIMIT) := by
  have hnew := h.newAncestors_single hsound hchecked
  have hsize : weightOfAll env (finalizeSubpackage accept state.pool ⟨[ws], m_to_remove⟩) .size
      ([tx].map env.txid) = ws.m_vsize := h.weightOfAll_size hsound
  obtain rfl := h.mempool
  obtain ⟨limits, hfits, hrelaxed⟩ := fits_of_preChecked hsound.inOrder hchecked
  obtain ⟨⟨hancestorSize, hdescendantSize⟩, hcarveOut⟩ := h.allowed tx (mem_singleton.mpr rfl)
  have hmax := ofNat_le.mpr (vsize_le_maxVsize hchecked)
  refine ⟨?_, ?_, fun it hit => ?_⟩
  · rw [hsize]
    exact le_trans hmax hdescendantSize
  · rw [hsize]
    by_cases hnil : ws.m_ancestors = []
    · rw [hnil]
      exact le_trans (le_of_eq (zero_add _)) (le_trans hmax hancestorSize)
    · rw [← hrelaxed.ancestorSize, add_comm]
      exact hfits.size hnil
  · have hthere := (hnew.kept it hit).1
    have htotal : descendantTotal accept.mempool state.pool .size it =
        (state.pool.entry it).withDescendants.size :=
      hsound.inOrder.descendantTotal_eq hthere (by decide) (by decide)
    have hlost := @lostBelow_nonneg accept.mempool state.pool m_to_remove .size it (by decide)
    have hfit := (hfits.descendants it hit).1
    rcases hrelaxed.descendants with ⟨-, hplain⟩ | ⟨conflict, hdirect, hcarveouts, hrelaxedSize⟩
    · omega
    have honly := (hchecked.mem_direct hsound.inOrder).2
    rw [hdirect] at honly
    have hconflict := (honly conflict).mp (mem_singleton.mpr rfl)
    have hancestor := ((hchecked.mem_ancestors hsound.inOrder).2 it).mp hit
    rcases hcarveOut hcarveouts conflict (fun other => (honly other).symm.trans mem_singleton) it
      hancestor with hpath | hroom
    · have hgone : descendantTotal accept.mempool state.pool .size conflict ≤
          lostBelow accept.mempool state.pool m_to_remove .size it :=
        h.descendants_removed hsound (mem_singleton.mpr rfl)
          ((hchecked.mem_conflicts hsound.inOrder conflict).mpr (.inl hconflict)) hpath (by decide)
      have hconflictTotal : descendantTotal accept.mempool state.pool .size conflict =
          (state.pool.entry conflict).withDescendants.size :=
        hsound.inOrder.descendantTotal_eq hconflict.1 (by decide) (by decide)
      omega
    · omega

end Single

/-- There is room for a submission within all limits. -/
def HasRoom (env : MempoolEnv) (pool : CTxMemPool) (removed : List Uint256)
    (txns : List CTransaction) (after : CTxMemPool) : Prop :=
  ∃ ancestors, NewAncestors env pool removed txns ancestors ∧
    Room env pool removed txns after ancestors .count env.limits.ancestor_count
      (env.limits.descendant_count + 1) ∧
    Room env pool removed txns after ancestors .size env.limits.ancestor_size_vbytes
      (env.limits.descendant_size_vbytes + EXTRA_DESCENDANT_TX_SIZE_LIMIT)

section Package

variable (h : Submitted env (Fitting env) state accept args txns submission)
  (hsound : Sound env state) (htogether : CheckedTogether accept state.pool args txns submission)
include h hsound htogether

/-- The checks of a package are for all its transactions and ancestors together. -/
theorem Submitted.room_package (hsane : SaneLimits env.limits) :
    HasRoom env state.pool submission.m_to_remove txns
      (finalizeSubpackage accept state.pool submission) := by
  have hsize := h.weightOfAll_size hsound
  have hnewAncestors := fun {ancestors} => @Submitted.newAncestors _ _ _ _ _ _ _ h hsound ancestors
  obtain rfl := h.mempool
  obtain ⟨ancestors, hnodup, hmem, hcountRoom, hsizeRoom⟩ :=
    hsound.inOrder.room_package htogether.limits hsize
  obtain ⟨hancestors, hdescendants⟩ := hsane
  refine ⟨ancestors, hnewAncestors hnodup hmem, hcountRoom.mono ?_ ?_,
    hsizeRoom.mono (le_refl _) ?_⟩
  · omega
  · omega
  · exact le_add_of_nonneg_right (by decide)

end Package

/-- A submission that is fitting keeps the limits. -/
theorem Submitted.withinLimits (h : Submitted env (Fitting env) state accept args txns submission)
    (hsound : Sound env state) (hsane : SaneLimits env.limits)
      (hwithin : WithinLimits env state.pool) :
    WithinLimits env (finalizeSubpackage accept state.pool submission) := by
  have hgrafted := h.grafted hsound
  have hacyclic :
      ∀ it, ¬ TransGen (finalizeSubpackage accept state.pool submission).Spends it it := by
    have hafter := (hsound.submit h).inOrder
    rw [← hafter.linked_eq]
    exact hafter.kept.links.acyclic
  obtain ⟨_, hnew, hcount, hsize⟩ : HasRoom env state.pool submission.m_to_remove txns
      (finalizeSubpackage accept state.pool submission) := by
    rcases h.passes.together with ⟨_, rfl⟩ | htogether
    · obtain ⟨_, m_to_remove⟩ := submission
      have hchecked := h.passes.admitted.checked
      cases hchecked with
      | cons hfirst hrest =>
        cases hrest with
        | nil =>
          exact ⟨_, h.newAncestors_single hsound hfirst,
            h.room_count_single hsound hfirst hsane hwithin.count, h.room_size_single hsound hfirst⟩
    · exact h.room_package hsound htogether hsane
  exact ⟨fun it => hgrafted.bounded (by decide) hnew hacyclic hcount (hwithin.count it),
    fun it => hgrafted.bounded (by decide) hnew hacyclic hsize (hwithin.size it)⟩

end

/-! ## A replacement that exceeds the limits -/

/-- A transaction with a given id, inputs with a number of signature operations, and as many
outputs of a value as are asked for. -/
def sampleSpend (id : UInt32) (inputs : List (COutPoint × UInt32)) (outputs : Nat) (nValue : Int) :
    CTransaction :=
  ⟨inputs.map fun input => ⟨input.1, [], input.2, []⟩,
    List.replicate outputs (sampleOutput nValue), 2, id⟩

def sampleParentTx : CTransaction := sampleSpend 1 [(⟨1000, 0⟩, 0)] 3 1000
def sampleLargeChild : CTransaction := sampleSpend 4 [(⟨1, 1⟩, 16000)] 1 900000

/-- A parent, a large transaction, a child of both, a large child of the parent, and a large
transaction that spends from the parent and conflicts with the first large one. -/
def sampleCarveOut : List CTransaction :=
  [sampleParentTx, sampleSpend 2 [(⟨1000, 1⟩, 16000)] 1 900000,
    sampleSpend 3 [(⟨1, 0⟩, 0), (⟨2, 0⟩, 0)] 1 990000, sampleLargeChild,
    sampleSpend 5 [(⟨1, 2⟩, 16000), (⟨1000, 1⟩, 0)] 1 100000]

theorem fitsCarveOut_of_no_conflict {env : MempoolEnv} {pool : CTxMemPool} {tx : CTransaction}
    (h : ∀ entry ∈ entryTxs pool, ∀ txin ∈ tx.vin, ∀ other ∈ entry.vin,
      other.prevout ≠ txin.prevout) : FitsCarveOut env pool tx := by
  intro conflict honly
  obtain ⟨hit, txin, htxin, other, hother, heq⟩ := (honly conflict).mpr rfl
  exact absurd heq (h _ (mem_map_of_mem hit) txin htxin other hother)

end MempoolRun

end BtcSharp
