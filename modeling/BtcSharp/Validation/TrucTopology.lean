/-
# Version 3 transactions in the mempool

Along every run without reorganisations a version 3 entry is alone, or one of a parent and
a child that are both of version 3. The rules are kept as rules on pairs of an entry and one
that spends from it. A submission keeps them because the check of a transaction against the
mempool and the check against its package, taken together, speak of all its parents.
-/

import BtcSharp.Validation.MempoolRun

namespace BtcSharp

open List Relation

namespace CTxMemPool

/-- A version 3 entry. -/
def IsTruc (pool : CTxMemPool) (it : Uint256) : Prop := (pool.entry it).tx.version = TRUC_VERSION

/-- The rules for an entry and one that spends from it. -/
structure TrucPairs (pool : CTxMemPool) : Prop where
  same : ∀ parent child, pool.Spends parent child → (pool.IsTruc parent ↔ pool.IsTruc child)
  oneParent : ∀ first second child, pool.IsTruc child → pool.Spends first child →
    pool.Spends second child → first = second
  oneChild : ∀ parent first second, pool.IsTruc parent → pool.Spends parent first →
    pool.Spends parent second → first = second
  noChain : ∀ first middle last, pool.IsTruc middle → pool.Spends first middle →
    ¬ pool.Spends middle last

/-- The rules for all ancestors and descendants. Some entries are known to have entered with
an ancestor in the mempool. -/
structure TrucTopology (env : MempoolEnv) (pool : CTxMemPool) (entered : Uint256 → Prop) :
    Prop where
  oneAncestor : ∀ it ∈ pool.txids, pool.IsTruc it → ∀ first second,
    TransGen pool.Spends first it → TransGen pool.Spends second it → first = second
  oneDescendant : ∀ it ∈ pool.txids, pool.IsTruc it → ∀ first second,
    TransGen pool.Spends it first → TransGen pool.Spends it second → first = second
  ancestorVersion : ∀ it ∈ pool.txids, pool.IsTruc it → ∀ ancestor,
    TransGen pool.Spends ancestor it → pool.IsTruc ancestor
  descendantVersion : ∀ it ∈ pool.txids, pool.IsTruc it → ∀ descendant,
    TransGen pool.Spends it descendant → pool.IsTruc descendant
  size : ∀ it ∈ pool.txids, pool.IsTruc it → (pool.entry it).getTxSize env ≤ TRUC_MAX_VSIZE
  childSize : ∀ it ∈ pool.txids, pool.IsTruc it → entered it →
    (pool.entry it).getTxSize env ≤ TRUC_CHILD_MAX_VSIZE
  others : ∀ it ∈ pool.txids, ¬ pool.IsTruc it → ∀ ancestor,
    TransGen pool.Spends ancestor it → ¬ pool.IsTruc ancestor

section

variable {env : MempoolEnv} {pool after : CTxMemPool} {removed ancestors conflicts : List Uint256}
  {txns : List CTransaction} {tx : CTransaction} {vsize : Nat} {parent child other : Uint256}

theorem eq_of_mem_of_length_le_one {α : Type} {list : List α} (hlength : list.length ≤ 1) {a b : α}
    (ha : a ∈ list) (hb : b ∈ list) : a = b := by
  obtain ⟨_, rfl⟩ := length_eq_one_iff.mp (Nat.le_antisymm hlength (length_pos_of_mem ha))
  rw [mem_singleton.mp ha, mem_singleton.mp hb]

theorem TrucPairs.same_of_path (h : TrucPairs pool) (hpath : TransGen pool.Spends parent child) :
    pool.IsTruc parent ↔ pool.IsTruc child := by
  induction hpath with
  | single hstep => exact h.same _ _ hstep
  | tail _ hstep ih => exact ih.trans (h.same _ _ hstep)

/-- An ancestor of a version 3 entry is its parent. -/
theorem TrucPairs.spends_of_path (h : TrucPairs pool) (htruc : pool.IsTruc child)
    (hpath : TransGen pool.Spends parent child) : pool.Spends parent child := by
  cases hpath with
  | single hstep => exact hstep
  | tail hbefore hstep =>
    obtain ⟨_, -, hedge⟩ := TransGen.tail'_iff.mp hbefore
    exact absurd hstep (h.noChain _ _ _ ((h.same _ _ hstep).mpr htruc) hedge)

theorem TrucPairs.topology (h : TrucPairs pool) {entered : Uint256 → Prop}
    (hsize : ∀ it ∈ pool.txids, pool.IsTruc it → (pool.entry it).getTxSize env ≤ TRUC_MAX_VSIZE)
    (hchild : ∀ it ∈ pool.txids, pool.IsTruc it → entered it →
      (pool.entry it).getTxSize env ≤ TRUC_CHILD_MAX_VSIZE) : TrucTopology env pool entered where
  oneAncestor it _ htruc _ _ hfirst hsecond :=
    h.oneParent _ _ it htruc (h.spends_of_path htruc hfirst) (h.spends_of_path htruc hsecond)
  oneDescendant it _ htruc _ _ hfirst hsecond :=
    h.oneChild it _ _ htruc (h.spends_of_path ((h.same_of_path hfirst).mp htruc) hfirst)
      (h.spends_of_path ((h.same_of_path hsecond).mp htruc) hsecond)
  ancestorVersion _ _ htruc _ hpath := (h.same_of_path hpath).mpr htruc
  descendantVersion _ _ htruc _ hpath := (h.same_of_path hpath).mp htruc
  size := hsize
  childSize := hchild
  others _ _ hother _ hpath htruc := hother ((h.same_of_path hpath).mp htruc)

theorem Shrunk.isTruc (h : Shrunk pool after) {it : Uint256} (hit : it ∈ after.txids) :
    after.IsTruc it ↔ pool.IsTruc it := by
  unfold IsTruc
  rw [h.tx hit]

theorem TrucPairs.shrunk (h : TrucPairs pool) (hshrunk : Shrunk pool after) : TrucPairs after where
  same parent child hspends := by
    rw [hshrunk.isTruc hspends.1, hshrunk.isTruc hspends.2.1]
    exact h.same _ _ (hshrunk.spends hspends)
  oneParent _ _ child htruc hfirst hsecond :=
    h.oneParent _ _ child ((hshrunk.isTruc hfirst.2.1).mp htruc) (hshrunk.spends hfirst)
      (hshrunk.spends hsecond)
  oneChild parent _ _ htruc hfirst hsecond :=
    h.oneChild parent _ _ ((hshrunk.isTruc hfirst.1).mp htruc) (hshrunk.spends hfirst)
      (hshrunk.spends hsecond)
  noChain _ middle _ htruc hfirst hlast :=
    h.noChain _ middle _ ((hshrunk.isTruc hlast.1).mp htruc) (hshrunk.spends hfirst)
      (hshrunk.spends hlast)

/-! ## Submissions -/

/-- What the checks say of a new transaction, with its ancestors in the mempool and its
conflicts. -/
structure TrucVetted (env : MempoolEnv) (pool : CTxMemPool) (removed : List Uint256)
    (txns : List CTransaction) (tx : CTransaction) (ancestors conflicts : List Uint256)
    (vsize : Nat) : Prop where
  alone : PassedAlone env pool tx ancestors conflicts vsize
  together : PassedTogether env pool txns tx ancestors vsize
  mem : ∀ it, it ∈ ancestors ↔ AncestorOf pool tx it
  removed : ∀ it ∈ conflicts, it ∈ removed

section New

variable (hgrafted : Grafted env pool removed txns after)
include hgrafted

theorem Grafted.isTruc_old (hparent : parent ∈ pool.txids) (hafter : parent ∈ after.txids) :
    after.IsTruc parent ↔ pool.IsTruc parent := by
  unfold IsTruc
  rw [CTxMemPoolEntry.tx_of_static (hgrafted.tx_old hparent hafter)]

theorem Grafted.isTruc_new (htx : tx ∈ txns) : after.IsTruc (env.txid tx) ↔
    tx.version = TRUC_VERSION := by
  unfold IsTruc
  rw [hgrafted.new tx htx]

variable (horder : txns.Pairwise fun first second => ¬ first.SpendsFrom (env.txid second))
include horder

section Vetted

variable (htx : tx ∈ txns) (hvetted : TrucVetted env pool removed txns tx ancestors conflicts vsize)
include htx hvetted

/-- The checks see every parent of a new transaction. -/
theorem Grafted.parent_seen (hspends : after.Spends parent (env.txid tx)) :
    (parent ∈ pool.txids ∧ parent ∈ ancestors) ∨
      ∃ other ∈ findInPackageParents env txns tx, other ∈ txns ∧ env.txid other = parent := by
  obtain ⟨hinput, hthere⟩ := hgrafted.spends_new htx hspends
  refine hthere.imp (fun hold => ⟨hold, ?_⟩) fun ⟨other, hother, _, heq⟩ => ?_
  · exact (hvetted.mem parent).mpr ⟨parent, hold, hinput, .refl⟩
  subst heq
  exact ⟨other, (mem_findInPackageParents htx (hgrafted.noLoop tx htx) horder).mpr ⟨hother, hinput⟩,
    hother, rfl⟩

theorem Grafted.same_new (hspends : after.Spends parent (env.txid tx)) :
    after.IsTruc parent ↔ tx.version = TRUC_VERSION := by
  rcases hgrafted.parent_seen horder htx hvetted hspends with
    ⟨hold, hseen⟩ | ⟨other, hseen, hother, rfl⟩
  · rw [hgrafted.isTruc_old hold hspends.1]
    exact hvetted.alone.versions parent hseen
  · rw [hgrafted.isTruc_new hother]
    exact hvetted.together.versions other hseen

variable (htruc : tx.version = TRUC_VERSION) (hparent : after.Spends parent (env.txid tx))
include htruc hparent

theorem Grafted.oneParent_new (hother : after.Spends other (env.txid tx)) : parent = other := by
  have hseen : ∀ {it}, after.Spends it (env.txid tx) →
      it ∈ ancestors ++ (findInPackageParents env txns tx).map env.txid := by
    intro it hit
    rcases hgrafted.parent_seen horder htx hvetted hit with ⟨-, hmem⟩ | ⟨_, hmem, -, rfl⟩
    · exact mem_append_left _ hmem
    · exact mem_append_right _ (mem_map_of_mem hmem)
  have hone : (ancestors ++ (findInPackageParents env txns tx).map env.txid).length ≤ 1 := by
    rw [length_append, length_map]
    exact hvetted.together.one htruc
  exact eq_of_mem_of_length_le_one hone (hseen hparent) (hseen hother)

variable (hpool : InOrder env [] pool)
include hpool

/-- No other new transaction spends from the parent of a new version 3 transaction or from the
transaction itself. -/
theorem Grafted.others_new {tx' : CTransaction} (htx' : tx' ∈ txns) (hne : tx' ≠ tx) :
    ¬ tx'.SpendsFrom parent ∧ ¬ tx'.SpendsFrom (env.txid tx) := by
  apply hvetted.together.others htruc parent _ tx' htx' hne
  rcases hgrafted.parent_seen horder htx hvetted hparent with ⟨hold, hseen⟩ | ⟨_, hseen, -, rfl⟩
  · exact .inl (mem_map.mpr ⟨parent, hseen, hpool.kept.books.hash parent hold⟩)
  · exact .inr (mem_map_of_mem hseen)

/-- A new version 3 transaction with a parent has no children. -/
theorem Grafted.childless : ¬ after.Spends (env.txid tx) child := by
  intro hspends
  by_cases hnew : child ∈ txns.map env.txid
  · obtain ⟨tx', htx', rfl⟩ := mem_map.mp hnew
    have hinput := (hgrafted.spends_new htx' hspends).1
    refine (hgrafted.others_new horder htx hvetted htruc hparent hpool htx' ?_).2 hinput
    rintro rfl
    exact hgrafted.noLoop tx' htx hinput
  · exact (hgrafted.spends_old hspends hnew).2 (mem_map_of_mem htx)

variable (hpairs : TrucPairs pool)
include hpairs

/-- The parent of a new version 3 transaction has no other child: one that it had is among
the conflicts. -/
theorem Grafted.onlyChild (hchild : after.Spends parent child) : child = env.txid tx := by
  by_cases hnew : child ∈ txns.map env.txid
  · obtain ⟨tx', htx', rfl⟩ := mem_map.mp hnew
    by_contra hne
    have hdistinct : tx' ≠ tx := fun heq => hne (congrArg env.txid heq)
    exact (hgrafted.others_new horder htx hvetted htruc hparent hpool htx' hdistinct).1
      (hgrafted.spends_new htx' hchild).1
  obtain ⟨hold, hnot⟩ := hgrafted.spends_old hchild hnew
  have hkept := (((hgrafted.mem child).mp hchild.2.1).resolve_right hnew).2
  obtain ⟨-, hseen⟩ := (hgrafted.parent_seen horder htx hvetted hparent).resolve_right
    fun ⟨other, _, hother, heq⟩ => hnot (heq ▸ mem_map_of_mem hother)
  exfalso
  cases hvetted.alone.siblings htruc parent hseen with
  | inl hfew => exact absurd (Int.le_trans (hpool.two_le_count hold) hfew) (by decide)
  | inr hreplaced =>
    obtain ⟨sibling, hsibling, hconflict⟩ := hreplaced
    have hspends : pool.Spends parent sibling :=
      hpool.linked_eq ▸ (hpool.kept.links.children_iff parent hold.1 sibling).mp hsibling
    have hparentTruc := (hvetted.alone.versions parent hseen).mpr htruc
    obtain rfl := hpairs.oneChild parent child sibling hparentTruc hold hspends
    rw [hpool.kept.books.hash child hold.2.1] at hconflict
    exact hkept (hvetted.removed child hconflict)

end Vetted

variable (hpool : InOrder env [] pool)
  (hvetted : ∀ tx ∈ txns, ∃ ancestors conflicts vsize,
    TrucVetted env pool removed txns tx ancestors conflicts vsize)
include hpool hvetted

/-- The parent of a new version 3 transaction has no parents. -/
theorem Grafted.noGrandparent (htx : tx ∈ txns) (htruc : tx.version = TRUC_VERSION)
    (hparent : after.Spends parent (env.txid tx)) : ¬ after.Spends other parent := by
  intro hother
  obtain ⟨_, _, _, hchecked⟩ := hvetted tx htx
  have hparentTruc := (hgrafted.same_new horder htx hchecked hparent).mpr htruc
  rcases hgrafted.parent_seen horder htx hchecked hparent with
    ⟨hold, hseen⟩ | ⟨tx', -, htx', rfl⟩
  · have hspends := (hgrafted.spends_old hother (hgrafted.not_new hold)).1
    have hgrand := (hchecked.mem other).mpr
      ⟨parent, hold, (hgrafted.spends_new htx hparent).1, .single hspends⟩
    have heq := eq_of_mem_of_length_le_one (hchecked.alone.one htruc) hgrand hseen
    subst heq
    rw [← hpool.linked_eq] at hspends
    exact hpool.kept.links.acyclic other (.single hspends)
  · obtain ⟨_, _, _, hchecked'⟩ := hvetted tx' htx'
    exact hgrafted.childless horder htx' hchecked'
      ((hgrafted.isTruc_new htx').mp hparentTruc) hother hpool hparent

/-- A submission keeps the rules. -/
theorem Grafted.trucPairs (hpairs : TrucPairs pool) : TrucPairs after where
  same parent child hspends := by
    by_cases hnew : child ∈ txns.map env.txid
    · obtain ⟨tx, htx, rfl⟩ := mem_map.mp hnew
      obtain ⟨ancestors, conflicts, vsize, hchecked⟩ := hvetted tx htx
      rw [hgrafted.isTruc_new htx]
      exact hgrafted.same_new horder htx hchecked hspends
    have hold := (hgrafted.spends_old hspends hnew).1
    rw [hgrafted.isTruc_old hold.1 hspends.1, hgrafted.isTruc_old hold.2.1 hspends.2.1]
    exact hpairs.same _ _ hold
  oneParent first second child htruc hfirst hsecond := by
    by_cases hnew : child ∈ txns.map env.txid
    · obtain ⟨tx, htx, rfl⟩ := mem_map.mp hnew
      obtain ⟨ancestors, conflicts, vsize, hchecked⟩ := hvetted tx htx
      exact hgrafted.oneParent_new horder htx hchecked ((hgrafted.isTruc_new htx).mp htruc)
        hfirst hsecond
    have hold := (hgrafted.spends_old hfirst hnew).1
    exact hpairs.oneParent _ _ child ((hgrafted.isTruc_old hold.2.1 hfirst.2.1).mp htruc) hold
      (hgrafted.spends_old hsecond hnew).1
  oneChild parent first second htruc hfirst hsecond := by
    have hnewChild : ∀ {child other}, child ∈ txns.map env.txid → after.Spends parent child →
        after.Spends parent other → other = child := by
      intro child other hnew hchild hother
      obtain ⟨tx, htx, rfl⟩ := mem_map.mp hnew
      obtain ⟨ancestors, conflicts, vsize, hchecked⟩ := hvetted tx htx
      exact hgrafted.onlyChild horder htx hchecked
        ((hgrafted.same_new horder htx hchecked hchild).mp htruc) hchild hpool hpairs hother
    by_cases hfirstNew : first ∈ txns.map env.txid
    · exact (hnewChild hfirstNew hfirst hsecond).symm
    by_cases hsecondNew : second ∈ txns.map env.txid
    · exact hnewChild hsecondNew hsecond hfirst
    have hold := (hgrafted.spends_old hfirst hfirstNew).1
    exact hpairs.oneChild parent _ _ ((hgrafted.isTruc_old hold.1 hfirst.1).mp htruc) hold
      (hgrafted.spends_old hsecond hsecondNew).1
  noChain first middle last htruc hfirst hlast := by
    by_cases hnew : last ∈ txns.map env.txid
    · obtain ⟨tx, htx, rfl⟩ := mem_map.mp hnew
      obtain ⟨ancestors, conflicts, vsize, hchecked⟩ := hvetted tx htx
      exact hgrafted.noGrandparent horder hpool hvetted htx
        ((hgrafted.same_new horder htx hchecked hlast).mp htruc) hlast hfirst
    obtain ⟨hold, hmiddle⟩ := hgrafted.spends_old hlast hnew
    exact hpairs.noChain _ middle _ ((hgrafted.isTruc_old hold.1 hlast.1).mp htruc)
      (hgrafted.spends_old hfirst hmiddle).1 hold

end New

end

end CTxMemPool

namespace MempoolRun

open CTxMemPool MemPoolAccept

/-- Which entries entered the mempool with a parent there, after a step. -/
def enteredAfter (state next : NodeState) (entered : Uint256 → Prop) (it : Uint256) : Prop :=
  if it ∈ state.pool.txids then entered it else ∃ parent, next.pool.Spends parent it

/-- The states that submissions, evictions and blocks lead to, with the entries that entered
with a parent in the mempool. -/
inductive Visits (env : MempoolEnv) : NodeState → (Uint256 → Prop) → Prop
  | start (confirmed : List CTransaction) (hclosed : ChainClosed env confirmed) :
      Visits env { confirmed := confirmed } fun _ => False
  | step {state next : NodeState} {entered : Uint256 → Prop} : Visits env state entered →
      Step env (fun _ _ _ => True) state next → Visits env next (enteredAfter state next entered)

/-- The rules for version 3 entries and their sizes. -/
structure TrucKept (env : MempoolEnv) (pool : CTxMemPool) (entered : Uint256 → Prop) : Prop where
  pairs : TrucPairs pool
  size : ∀ it ∈ pool.txids, pool.IsTruc it → (pool.entry it).getTxSize env ≤ TRUC_MAX_VSIZE
  childSize : ∀ it ∈ pool.txids, pool.IsTruc it → entered it →
    (pool.entry it).getTxSize env ≤ TRUC_CHILD_MAX_VSIZE

section

variable {env : MempoolEnv} {allowed : CTxMemPool → ATMPArgs → List CTransaction → Prop}
  {state next : NodeState} {accept : AcceptEnv} {args : ATMPArgs} {txns vtx : List CTransaction}
  {submission : Submission} {entered : Uint256 → Prop}

/-- What a transaction that is submitted has passed. -/
theorem Submitted.trucVetted (h : Submitted env allowed state accept args txns submission)
    (hsound : Sound env state) {tx : CTransaction} (htx : tx ∈ txns) :
    ∃ ws ∈ submission.workspaces, ws.tx = tx ∧
      TrucVetted env state.pool submission.m_to_remove txns tx
      ws.m_ancestors ws.m_conflicts ws.m_vsize := by
  obtain ⟨_, _, direct, ws, hws, hsplit, hwsTx, hchecked⟩ := h.checked htx
  obtain rfl := h.mempool
  have halone : PassedAlone accept.mempool state.pool tx ws.m_ancestors ws.m_conflicts
      ws.m_vsize := by
    rw [← hwsTx]
    cases hchecked.conflicts with
    | direct htruc hconflicts hiters => exact hconflicts ▸ singleTRUCChecks_none htruc
    | sibling sibling htruc hallowed hconflicts hiters =>
      exact hconflicts ▸ singleTRUCChecks_evict htruc
  refine ⟨ws, hws, hwsTx, halone, ?_, (hchecked.mem_ancestors hsound.inOrder).2, fun it hit => ?_⟩
  · rcases h.passes.together with ⟨_, honly⟩ | htogether
    · rw [honly] at htx ⊢
      rw [mem_singleton.mp htx] at halone ⊢
      exact passedTogether_single halone
    · rw [← hwsTx]
      exact packageTRUCChecks_true (htogether.truc ws hws)
  · exact ((h.passes.admitted.removed hsound.inOrder).2.2 it).mpr ⟨ws, hws, it, hit, .refl⟩

theorem TrucKept.submit (h : TrucKept env state.pool entered) (hsound : Sound env state)
    (hsubmitted : Submitted env allowed state accept args txns submission)
    (hnext : next = { state with pool := finalizeSubpackage accept state.pool submission }) :
    TrucKept env next.pool (enteredAfter state next entered) := by
  have hpool : next.pool = finalizeSubpackage accept state.pool submission := by rw [hnext]
  have hgrafted := hsubmitted.grafted hsound
  have hsizes := fun {ws} (hws : ws ∈ submission.workspaces) => hsubmitted.getTxSize hsound hws
  rw [← hpool] at hgrafted hsizes
  have horder : txns.Pairwise fun first second => ¬ first.SpendsFrom (env.txid second) :=
    hsubmitted.mempool ▸ hsubmitted.passes.admitted.order
  refine ⟨hgrafted.trucPairs horder hsound.inOrder (fun tx htx => ?_) h.pairs,
    fun it hit htruc => ?_, fun it hit htruc hentered => ?_⟩
  · obtain ⟨ws, -, -, hvetted⟩ := hsubmitted.trucVetted hsound htx
    exact ⟨_, _, _, hvetted⟩
  · cases (hgrafted.mem it).mp hit with
    | inl hold =>
      rw [CTxMemPoolEntry.getTxSize_of_static (hgrafted.tx_old hold.1 hit)]
      exact h.size it hold.1 ((hgrafted.isTruc_old hold.1 hit).mp htruc)
    | inr hnew =>
      obtain ⟨tx, htx, rfl⟩ := mem_map.mp hnew
      obtain ⟨ws, hws, rfl, hvetted⟩ := hsubmitted.trucVetted hsound htx
      rw [hsizes hws]
      exact hvetted.alone.size ((hgrafted.isTruc_new htx).mp htruc)
  · cases (hgrafted.mem it).mp hit with
    | inl hold =>
      rw [enteredAfter, if_pos hold.1] at hentered
      rw [CTxMemPoolEntry.getTxSize_of_static (hgrafted.tx_old hold.1 hit)]
      exact h.childSize it hold.1 ((hgrafted.isTruc_old hold.1 hit).mp htruc) hentered
    | inr hnew =>
      obtain ⟨tx, htx, rfl⟩ := mem_map.mp hnew
      obtain ⟨ws, hws, rfl, hvetted⟩ := hsubmitted.trucVetted hsound htx
      rw [enteredAfter, if_neg (hgrafted.fresh _ htx)] at hentered
      obtain ⟨_, hparent⟩ := hentered
      have hversion := (hgrafted.isTruc_new htx).mp htruc
      rw [hsizes hws]
      rcases hgrafted.parent_seen horder htx hvetted hparent with ⟨-, hseen⟩ | ⟨_, hseen, -⟩
      · exact hvetted.alone.child hversion (ne_nil_of_mem hseen)
      · exact hvetted.together.child hversion (ne_nil_of_mem hseen)

theorem TrucKept.shrunk (h : TrucKept env state.pool entered)
    (hshrunk : Shrunk state.pool next.pool) :
    TrucKept env next.pool (enteredAfter state next entered) := by
  refine ⟨h.pairs.shrunk hshrunk, fun it hit htruc => ?_, fun it hit htruc hentered => ?_⟩
  · rw [CTxMemPoolEntry.getTxSize_of_static (hshrunk.static it hit)]
    exact h.size it (hshrunk.txids it hit) ((hshrunk.isTruc hit).mp htruc)
  rw [enteredAfter, if_pos (hshrunk.txids it hit)] at hentered
  rw [CTxMemPoolEntry.getTxSize_of_static (hshrunk.static it hit)]
  exact h.childSize it (hshrunk.txids it hit) ((hshrunk.isTruc hit).mp htruc) hentered

/-- The rules hold along a run. -/
theorem Visits.kept (h : Visits env state entered) : Sound env state ∧
    TrucKept env state.pool entered := by
  induction h with
  | start confirmed hclosed =>
    refine ⟨sound_start hclosed, ⟨?_, ?_, ?_, ?_⟩, ?_, ?_⟩
    · exact fun parent child hspends => absurd hspends.1 not_mem_nil
    · exact fun first second child _ hfirst => absurd hfirst.1 not_mem_nil
    · exact fun parent first second _ hfirst => absurd hfirst.1 not_mem_nil
    · exact fun first middle last _ hfirst => absurd hfirst.1 not_mem_nil
    · exact nofun
    · exact nofun
  | @step state next entered _ hstep ih =>
    obtain ⟨hsound, hkept⟩ := ih
    refine ⟨hsound.step hstep, ?_⟩
    rcases hstep.cases hsound with ⟨_, _, _, _, hsubmitted, hnext⟩ | ⟨_, hshrinks⟩
    · exact hkept.submit hsound hsubmitted hnext
    · exact hkept.shrunk hshrinks.left.toShrunk

/-- Version 3 entries stand alone or in pairs, after every sequence of submissions, evictions and
blocks. -/
theorem truc_topology (h : Visits env state entered) : TrucTopology env state.pool entered := by
  obtain ⟨-, hkept⟩ := h.kept
  exact hkept.pairs.topology hkept.size hkept.childSize

theorem Visits.steps (hsteps : ReflTransGen (Step env fun _ _ _ => True) state next)
    (h : ∃ entered, Visits env state entered) : ∃ entered, Visits env next entered := by
  induction hsteps with
  | refl => exact h
  | tail _ hlast ih =>
    obtain ⟨entered, hvisits⟩ := ih
    exact ⟨_, hvisits.step hlast⟩

/-- A run of calls is such a sequence. -/
theorem Reaches.visits (h : Reaches env (fun _ _ _ => True) state) :
    ∃ entered, Visits env state entered := by
  induction h with
  | start confirmed hclosed => exact ⟨_, .start confirmed hclosed⟩
  | call call _ hlegal hallowed ih => exact Visits.steps (call.steps hlegal hallowed) ih

end

/-- A version 3 transaction and its child. -/
def sampleTrucParent : CTransaction := { sampleTx 1 [5000] with version := TRUC_VERSION }
def sampleTrucChild : CTransaction := ⟨[⟨⟨1, 0⟩, [], 0, []⟩], [sampleOutput 4000], TRUC_VERSION, 2⟩

theorem truc_topology_sample : (sampleRun [sampleTrucParent, sampleTrucChild]).pool.txids = [1, 2] ∧
      ((sampleRun [sampleTrucParent, sampleTrucChild]).pool.entry 2).m_parents = [1] ∧
      ∃ entered,
      TrucTopology sampleEnv (sampleRun [sampleTrucParent, sampleTrucChild]).pool entered := by
  refine ⟨by decide, by decide, ?_⟩
  have hids : ∀ tx ∈ [sampleTrucParent, sampleTrucChild], sampleEnv.txid tx ≠ 1000 := by decide
  obtain ⟨entered, hvisits⟩ := (sampleRun_reaches hids fun _ _ _ _ => trivial).1.visits
  exact ⟨entered, truc_topology hvisits⟩

end MempoolRun

end BtcSharp
