/-
# Rules for version 3 transactions

The checks of `policy/truc_policy.cpp`, without the texts of their errors: the one for a
transaction against the mempool, and the one for a transaction of a package. Transactions
of a package are told apart by their contents, and a set of children begins with the head
of its list.
-/

import BtcSharp.Mempool.Links

namespace BtcSharp

open List

def TRUC_VERSION : UInt32 := 3
def TRUC_DESCENDANT_LIMIT : Nat := 2
def TRUC_ANCESTOR_LIMIT : Nat := 2
def TRUC_MAX_VSIZE : Nat := 10000
def TRUC_CHILD_MAX_VSIZE : Nat := 1000

namespace CTxMemPool

variable (env : MempoolEnv)

/-- `FindInPackageParents`, with the transactions in place of their indices. -/
def findInPackageParents (package : List CTransaction) (ptx : CTransaction) : List CTransaction :=
  (package.takeWhile (· ≠ ptx)).filter fun tx => ptx.SpendsFrom (env.txid tx)

/-- What `PackageTRUCChecks` keeps of the parent of a transaction. -/
structure ParentInfo where
  m_txid : Uint256
  m_version : UInt32
  m_has_mempool_descendant : Bool

/-- The parent of a transaction, in the mempool or in the package. -/
def findParent (pool : CTxMemPool) (mempool_ancestors : List Uint256)
    (in_package_parents : List CTransaction) : Option ParentInfo :=
  match mempool_ancestors, in_package_parents with
  | mempool_parent :: _, _ =>
    let entry := pool.entry mempool_parent
    some ⟨env.txid entry.tx, entry.tx.version, 1 < entry.withDescendants.count⟩
  | [], package_parent :: _ => some ⟨env.txid package_parent, package_parent.version, false⟩
  | [], [] => none

/-- The checks of `PackageTRUCChecks` for a version 3 transaction with a parent. -/
def checkPackageParent (package : List CTransaction) (ptx : CTransaction) (vsize : Nat)
    (parent_info : ParentInfo) : Bool :=
  decide (vsize ≤ TRUC_CHILD_MAX_VSIZE) && decide (parent_info.m_version = TRUC_VERSION) &&
    package.all (fun package_tx => decide (package_tx = ptx) || package_tx.vin.all fun input =>
      decide (input.prevout.hash ≠ parent_info.m_txid) &&
        decide (input.prevout.hash ≠ env.txid ptx)) &&
    !parent_info.m_has_mempool_descendant

def packageTRUCChecks (pool : CTxMemPool) (ptx : CTransaction) (vsize : Nat)
    (package : List CTransaction) (mempool_ancestors : List Uint256) : Bool :=
  let in_package_parents := findInPackageParents env package ptx
  if ptx.version = TRUC_VERSION then
    decide (vsize ≤ TRUC_MAX_VSIZE) &&
      decide (mempool_ancestors.length + in_package_parents.length + 1 ≤ TRUC_ANCESTOR_LIMIT) &&
      match findParent env pool mempool_ancestors in_package_parents with
      | none => true
      | some parent_info => checkPackageParent env package ptx vsize parent_info
  else
    mempool_ancestors.all (fun it => (pool.entry it).tx.version ≠ TRUC_VERSION) &&
      in_package_parents.all fun tx => tx.version ≠ TRUC_VERSION

/-- The checks of `SingleTRUCChecks` against the other descendants of the parent: an error
comes with the sibling whose eviction may be considered. -/
def checkSiblings (pool : CTxMemPool) (parent_entry : Uint256) (direct_conflicts : List Uint256) :
    Option (Option Uint256) :=
  let parent := pool.entry parent_entry
  let children := parent.m_children
  let child_will_be_replaced :=
    children.any fun child => env.txid (pool.entry child).tx ∈ direct_conflicts
  if TRUC_DESCENDANT_LIMIT < parent.withDescendants.count + 1 ∧ !child_will_be_replaced then
    some (children.head?.bind fun child =>
      if parent.withDescendants.count = 2 ∧ (pool.entry child).withAncestors.count = 2 then
        some (env.txid (pool.entry child).tx)
      else none)
  else none

/-- `SingleTRUCChecks`: nothing, or an error with a sibling if it may be evicted. -/
def singleTRUCChecks (pool : CTxMemPool) (ptx : CTransaction) (mempool_ancestors : List Uint256)
    (direct_conflicts : List Uint256) (vsize : Nat) : Option (Option Uint256) :=
  if mempool_ancestors.any fun entry =>
      (ptx.version == TRUC_VERSION) != ((pool.entry entry).tx.version == TRUC_VERSION) then
    some none
  else if ptx.version ≠ TRUC_VERSION then none
  else if TRUC_MAX_VSIZE < vsize then some none
  else if TRUC_ANCESTOR_LIMIT < mempool_ancestors.length + 1 then some none
  else
    match mempool_ancestors with
    | [] => none
    | parent_entry :: _ =>
      if TRUC_CHILD_MAX_VSIZE < vsize then some none
      else checkSiblings env pool parent_entry direct_conflicts

section Spec

variable {env} {pool : CTxMemPool} {ptx : CTransaction}
  {mempool_ancestors direct_conflicts : List Uint256} {vsize : Nat} {sibling : Uint256}
  {parent_entry : Uint256} {package : List CTransaction}

theorem checkSiblings_sibling (h : pool.checkSiblings env parent_entry direct_conflicts =
    some (some sibling)) :
    ∃ child ∈ (pool.entry parent_entry).m_children, env.txid (pool.entry child).tx = sibling := by
  unfold checkSiblings at h
  dsimp only at h
  split at h
  · obtain ⟨child, hchild, hif⟩ := Option.bind_eq_some_iff.mp (Option.some.inj h)
    split at hif
    · exact ⟨child, mem_of_mem_head? hchild, Option.some.inj hif⟩
    · cases hif
  · cases h

theorem singleTRUCChecks_sibling
      (h : pool.singleTRUCChecks env ptx mempool_ancestors direct_conflicts vsize =
      some (some sibling)) :
    ∃ parent ∈ mempool_ancestors, ∃ child ∈ (pool.entry parent).m_children,
      env.txid (pool.entry child).tx = sibling := by
  unfold singleTRUCChecks at h
  split at h
  · cases h
  split at h
  · cases h
  split at h
  · cases h
  split at h
  · cases h
  split at h
  · cases h
  split at h
  · cases h
  · exact ⟨_, mem_cons_self, checkSiblings_sibling h⟩

theorem checkSiblings_none (h : pool.checkSiblings env parent_entry direct_conflicts = none) :
    (pool.entry parent_entry).withDescendants.count ≤ 1 ∨
        ∃ child ∈ (pool.entry parent_entry).m_children,
        env.txid (pool.entry child).tx ∈ direct_conflicts := by
  unfold checkSiblings at h
  dsimp only at h
  split at h
  · cases h
  next hfits =>
  rw [not_and_or] at hfits
  cases hfits with
  | inl hfew =>
    have hle : (pool.entry parent_entry).withDescendants.count + 1 ≤ 2 := Int.not_lt.mp hfew
    exact .inl (Int.le_sub_one_of_lt (Int.lt_of_lt_of_le (Int.lt_succ _) hle))
  | inr hreplaced =>
    have hany : ((pool.entry parent_entry).m_children.any fun child =>
        env.txid (pool.entry child).tx ∈ direct_conflicts) = true := by simpa using hreplaced
    obtain ⟨child, hchild, hconflict⟩ := any_eq_true.mp hany
    exact .inr ⟨child, hchild, of_decide_eq_true hconflict⟩

/-- What a transaction without an error in `SingleTRUCChecks` has passed, where a sibling that
is evicted is one of the conflicts. -/
structure PassedAlone (env : MempoolEnv) (pool : CTxMemPool) (ptx : CTransaction)
    (mempool_ancestors conflicts : List Uint256) (vsize : Nat) : Prop where
  versions : ∀ it ∈ mempool_ancestors,
    (pool.entry it).tx.version = TRUC_VERSION ↔ ptx.version = TRUC_VERSION
  size : ptx.version = TRUC_VERSION → vsize ≤ TRUC_MAX_VSIZE
  one : ptx.version = TRUC_VERSION → mempool_ancestors.length ≤ 1
  child : ptx.version = TRUC_VERSION → mempool_ancestors ≠ [] → vsize ≤ TRUC_CHILD_MAX_VSIZE
  siblings : ptx.version = TRUC_VERSION → ∀ it ∈ mempool_ancestors,
    (pool.entry it).withDescendants.count ≤ 1 ∨
      ∃ child ∈ (pool.entry it).m_children, env.txid (pool.entry child).tx ∈ conflicts

/-- The checks come down to the one against siblings. -/
theorem singleTRUCChecks_passed {conflicts : List Uint256}
    (h : pool.singleTRUCChecks env ptx mempool_ancestors direct_conflicts vsize ≠ some none)
    (hsiblings : ∀ it ∈ mempool_ancestors, pool.checkSiblings env it direct_conflicts =
        pool.singleTRUCChecks env ptx mempool_ancestors direct_conflicts vsize →
      (pool.entry it).withDescendants.count ≤ 1 ∨
        ∃ child ∈ (pool.entry it).m_children, env.txid (pool.entry child).tx ∈ conflicts) :
    PassedAlone env pool ptx mempool_ancestors conflicts vsize := by
  unfold singleTRUCChecks at h hsiblings
  split at h
  · exact absurd rfl h
  next hversions =>
  rw [if_neg hversions] at hsiblings
  have hsame : ∀ it ∈ mempool_ancestors,
      (pool.entry it).tx.version = TRUC_VERSION ↔ ptx.version = TRUC_VERSION := by
    intro it hit
    have hit := any_eq_false.mp (Bool.eq_false_of_not_eq_true hversions) it hit
    rw [Bool.not_eq_true, bne_eq_false_iff_eq, Bool.eq_iff_iff, beq_iff_eq, beq_iff_eq] at hit
    exact hit.symm
  split at h
  · next hother =>
    exact ⟨hsame, fun heq => absurd heq hother, fun heq => absurd heq hother,
      fun heq => absurd heq hother, fun heq => absurd heq hother⟩
  next hversion =>
  rw [if_neg hversion] at hsiblings
  split at h
  · exact absurd rfl h
  next hvsize =>
  rw [if_neg hvsize] at hsiblings
  split at h
  · exact absurd rfl h
  next hone =>
  rw [if_neg hone] at hsiblings
  have hlength := Nat.le_of_succ_le_succ (Nat.not_lt.mp hone)
  refine ⟨hsame, fun _ => Nat.not_lt.mp hvsize, fun _ => hlength, fun _ hne => ?_,
    fun _ it hit => ?_⟩
  · cases mempool_ancestors with
    | nil => exact absurd rfl hne
    | cons parent_entry rest =>
      dsimp only at h
      split at h
      · exact absurd rfl h
      · next hchild => exact Nat.not_lt.mp hchild
  · cases mempool_ancestors with
    | nil => cases hit
    | cons parent_entry rest =>
      dsimp only at h
      split at h
      · exact absurd rfl h
      next hchild =>
      obtain rfl : rest = [] :=
        length_eq_zero_iff.mp (Nat.le_zero.mp (Nat.le_of_succ_le_succ hlength))
      obtain rfl := mem_singleton.mp hit
      apply hsiblings it hit
      dsimp only
      rw [if_neg hchild]

theorem singleTRUCChecks_none (h : pool.singleTRUCChecks env ptx mempool_ancestors direct_conflicts
    vsize = none) : PassedAlone env pool ptx mempool_ancestors direct_conflicts vsize := by
  refine singleTRUCChecks_passed (by rw [h]; exact nofun) fun it _ hcheck => ?_
  exact checkSiblings_none (hcheck.trans h)

theorem singleTRUCChecks_evict
      (h : pool.singleTRUCChecks env ptx mempool_ancestors direct_conflicts vsize =
      some (some sibling)) :
    PassedAlone env pool ptx mempool_ancestors (direct_conflicts.insert sibling) vsize := by
  refine singleTRUCChecks_passed (by rw [h]; simp) fun it _ hcheck => .inr ?_
  obtain ⟨child, hchild, heq⟩ := checkSiblings_sibling (hcheck.trans h)
  exact ⟨child, hchild, heq ▸ mem_insert_self⟩

/-- The parents in the package are the transactions of it that are spent, when a package is
sorted. -/
theorem mem_findInPackageParents {tx : CTransaction}
    (hptx : ptx ∈ package) (hnoLoop : ¬ ptx.SpendsFrom (env.txid ptx))
    (horder : package.Pairwise fun first second => ¬ first.SpendsFrom (env.txid second)) :
    tx ∈ findInPackageParents env package ptx ↔ tx ∈ package ∧ ptx.SpendsFrom (env.txid tx) := by
  obtain ⟨before, after, rfl, hbefore⟩ := eq_append_cons_of_mem hptx
  have htake : (before ++ ptx :: after).takeWhile (· ≠ ptx) = before := by
    rw [takeWhile_append_of_pos fun tx htx =>
      decide_eq_true (ne_of_mem_of_not_mem htx hbefore), takeWhile_cons_of_neg (by simp),
      append_nil]
  unfold findInPackageParents
  rw [htake, mem_filter, decide_eq_true_eq]
  refine and_congr_left fun hspends => ⟨mem_append_left _, fun htx => ?_⟩
  refine (mem_append.mp htx).resolve_right fun hlast => ?_
  cases mem_cons.mp hlast with
  | inl heq => exact hnoLoop (heq ▸ hspends)
  | inr hafter =>
    have htail := (pairwise_append.mp horder).2.1
    exact (pairwise_cons.mp htail).1 tx hafter hspends

/-- What a transaction of a package has passed in `PackageTRUCChecks`. -/
structure PassedTogether (env : MempoolEnv) (pool : CTxMemPool) (package : List CTransaction)
    (ptx : CTransaction) (mempool_ancestors : List Uint256) (vsize : Nat) : Prop where
  versions : ∀ tx ∈ findInPackageParents env package ptx,
    tx.version = TRUC_VERSION ↔ ptx.version = TRUC_VERSION
  one : ptx.version = TRUC_VERSION →
    mempool_ancestors.length + (findInPackageParents env package ptx).length ≤ 1
  child : ptx.version = TRUC_VERSION → findInPackageParents env package ptx ≠ [] →
    vsize ≤ TRUC_CHILD_MAX_VSIZE
  others : ptx.version = TRUC_VERSION → ∀ parent,
    (parent ∈ mempool_ancestors.map (fun it => env.txid (pool.entry it).tx) ∨
      parent ∈ (findInPackageParents env package ptx).map env.txid) →
    ∀ other ∈ package, other ≠ ptx → ¬ other.SpendsFrom parent ∧ ¬ other.SpendsFrom (env.txid ptx)

theorem passedTogether_single
    (h : PassedAlone env pool ptx mempool_ancestors direct_conflicts vsize) :
    PassedTogether env pool [ptx] ptx mempool_ancestors vsize := by
  have hnone : findInPackageParents env [ptx] ptx = [] := by simp [findInPackageParents]
  refine ⟨fun tx htx => ?_, fun hversion => ?_, fun _ => absurd hnone,
    fun _ parent _ other hother hne => absurd (mem_singleton.mp hother) hne⟩
  · rw [hnone] at htx
    cases htx
  · rw [hnone]
    exact h.one hversion

theorem checkPackageParent_true {parent_info : ParentInfo}
    (h : checkPackageParent env package ptx vsize parent_info = true) :
    vsize ≤ TRUC_CHILD_MAX_VSIZE ∧ parent_info.m_version = TRUC_VERSION ∧
        ∀ other ∈ package, other ≠ ptx →
        ¬ other.SpendsFrom parent_info.m_txid ∧ ¬ other.SpendsFrom (env.txid ptx) := by
  unfold checkPackageParent at h
  simp only [Bool.and_eq_true, decide_eq_true_eq] at h
  obtain ⟨⟨⟨hvsize, hversion⟩, hall⟩, -⟩ := h
  refine ⟨hvsize, hversion, fun other hother hne => ?_⟩
  have hinputs := all_eq_true.mp hall other hother
  rw [decide_eq_false hne] at hinputs
  have hboth : ∀ input ∈ other.vin, input.prevout.hash ≠ parent_info.m_txid ∧
      input.prevout.hash ≠ env.txid ptx := by
    intro input hinput
    simpa using all_eq_true.mp hinputs input hinput
  exact ⟨fun ⟨input, hinput, heq⟩ => (hboth input hinput).1 heq,
    fun ⟨input, hinput, heq⟩ => (hboth input hinput).2 heq⟩

theorem packageTRUCChecks_true
    (h : pool.packageTRUCChecks env ptx vsize package mempool_ancestors = true) :
    PassedTogether env pool package ptx mempool_ancestors vsize := by
  unfold packageTRUCChecks at h
  split at h
  · next hversion =>
    simp only [Bool.and_eq_true, decide_eq_true_eq] at h
    obtain ⟨⟨-, hcount⟩, hparent⟩ := h
    have hone := Nat.le_of_succ_le_succ hcount
    have hfound : ∀ parent_info, findParent env pool mempool_ancestors
        (findInPackageParents env package ptx) = some parent_info → vsize ≤ TRUC_CHILD_MAX_VSIZE ∧
        parent_info.m_version = TRUC_VERSION ∧ ∀ other ∈ package, other ≠ ptx →
          ¬ other.SpendsFrom parent_info.m_txid ∧ ¬ other.SpendsFrom (env.txid ptx) := by
      intro parent_info hinfo
      rw [hinfo] at hparent
      exact checkPackageParent_true hparent
    have hpackage : ∀ tx ∈ findInPackageParents env package ptx,
        vsize ≤ TRUC_CHILD_MAX_VSIZE ∧ tx.version = TRUC_VERSION ∧ ∀ other ∈ package, other ≠ ptx →
          ¬ other.SpendsFrom (env.txid tx) ∧ ¬ other.SpendsFrom (env.txid ptx) := by
      intro tx htx
      have hlist := length_eq_one_iff.mp
        (Nat.le_antisymm (Nat.le_trans (Nat.le_add_left _ _) hone) (length_pos_of_mem htx))
      obtain ⟨only, honly⟩ := hlist
      rw [honly] at htx hone hfound
      obtain rfl := mem_singleton.mp htx
      obtain rfl : mempool_ancestors = [] :=
        length_eq_zero_iff.mp (Nat.le_zero.mp (Nat.le_of_succ_le_succ hone))
      exact hfound _ rfl
    refine ⟨fun tx htx => iff_of_true (hpackage tx htx).2.1 hversion, fun _ => hone,
      fun _ hne => ?_, fun _ parent hparent => ?_⟩
    · obtain ⟨tx, htx⟩ := exists_mem_of_ne_nil _ hne
      exact (hpackage tx htx).1
    cases hparent with
    | inl hmempool =>
      obtain ⟨_, hit, rfl⟩ := mem_map.mp hmempool
      cases mempool_ancestors with
      | nil => cases hit
      | cons first rest =>
        obtain rfl : rest = [] := length_eq_zero_iff.mp (Nat.le_zero.mp
          (Nat.le_of_succ_le_succ (Nat.le_trans (Nat.le_add_right _ _) hone)))
        obtain rfl := mem_singleton.mp hit
        exact (hfound _ rfl).2.2
    | inr hin =>
      obtain ⟨tx, htx, rfl⟩ := mem_map.mp hin
      exact (hpackage tx htx).2.2
  · next hversion =>
    have hall := all_eq_true.mp (Bool.and_eq_true_iff.mp h).2
    exact ⟨fun tx htx => iff_of_false (of_decide_eq_true (hall tx htx)) hversion,
      fun heq => absurd heq hversion, fun heq => absurd heq hversion,
      fun heq => absurd heq hversion⟩

end Spec

end CTxMemPool

end BtcSharp
