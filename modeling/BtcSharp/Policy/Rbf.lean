/-
# Rules for replacements

The checks of `policy/rbf.cpp` that decide whether transactions may replace entries of the
mempool, without the texts of their errors, and what they say of a mempool in order.
Converting a fee rate to a fee goes through floating point numbers and is left to the
caller.
-/

import Mathlib.Algebra.BigOperators.Ring.Finset
import BtcSharp.Mempool.Operations

namespace BtcSharp

open List Math Relation

structure CFeeRate where
  nSatoshisPerK : Int
  deriving DecidableEq, Repr

/-- The constructor of `CFeeRate` from a fee and a size. -/
def CFeeRate.new (nFeePaid : Int) (num_bytes : Nat) : CFeeRate :=
  ⟨if 0 < num_bytes then (toAmount (nFeePaid * 1000)).tdiv num_bytes else 0⟩

def MAX_REPLACEMENT_CANDIDATES : Nat := 100

namespace CTxMemPool

variable (env : MempoolEnv)

/-- The loop of `GetEntriesForConflicts` that counts what may be replaced. -/
def countConflicts (pool : CTxMemPool) : List Uint256 → Int → Bool
  | [], _ => true
  | mi :: iters_conflicting, nConflictingCount =>
    let nConflictingCount := nConflictingCount + (pool.entry mi).withDescendants.count
    if MAX_REPLACEMENT_CANDIDATES < nConflictingCount then false
    else countConflicts pool iters_conflicting nConflictingCount

/-- `GetEntriesForConflicts`: all entries that would be evicted, unless there may be too
many. -/
def getEntriesForConflicts (pool : CTxMemPool) (iters_conflicting : List Uint256) :
    Option (List Uint256) :=
  if pool.countConflicts iters_conflicting 0 then
    some (pool.calculateAllDescendants iters_conflicting)
  else none

def hasNoNewUnconfirmed (pool : CTxMemPool) (tx : CTransaction) (iters_conflicting : List Uint256) :
    Bool :=
  let parents_of_conflicts := iters_conflicting.flatMap fun mi =>
    (pool.entry mi).tx.vin.map (·.prevout.hash)
  tx.vin.all fun txin =>
    decide (txin.prevout.hash ∈ parents_of_conflicts) || decide (txin.prevout.hash ∉ pool.txids)

def entriesAndTxidsDisjoint (pool : CTxMemPool) (ancestors direct_conflicts : List Uint256) :
    Bool :=
  ancestors.all fun ancestorIt => env.txid (pool.entry ancestorIt).tx ∉ direct_conflicts

def paysMoreThanConflicts (pool : CTxMemPool) (iters_conflicting : List Uint256)
    (replacement_feerate : CFeeRate) : Bool :=
  iters_conflicting.all fun mi =>
    (CFeeRate.new (pool.entry mi).m_modified_fee ((pool.entry mi).getTxSize env)).nSatoshisPerK <
      replacement_feerate.nSatoshisPerK

/-- `PaysForRBF`, with the fee at the relay fee rate for the size of the replacement. -/
def paysForRBF (original_fees replacement_fees relay_fee : Int) : Bool :=
  decide (original_fees ≤ replacement_fees) &&
    decide (relay_fee ≤ toAmount (replacement_fees - original_fees))

/-- The modified fees of some entries. -/
def feesOf (pool : CTxMemPool) (its : List Uint256) : Int :=
  (its.map fun it => (pool.entry it).m_modified_fee).sum

section Spec

variable {env} {pool : CTxMemPool} {readded its all_conflicts : List Uint256} {tx : CTransaction}

theorem countConflicts_le {nConflictingCount : Int} (hstart : nConflictingCount ≤ 100)
    (h : pool.countConflicts its nConflictingCount = true) :
    nConflictingCount + (its.map fun it => (pool.entry it).withDescendants.count).sum ≤ 100 := by
  induction its generalizing nConflictingCount with
  | nil => simpa using hstart
  | cons it its ih =>
    rw [countConflicts] at h
    split at h
    · cases h
    next hle =>
    have hnext : nConflictingCount + (pool.entry it).withDescendants.count ≤ 100 :=
      Int.not_lt.mp hle
    have hrest := ih hnext h
    rw [map_cons, sum_cons, ← Int.add_assoc]
    exact hrest

/-- The count with descendants is the number of entries that would go. -/
theorem InOrder.length_descendants (h : InOrder env readded pool) {it : Uint256}
    (hit : it ∈ pool.txids) :
    ((pool.calculateAllDescendants [it]).length : Int) = (pool.entry it).withDescendants.count := by
  obtain ⟨hnodup, hmem⟩ := h.kept.links.strict_descendants hit
  have hself : it ∈ pool.calculateAllDescendants [it] :=
    ((h.kept.links.calculateAllDescendants fun other hother =>
      mem_singleton.mp hother ▸ hit).2.2 it).mpr ⟨it, mem_singleton.mpr rfl, .refl⟩
  have hpos := length_pos_of_mem hself
  have hcount := h.kept.exact.descendants it hit .count (by decide) (sound_of_ne (by decide))
  rw [relTotal_eq_list hnodup fun other => ?_] at hcount
  · have hones : (((pool.calculateDescendants it []).erase it).map (pool.weight env .count)).sum =
        (((pool.calculateDescendants it []).erase it).length : Int) := by
      have hone : pool.weight env .count = fun _ => 1 := rfl
      rw [hone, map_const', sum_replicate, nsmul_one]
    have hlength := length_erase_of_mem hself
    have hone : pool.weight env .count it = 1 := rfl
    have hget :
      (pool.entry it).withDescendants.count = (pool.entry it).withDescendants.get .count :=
      rfl
    have hlist : pool.calculateAllDescendants [it] = pool.calculateDescendants it [] := rfl
    rw [hlist] at hlength hpos ⊢
    omega
  · rw [hmem, mem_nodes]
    exact (and_iff_right_of_imp fun hpath => (h.kept.links.path_mem hpath).2).symm

/-- What is evicted are the conflicts with their descendants, and they are not too many. -/
theorem InOrder.entriesForConflicts (h : InOrder env [] pool) (hits : ∀ it ∈ its, it ∈ pool.txids)
    (hall : pool.getEntriesForConflicts its = some all_conflicts) :
    pool.Removable all_conflicts false ∧ all_conflicts.length ≤ MAX_REPLACEMENT_CANDIDATES ∧
      ∀ other, other ∈ all_conflicts ↔ ∃ it ∈ its, ReflTransGen pool.Spends it other := by
  unfold getEntriesForConflicts at hall
  split at hall
  · next hcount =>
    cases hall
    obtain ⟨hnodup, hclosed, hmem⟩ := h.kept.links.calculateAllDescendants hits
    have hthere : ∀ other ∈ pool.calculateAllDescendants its, other ∈ pool.txids := by
      intro other hother
      obtain ⟨it, hit, hpath⟩ := (hmem other).mp hother
      rcases reflTransGen_iff_eq_or_transGen.mp hpath with rfl | hpath
      · exact hits _ hit
      · exact (h.kept.links.path_mem hpath).2
    refine ⟨⟨hnodup, hthere, hclosed⟩, ?_, ?_⟩
    · have hsubset : pool.calculateAllDescendants its ⊆
          its.flatMap fun it => pool.calculateAllDescendants [it] := by
        intro other hother
        obtain ⟨it, hit, hpath⟩ := (hmem other).mp hother
        refine mem_flatMap.mpr ⟨it, hit, ?_⟩
        exact ((h.kept.links.calculateAllDescendants fun other hother =>
          mem_singleton.mp hother ▸ hits it hit).2.2 other).mpr ⟨it, mem_singleton.mpr rfl, hpath⟩
      have hlength := (subperm_of_subset hnodup hsubset).length_le
      rw [length_flatMap] at hlength
      have hsum : ((its.map fun it => (pool.calculateAllDescendants [it]).length).sum : Int) =
          (its.map fun it => (pool.entry it).withDescendants.count).sum := by
        rw [map_congr_left fun it hit => (h.length_descendants (hits it hit)).symm,
          Nat.cast_list_sum, List.map_map]
        rfl
      have hle := countConflicts_le (by decide) hcount
      unfold MAX_REPLACEMENT_CANDIDATES
      omega
    · rw [← h.linked_eq]
      exact hmem
  · cases hall

end Spec

end CTxMemPool

end BtcSharp
