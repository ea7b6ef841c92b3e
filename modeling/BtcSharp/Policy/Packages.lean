/-
# Packages of transactions

The checks of a package that need neither coins nor a mempool, from `policy/packages.cpp`,
and what a package that passes them looks like. The sets of ids and of outpoints are lists.
-/

import BtcSharp.Mempool.Links

namespace BtcSharp

open List

def MAX_PACKAGE_COUNT : Nat := 25
def MAX_PACKAGE_WEIGHT : Nat := 404000

/-- `PackageValidationResult`, without its initial value. -/
inductive PackageValidationResult
  | pckgPolicy
  | pckgTx
  | pckgMempoolError
  deriving DecidableEq, Repr

/-- A `PackageValidationState` that was marked invalid. -/
structure PackageValidationState where
  result : PackageValidationResult
  reason : String
  deriving DecidableEq, Repr

section

variable (txid : CTransaction → Uint256)

/-- `IsTopoSortedPackage`, with the ids of the transactions that come later. -/
def isTopoSortedPackage : List CTransaction → List Uint256 → Bool
  | [], _ => true
  | tx :: txns, later_txids =>
    if tx.vin.any fun input => input.prevout.hash ∈ later_txids then false
    else isTopoSortedPackage txns (later_txids.erase (txid tx))

/-- `IsConsistentPackage`, with the inputs of the transactions that came before. -/
def isConsistentPackage : List CTransaction → List COutPoint → Bool
  | [], _ => true
  | tx :: txns, inputs_seen =>
    if tx.vin.isEmpty then false
    else if tx.vin.any fun input => input.prevout ∈ inputs_seen then false
    else isConsistentPackage txns (inputs_seen ++ tx.vin.map (·.prevout))

/-- `IsWellFormedPackage`: nothing, or the state it is marked invalid with. -/
def isWellFormedPackage (txns : List CTransaction) (require_sorted : Bool) :
    Option PackageValidationState :=
  if MAX_PACKAGE_COUNT < txns.length then
    some ⟨.pckgPolicy, "package-too-many-transactions"⟩
  else if 1 < txns.length ∧ MAX_PACKAGE_WEIGHT < (txns.map getTransactionWeight).sum then
    some ⟨.pckgPolicy, "package-too-large"⟩
  else if ¬ (txns.map txid).Nodup then some ⟨.pckgPolicy, "package-contains-duplicates"⟩
  else if require_sorted && !isTopoSortedPackage txid txns (txns.map txid) then
    some ⟨.pckgPolicy, "package-not-sorted"⟩
  else if !isConsistentPackage txns [] then some ⟨.pckgPolicy, "conflict-in-package"⟩
  else none

def isChildWithParents (package : List CTransaction) : Bool :=
  match package.getLast? with
  | none => false
  | some child => decide (2 ≤ package.length) &&
      package.dropLast.all fun ptx => child.SpendsFrom (txid ptx)

/-! ## What a package that passes looks like -/

/-- A package in which parents come first and no outpoint is spent twice. -/
structure WellFormed (txns : List CTransaction) : Prop where
  nodup : (txns.map txid).Nodup
  noLoop : ∀ tx ∈ txns, ¬ tx.SpendsFrom (txid tx)
  order : txns.Pairwise fun first second => ¬ first.SpendsFrom (txid second)
  noConflict : txns.Pairwise fun first second =>
    ∀ txin ∈ second.vin, ∀ other ∈ first.vin, other.prevout ≠ txin.prevout

variable {txid} {txns : List CTransaction}

theorem isTopoSortedPackage_spec {later_txids : List Uint256} (hnodup : (txns.map txid).Nodup)
    (hlater : ∀ tx ∈ txns, txid tx ∈ later_txids)
    (h : isTopoSortedPackage txid txns later_txids = true) :
    (∀ tx ∈ txns, ¬ tx.SpendsFrom (txid tx)) ∧
      txns.Pairwise fun first second => ¬ first.SpendsFrom (txid second) := by
  induction txns generalizing later_txids with
  | nil => exact ⟨nofun, .nil⟩
  | cons tx txns ih =>
    rw [isTopoSortedPackage] at h
    split at h
    · cases h
    next hnone =>
    obtain ⟨hnotin, hnodup⟩ := nodup_cons.mp hnodup
    have hfree : ∀ id ∈ later_txids, ¬ tx.SpendsFrom id := by
      intro id hid hspends
      obtain ⟨txin, htxin, heq⟩ := hspends
      apply hnone
      rw [any_eq_true]
      exact ⟨txin, htxin, decide_eq_true (heq ▸ hid)⟩
    have hrest : ∀ other ∈ txns, txid other ∈ later_txids.erase (txid tx) := by
      intro other hother
      have hne : txid other ≠ txid tx := fun heq =>
        hnotin (mem_map.mpr ⟨other, hother, heq⟩)
      exact (mem_erase_of_ne hne).mpr (hlater other (mem_cons_of_mem _ hother))
    obtain ⟨hloop, horder⟩ := ih hnodup hrest h
    constructor
    · intro other hother
      rcases mem_cons.mp hother with rfl | hother
      · exact hfree _ (hlater _ mem_cons_self)
      · exact hloop other hother
    · apply Pairwise.cons _ horder
      exact fun other hother => hfree _ (hlater other (mem_cons_of_mem _ hother))

theorem isConsistentPackage_spec {inputs_seen : List COutPoint}
    (h : isConsistentPackage txns inputs_seen = true) :
    (∀ tx ∈ txns, ∀ txin ∈ tx.vin, txin.prevout ∉ inputs_seen) ∧ txns.Pairwise fun first second =>
        ∀ txin ∈ second.vin, ∀ other ∈ first.vin, other.prevout ≠ txin.prevout := by
  induction txns generalizing inputs_seen with
  | nil => exact ⟨nofun, .nil⟩
  | cons tx txns ih =>
    rw [isConsistentPackage] at h
    split at h
    · cases h
    split at h
    · cases h
    next hnone =>
    obtain ⟨hunseen, hpairwise⟩ := ih h
    constructor
    · intro other hother txin htxin
      rcases mem_cons.mp hother with rfl | hother
      · intro hseen
        apply hnone
        rw [any_eq_true]
        exact ⟨txin, htxin, decide_eq_true hseen⟩
      · exact fun hseen => hunseen other hother txin htxin (mem_append_left _ hseen)
    · apply Pairwise.cons _ hpairwise
      intro second hsecond txin htxin other hother heq
      apply hunseen second hsecond txin htxin
      exact mem_append_right _ (mem_map.mpr ⟨other, hother, heq⟩)

theorem isWellFormedPackage_none (h : isWellFormedPackage txid txns true = none) :
    WellFormed txid txns := by
  unfold isWellFormedPackage at h
  split at h
  · cases h
  split at h
  · cases h
  split at h
  · cases h
  next hduplicates =>
  have hnodup := not_not.mp hduplicates
  split at h
  · cases h
  next hsorted =>
  split at h
  · cases h
  next hconsistent =>
  have htopo : isTopoSortedPackage txid txns (txns.map txid) = true := by simpa using hsorted
  obtain ⟨hloop, horder⟩ :=
    isTopoSortedPackage_spec hnodup (fun tx htx => mem_map.mpr ⟨tx, htx, rfl⟩) htopo
  have hinputs : isConsistentPackage txns [] = true := by simpa using hconsistent
  exact ⟨hnodup, hloop, horder, (isConsistentPackage_spec hinputs).2⟩

end

end BtcSharp
