/-
# The sanity check of a cache

The conditions of `SanityCheck`: legal flags, an exact linked list, and a memory usage that is the
sum over the entries. All operations account for the coin they remove and the one they store, but
`AddCoin` refunds a coin before it throws, and `EmplaceCoinInternalDANGER` charges a coin that it
does not store if there is an entry.

The usage of an entry is that of the memory allocated for its script. This is not known from the
script alone: a coin keeps the memory it is moved with, and a copy keeps that of the coin before.
-/

import BtcSharp.Coins.Layer
import BtcSharp.Math.PointWrites
import Mathlib.Data.Fintype.Prod

namespace BtcSharp

/-- There are finitely many outpoints. -/
noncomputable instance : Fintype COutPoint :=
  Fintype.ofInjective (fun outpoint => (outpoint.hash.toFin, outpoint.n.toFin)) (by
    rintro ⟨hash, n⟩ ⟨hash', n'⟩ heq
    obtain ⟨hhash, hn⟩ := Prod.mk.inj heq
    exact congrArg₂ COutPoint.mk (BitVec.toFin_inj.mp hhash) (UInt32.toFin_inj.mp hn))

/-- The attributes of an entry as `SanityCheck` numbers them. -/
def CCoinsCacheEntry.attr (entry : CCoinsCacheEntry) : Nat :=
  (if entry.dirty then 1 else 0) ||| (if entry.fresh then 2 else 0) |||
    if entry.coin.isSpent then 4 else 0

/-- One of the five combinations that are possible. -/
def CCoinsCacheEntry.Possible (entry : CCoinsCacheEntry) : Prop :=
  entry.attr ≠ 2 ∧ entry.attr ≠ 4 ∧ entry.attr ≠ 7

/-- The conditions of `SanityCheck`. -/
structure CCoinsViewCache.SanityCheck (top : CCoinsViewCache) : Prop where
  possible : ∀ outpoint entry, top.cacheCoins outpoint = some entry → entry.Possible
  linked : top.Linked
  usage : ∑ outpoint, usageOf (top.cacheCoins outpoint) = top.cachedCoinsUsage

/-- Nothing is allocated for the script of a spent coin. -/
def CCoinsCacheEntry.Cleared (entry : CCoinsCacheEntry) : Prop :=
  entry.coin.isSpent = true → entry.allocated = 0

namespace CCoinsViewCache

/-- The calls that change a cache. The usage that a throwing `AddCoin` refunds, that
`EmplaceCoinInternalDANGER` charges for an entry which is there, or that a failed `Flush` drops is
zero. A coin that comes from outside has no script if it is spent; its memory can be more than its
script needs. -/
inductive Step (top : CCoinsViewCache) : CCoinsViewCache → Prop
  | fetchCoin {outpoint : COutPoint} {coin : Coin} (hnone : top.cacheCoins outpoint = none)
    (hcleared : coin.isSpent = true → coin.allocation = 0) :
    Step top (top.insertFetched outpoint coin)
  | addCoin {outpoint : COutPoint} {coin : Coin} {possible_overwrite : Bool} {allocated : Nat}
    (hharmless :
      (top.addCoin outpoint coin possible_overwrite allocated).1 = .error .overwriteUnspent →
        usageOf (top.cacheCoins outpoint) = 0) :
      Step top (top.addCoin outpoint coin possible_overwrite allocated).2
  | emplaceCoinInternalDANGER {outpoint : COutPoint} {coin : Coin} {allocated : Nat}
    (hharmless : (top.cacheCoins outpoint).isSome = true → mallocUsage allocated = 0)
    (hcleared : coin.isSpent = true → allocated = 0) :
    Step top (top.emplaceCoinInternalDANGER outpoint coin allocated)
  | spendCoin {outpoint : COutPoint} {entry : CCoinsCacheEntry}
    (hentry : top.cacheCoins outpoint = some entry) : Step top (top.spendEntry outpoint entry)
  | uncache (outpoint : COutPoint) : Step top (top.uncache outpoint)
  | batchWrite {outpoint : COutPoint} {entry : CCoinsCacheEntry} {will_erase : Bool}
    {top' : CCoinsViewCache} (hcleared : entry.Cleared)
    (hok : top.receiveEntry will_erase outpoint entry = .ok top') : Step top top'
  | sync {current : COutPoint} {entry : CCoinsCacheEntry}
    (hentry : top.cacheCoins current = some entry) : Step top (top.nextAndMaybeErase false current)
  | flush : Step top { top with cacheCoins := fun _ => none, flagged := [], cachedCoinsUsage := 0 }
  | flushFails (hharmless : top.cachedCoinsUsage = 0) : Step top { top with cachedCoinsUsage := 0 }
  | setBestBlock (hashBlock : Uint256) : Step top { top with hashBlock := hashBlock }

variable {top top' : CCoinsViewCache} {outpoint : COutPoint} {coin : Coin}
    {cell : Option CCoinsCacheEntry}

/-- What holds along a run. -/
structure Sound (top : CCoinsViewCache) : Prop extends SanityCheck top where
  cleared : ∀ outpoint entry, top.cacheCoins outpoint = some entry → entry.Cleared

theorem Accounted.sound (hset : Accounted top outpoint cell top') (h : top.Sound)
    (hcell : ∀ entry ∈ cell, entry.Possible ∧ entry.Cleared) : top'.Sound := by
  refine ⟨⟨hset.forall_entries h.possible fun entry hentry => (hcell entry hentry).1,
    hset.linked h.linked, ?_⟩, hset.forall_entries h.cleared fun entry hentry =>
      (hcell entry hentry).2⟩
  have hsum := Math.sum_update (fun _ => usageOf) top.cacheCoins outpoint cell
  rw [← hset.cells, h.usage] at hsum
  rw [hset.usage, eq_sub_of_add_eq hsum, sub_add_eq_add_sub]

theorem possible_of {dirty fresh : Bool} {allocated : Nat}
    (h : (if dirty then fresh && coin.isSpent else fresh != coin.isSpent) = false)
    (hcleared : coin.isSpent = true → allocated = 0) :
    ∀ entry ∈ some (⟨coin, dirty, fresh, allocated⟩ : CCoinsCacheEntry),
      entry.Possible ∧ entry.Cleared := by
  rintro _ ⟨rfl⟩
  refine ⟨?_, hcleared⟩
  revert h
  cases hspent : coin.isSpent <;> cases dirty <;> cases fresh <;>
    simp [CCoinsCacheEntry.Possible, CCoinsCacheEntry.attr, hspent]

theorem assign_cleared {itUs entry : CCoinsCacheEntry} (will_erase : Bool)
    (hcleared : entry.Cleared) (hspent : entry.coin.isSpent = true) :
    itUs.assign entry (will_erase || entry.coin.isSpent) = 0 := by
  rw [hspent, Bool.or_true]
  exact hcleared hspent

section

variable (h : top.Sound)

include h

/-- Only the usage can get out of step. -/
theorem Sound.chargeUsage_iff (delta : UInt64) : (top.chargeUsage delta).SanityCheck ↔
    delta = 0 := by
  constructor
  · intro hcharged
    exact add_eq_left.mp (hcharged.usage.symm.trans h.usage)
  · rintro rfl
    exact ⟨h.possible, h.linked.chargeUsage _, h.usage.trans (add_zero _).symm⟩

/-- `AddCoin` does nothing, throws after the refund, or stores the coin. -/
theorem Sound.addCoin (outpoint : COutPoint) (coin : Coin) (possible_overwrite : Bool)
    (allocated : Nat) :
    top.addCoin outpoint coin possible_overwrite allocated =
        (.error .overwriteUnspent, top.refundUsage (usageOf (top.cacheCoins outpoint))) ∨
      (top.addCoin outpoint coin possible_overwrite allocated).1 ≠ .error .overwriteUnspent ∧
        (top.addCoin outpoint coin possible_overwrite allocated).2.Sound := by
  cases hspent : coin.isSpent with
  | true => simp [CCoinsViewCache.addCoin, hspent, h]
  | false =>
  cases hscript : coin.out.scriptPubKey.isUnspendable with
  | true => simp [CCoinsViewCache.addCoin, hspent, hscript, h]
  | false =>
  cases hguard : !possible_overwrite && !((top.cacheCoins outpoint).getD {}).coin.isSpent with
  | true =>
    simp [CCoinsViewCache.addCoin, hspent, hscript, hguard, addCoin_refunds]
  | false =>
    right
    obtain ⟨hok, hset⟩ :=
      @addCoin_accounted top outpoint coin allocated _ hspent hscript (by simpa using hguard)
    rw [hok]
    exact ⟨by simp, hset.sound h (possible_of (by simp [hspent]) (by simp [hspent]))⟩

theorem Sound.emplace_iff (outpoint : COutPoint) (coin : Coin) (allocated : Nat)
    (hcleared : coin.isSpent = true → allocated = 0) :
    (top.emplaceCoinInternalDANGER outpoint coin allocated).SanityCheck ↔
      ((top.cacheCoins outpoint).isSome = true → mallocUsage allocated = 0) := by
  unfold emplaceCoinInternalDANGER
  cases hentry : top.cacheCoins outpoint with
  | some entry => simpa using h.chargeUsage_iff _
  | none =>
    refine iff_of_true ?_ nofun
    exact ((create_accounted hentry coin false _).sound h (possible_of rfl hcleared)).toSanityCheck

theorem Sound.step (hstep : Step top top') : top'.Sound := by
  cases hstep with
  | fetchCoin hnone hcleared =>
    exact (insertFetched_accounted hnone _).sound h (possible_of (by simp) hcleared)
  | @addCoin outpoint coin possible_overwrite allocated hharmless =>
    rcases h.addCoin outpoint coin possible_overwrite allocated with hthrows | ⟨-, hkept⟩
    · rw [hthrows] at hharmless ⊢
      simpa [hharmless rfl, refundUsage] using h
    · exact hkept
  | @emplaceCoinInternalDANGER outpoint coin allocated hharmless hcleared =>
    refine ⟨(h.emplace_iff _ _ _ hcleared).mpr hharmless, ?_⟩
    unfold CCoinsViewCache.emplaceCoinInternalDANGER
    cases hentry : top.cacheCoins outpoint with
    | some entry => exact h.cleared
    | none =>
      exact ((create_accounted hentry coin false _).sound h (possible_of rfl hcleared)).cleared
  | spendCoin hentry =>
    apply (spendEntry_accounted hentry).sound h
    split
    · exact nofun
    · exact possible_of rfl fun _ => rfl
  | uncache outpoint =>
    unfold uncache
    split
    · exact h
    next hentry =>
    split
    · exact h
    · exact (erase_accounted hentry).sound h nofun
  | batchWrite hcleared hok =>
    unfold receiveEntry at hok
    split at hok
    · cases hok
      exact h
    split at hok
    · next hnone =>
      split at hok <;> cases hok
      · exact h
      next hkeep =>
      exact (create_accounted hnone _ _ _).sound h
        (possible_of (by simpa using hkeep) (assign_cleared _ hcleared))
    next hus =>
    split at hok
    · cases hok
    split at hok <;> cases hok
    · exact (erase_accounted hus).sound h nofun
    next hkeep =>
    exact (overwrite_accounted hus _ _).sound h
      (possible_of (by simpa using hkeep) (assign_cleared _ hcleared))
  | sync hentry =>
    apply (nextAndMaybeErase_accounted hentry).sound h
    split
    · exact nofun
    next hspent =>
    exact possible_of (by simp [hspent]) fun hcontra => absurd hcontra hspent
  | flush => exact ⟨⟨nofun, ⟨.nil, by simp⟩, by simp [usageOf]⟩, nofun⟩
  | flushFails hharmless =>
    exact ⟨⟨h.possible, ⟨h.linked.nodup, h.linked.mem_iff⟩, h.usage.trans hharmless⟩, h.cleared⟩
  | setBestBlock hashBlock =>
    exact ⟨⟨h.possible, h.linked.setHashBlock _, h.usage⟩, h.cleared⟩

end

/-- A coin with a script of some length. -/
def coinOfLength (length : Nat) : Coin := ⟨⟨1, List.replicate length 0⟩, false, 0⟩

theorem reaches_coinOfLength (length : Nat) :
    Relation.ReflTransGen Step {} (addCoin {} ⟨0, 0⟩ (coinOfLength length) false).2 :=
  .single (.addCoin (by simp [usageOf]))

/-- A cache stores a coin with a script of 30 bytes, which is then replaced by the coin without a
script of a child that syncs. -/
def keptMemory : CCoinsViewCache :=
  let entry : CCoinsCacheEntry := { coin := coinOfLength 0, dirty := true }
  ((addCoin {} ⟨0, 0⟩ (coinOfLength 30) false).2.receiveEntry false ⟨0, 0⟩ entry).toOption.getD {}

theorem reaches_keptMemory : Relation.ReflTransGen Step {} keptMemory :=
  (reaches_coinOfLength 30).tail (@Step.batchWrite _ ⟨0, 0⟩
    { coin := coinOfLength 0, dirty := true } false _ (fun _ => rfl) rfl)

end CCoinsViewCache

end BtcSharp
