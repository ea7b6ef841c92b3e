/-
# Coins and cache entries

The `Coin` and `CCoinsCacheEntry` of `coins.h`, and one `CCoinsViewCache` with
the operations that touch only its own map. The linked list behind `m_sentinel`
is the list of flagged outpoints in link order. A cache is modelled as a partial
map because no function here iterates over `cacheCoins` itself: the cursors walk
the linked list.
-/

import BtcSharp.Primitives.Transaction

namespace BtcSharp

/-- An unspent output with its origin. The height lives in a 31-bit field. -/
structure Coin where
  out : CTxOut
  fCoinBase : Bool
  nHeight : Nat
  deriving DecidableEq, Repr

namespace Coin

/-- The constructor from an output, truncating the height to its field. -/
def ofTxOut (out : CTxOut) (nHeight : Nat) (fCoinBase : Bool) : Coin :=
  ⟨out, fCoinBase, nHeight % 2 ^ 31⟩

/-- The empty coin: the default constructor, `Clear` and `coinEmpty`. -/
def empty : Coin := ⟨CTxOut.null, false, 0⟩

/-- Either this coin never existed, or it has been spent. -/
def isSpent (coin : Coin) : Bool := coin.out.isNull

@[simp]
theorem isSpent_empty : empty.isSpent = true := rfl

/-- Read a stored coin as the coin it stands for: none once spent. -/
def unspent (coin : Coin) : Option Coin := if coin.isSpent then none else some coin

@[simp]
theorem unspent_empty : empty.unspent = none := rfl

theorem unspent_of_not_isSpent {coin : Coin} (h : coin.isSpent = false) :
    coin.unspent = some coin := by
  simp [unspent, h]

theorem unspent_of_isSpent {coin : Coin} (h : coin.isSpent = true) : coin.unspent = none := by
  simp [unspent, h]

theorem isSpent_of_unspent_eq {coin other : Coin} (h : coin.unspent = some other) :
    coin.isSpent = false ∧ other = coin := by
  unfold unspent at h
  split at h
  · cases h
  · next hspent => exact ⟨by simpa using hspent, (Option.some.inj h).symm⟩

/-- What is allocated for the script of a coin that was just made, read or copied: a `prevector`
stores up to 28 bytes in place. -/
def allocation (coin : Coin) : Nat :=
  if coin.out.scriptPubKey.length ≤ 28 then 0 else coin.out.scriptPubKey.length

end Coin

/-- `memusage::MallocUsage` on a 64-bit platform. -/
def mallocUsage (alloc : Nat) : UInt64 :=
  if alloc = 0 then 0 else ((UInt64.ofNat alloc + 31) >>> 4) <<< 4

/-- A coin in one level of the caching hierarchy, with its two flags. -/
structure CCoinsCacheEntry where
  coin : Coin := Coin.empty
  dirty : Bool := false
  fresh : Bool := false
  /-- `allocated_memory` of the script, which can be more than its bytes need. -/
  allocated : Nat := coin.allocation
  deriving DecidableEq, Repr

/-- `Coin::DynamicMemoryUsage` of the coin of an entry. -/
def CCoinsCacheEntry.dynamicMemoryUsage (entry : CCoinsCacheEntry) : UInt64 :=
  mallocUsage entry.allocated

/-- What is allocated for an entry after the coin of another is assigned to it. A coin that will be
erased is moved with its memory; a copy stays in the memory that is there if it has room. -/
def CCoinsCacheEntry.assign (itUs entry : CCoinsCacheEntry) (willErase : Bool) : Nat :=
  if willErase then entry.allocated
  else if entry.coin.out.scriptPubKey.length ≤ max 28 itUs.allocated then itUs.allocated
  else entry.coin.out.scriptPubKey.length

/-- A flagged entry is DIRTY, FRESH or both; exactly these are linked. -/
def CCoinsCacheEntry.isFlagged (entry : CCoinsCacheEntry) : Bool := entry.dirty || entry.fresh

/-- A `CCoinsViewCache` without its backend. -/
structure CCoinsViewCache where
  hashBlock : Uint256 := 0
  cacheCoins : COutPoint → Option CCoinsCacheEntry := fun _ => none
  flagged : List COutPoint := []
  cachedCoinsUsage : UInt64 := 0

/-- The errors that stop an operation: the two logic errors of `BatchWrite` and
`Sync`, the one of `AddCoin`, and failed assertions. -/
inductive CoinsError
  | overwriteUnspent
  | freshMisapplied
  | notAllCleared
  | assertion
  deriving DecidableEq, Repr

namespace CCoinsViewCache

variable (cache : CCoinsViewCache) (outpoint : COutPoint)

/-- `CCoinsCacheEntry::AddFlags`: an entry without flags is linked at the end of
the list, then the flags are or-ed in. -/
def addFlags (dirty fresh : Bool) : CCoinsViewCache :=
  match cache.cacheCoins outpoint with
  | none => cache
  | some entry =>
    { cache with
      cacheCoins := Function.update cache.cacheCoins outpoint
        (some { entry with dirty := entry.dirty || dirty, fresh := entry.fresh || fresh })
      flagged := if entry.isFlagged then cache.flagged else cache.flagged ++ [outpoint] }

def setDirty : CCoinsViewCache :=
  cache.addFlags outpoint true false

def setFresh : CCoinsViewCache :=
  cache.addFlags outpoint false true

/-- `CCoinsCacheEntry::SetClean`: unlink the entry and clear its flags. -/
def setClean : CCoinsViewCache :=
  match cache.cacheCoins outpoint with
  | none => cache
  | some entry =>
    { cache with
      cacheCoins := Function.update cache.cacheCoins outpoint
        (some { entry with dirty := false, fresh := false })
      flagged := cache.flagged.erase outpoint }

/-- Erase an entry. Its destructor unlinks it. -/
def erase (cache : CCoinsViewCache) (outpoint : COutPoint) : CCoinsViewCache :=
  { cache with
    cacheCoins := Function.update cache.cacheCoins outpoint none
    flagged := cache.flagged.erase outpoint }

/-- Overwrite the coin of an entry, keeping its flags, or create the entry. -/
def setCoin (coin : Coin) (allocated : Nat) : CCoinsViewCache :=
  { cache with
    cacheCoins := Function.update cache.cacheCoins outpoint
      (some { (cache.cacheCoins outpoint).getD {} with coin := coin, allocated := allocated }) }

/-- Charge a change of memory usage to the cache. -/
def chargeUsage (delta : UInt64) : CCoinsViewCache :=
  { cache with cachedCoinsUsage := cache.cachedCoinsUsage + delta }

/-- Refund a change of memory usage. -/
def refundUsage (delta : UInt64) : CCoinsViewCache :=
  { cache with cachedCoinsUsage := cache.cachedCoinsUsage - delta }

/-- The branch of `FetchCoin` that inserts what the backend returned. A coin the
backend reports as spent is only an empty entry there, so ours is fresh. -/
def insertFetched (coin : Coin) : CCoinsViewCache :=
  let filled :=
    (cache.setCoin outpoint coin coin.allocation).chargeUsage (mallocUsage coin.allocation)
  if coin.isSpent then filled.setFresh outpoint else filled

/-- `CCoinsViewCache::AddCoin`. The state is returned on failure too, because the memory usage of an
existing entry is refunded before the overwrite check. A DIRTY spent entry still owes its spentness
to the parent, so that the new one is not FRESH. The coin is moved with its memory. -/
def addCoin (cache : CCoinsViewCache) (outpoint : COutPoint) (coin : Coin)
    (possible_overwrite : Bool) (allocated : Nat := coin.allocation) :
    Except CoinsError Unit × CCoinsViewCache :=
  if coin.isSpent then (.error .assertion, cache)
  else if coin.out.scriptPubKey.isUnspendable then (.ok (), cache)
  else
    let entry := (cache.cacheCoins outpoint).getD {}
    let refunded := if (cache.cacheCoins outpoint).isSome
      then cache.refundUsage entry.dynamicMemoryUsage else cache
    if !possible_overwrite && !entry.coin.isSpent then
      (.error .overwriteUnspent, refunded)
    else
      let fresh := !possible_overwrite && !entry.dirty
      let added := (refunded.setCoin outpoint coin allocated).setDirty outpoint
      let flagged := if fresh then added.setFresh outpoint else added
      (.ok (), flagged.chargeUsage (mallocUsage allocated))

/-- `CCoinsViewCache::EmplaceCoinInternalDANGER`. The usage is charged before it is known
whether there is an entry, which is then kept. -/
def emplaceCoinInternalDANGER (cache : CCoinsViewCache) (outpoint : COutPoint) (coin : Coin)
    (allocated : Nat := coin.allocation) : CCoinsViewCache :=
  let charged := cache.chargeUsage (mallocUsage allocated)
  if (cache.cacheCoins outpoint).isSome then charged
  else (charged.setCoin outpoint coin allocated).setDirty outpoint

/-- The part of `SpendCoin` after `FetchCoin` found the entry: a FRESH entry is
dropped, any other stays as a DIRTY spent one. -/
def spendEntry (entry : CCoinsCacheEntry) : CCoinsViewCache :=
  let refunded := cache.refundUsage entry.dynamicMemoryUsage
  if entry.fresh then refunded.erase outpoint
  else (refunded.setDirty outpoint).setCoin outpoint Coin.empty 0

def uncache : CCoinsViewCache :=
  match cache.cacheCoins outpoint with
  | none => cache
  | some entry =>
    if entry.isFlagged then cache
    else (cache.refundUsage entry.dynamicMemoryUsage).erase outpoint

/-- `CoinsViewCacheCursor::NextAndMaybeErase`, applied to the child's own state. A
flushing child keeps its entries because it wipes the whole map afterwards. Nothing is allocated for
a spent coin, so that the refund is the same whether or not the coin has been moved. -/
def nextAndMaybeErase (child : CCoinsViewCache) (will_erase : Bool)
    (current : COutPoint) : CCoinsViewCache :=
  if will_erase then child
  else
    match child.cacheCoins current with
    | none => child
    | some entry =>
      if entry.coin.isSpent then
        (child.refundUsage entry.dynamicMemoryUsage).erase current
      else child.setClean current

/-- One iteration of `CCoinsViewCache::BatchWrite`: the parent `cache` receives the child's entry,
which `WillErase` says is moved or copied. A coin both FRESH and spent leaves no trace. An entry for
which the grandparent has no coin can go entirely. -/
def receiveEntry (will_erase : Bool) (outpoint : COutPoint) (entry : CCoinsCacheEntry) :
    Except CoinsError CCoinsViewCache :=
  let willErase := will_erase || entry.coin.isSpent
  if !entry.dirty then .ok cache
  else
    match cache.cacheCoins outpoint with
    | none =>
      if entry.fresh && entry.coin.isSpent then .ok cache
      else
        let allocated := CCoinsCacheEntry.assign {} entry willErase
        let created := ((cache.setCoin outpoint entry.coin allocated).chargeUsage
          (mallocUsage allocated)).setDirty outpoint
        .ok (if entry.fresh then created.setFresh outpoint else created)
    | some itUs =>
      if entry.fresh && !itUs.coin.isSpent then .error .freshMisapplied
      else if itUs.fresh && entry.coin.isSpent then
        .ok ((cache.refundUsage itUs.dynamicMemoryUsage).erase outpoint)
      else
        let allocated := itUs.assign entry willErase
        .ok ((((cache.refundUsage itUs.dynamicMemoryUsage).setCoin outpoint
          entry.coin allocated).chargeUsage (mallocUsage allocated)).setDirty outpoint)

/-- The loop of `CCoinsViewCache::BatchWrite` over the child's linked list, with
the parent and the child threaded through. -/
def batchWriteLoop (will_erase : Bool) :
    List COutPoint → CCoinsViewCache → CCoinsViewCache →
      Except CoinsError (CCoinsViewCache × CCoinsViewCache)
  | [], parent, child => .ok (parent, child)
  | current :: rest, parent, child =>
    match child.cacheCoins current with
    | none => batchWriteLoop will_erase rest parent child
    | some entry =>
      match parent.receiveEntry will_erase current entry with
      | .error err => .error err
      | .ok parent' =>
        batchWriteLoop will_erase rest parent' (child.nextAndMaybeErase will_erase current)

end CCoinsViewCache

end BtcSharp
