/-
# The stack of coins views

A chainstate reads and writes coins through `CCoinsViewCache` layers, each backed
by the next, down to the `CCoinsViewDB`. A view is here that whole stack, newest
cache outermost, so that a query on a layer can fill the caches below it exactly
as the backend calls do.
-/

import BtcSharp.Coins.Coin

namespace BtcSharp

/-- A plain map from outpoints to unspent coins: what a view stands for. -/
abbrev UtxoMap := COutPoint → Option Coin

/-- One entry of a `CDBBatch` over the chainstate database. -/
inductive DbWrite
  | eraseBestBlock
  | writeBestBlock (hash : Uint256)
  | eraseHeadBlocks
  | writeHeadBlocks (hashes : List Uint256)
  | eraseCoin (outpoint : COutPoint)
  | writeCoin (outpoint : COutPoint) (coin : Coin)
  deriving DecidableEq, Repr

/-- The chainstate database. `batchFull` stands for the comparison of the batch's
size estimate with `batch_write_bytes`; nothing below depends on which it is. -/
structure CCoinsViewDB where
  coins : UtxoMap := fun _ => none
  bestBlock : Option Uint256 := none
  headBlocks : Option (List Uint256) := none
  batchFull : List DbWrite → Bool := fun _ => false

namespace CCoinsViewDB

variable (db : CCoinsViewDB)

def getCoin (outpoint : COutPoint) : Option Coin := db.coins outpoint

/-- `CCoinsViewDB::GetBestBlock`: the null hash when there is no record. -/
def getBestBlock : Uint256 := db.bestBlock.getD 0

def getHeadBlocks : List Uint256 := db.headBlocks.getD []

/-- One write of a batch. -/
def write : DbWrite → CCoinsViewDB
  | .eraseBestBlock => { db with bestBlock := none }
  | .writeBestBlock hash => { db with bestBlock := some hash }
  | .eraseHeadBlocks => { db with headBlocks := none }
  | .writeHeadBlocks hashes => { db with headBlocks := some hashes }
  | .eraseCoin outpoint => { db with coins := Function.update db.coins outpoint none }
  | .writeCoin outpoint coin =>
    { db with coins := Function.update db.coins outpoint (some coin) }

/-- `CDBWrapper::WriteBatch`: a batch reaches the disk whole or not at all. -/
def writeBatch (batch : List DbWrite) : CCoinsViewDB :=
  batch.foldl write db

/-- The start of `CCoinsViewDB::BatchWrite`: check the transition and mark it. In the middle of
replaying the transition must be the recorded one. -/
def batchHeader (hashBlock : Uint256) : Except CoinsError (List DbWrite) :=
  if hashBlock.isNull then .error .assertion
  else if db.getBestBlock.isNull then
    match db.getHeadBlocks with
    | [head, old] =>
      if head = hashBlock then
        .ok [.eraseBestBlock, .writeHeadBlocks [hashBlock, old]]
      else .error .assertion
    | _ => .ok [.eraseBestBlock, .writeHeadBlocks [hashBlock, db.getBestBlock]]
  else .ok [.eraseBestBlock, .writeHeadBlocks [hashBlock, db.getBestBlock]]

/-- What one entry of the child adds to the batch. -/
def entryWrites (outpoint : COutPoint) (entry : CCoinsCacheEntry) : List DbWrite :=
  if entry.dirty then
    if entry.coin.isSpent then [.eraseCoin outpoint] else [.writeCoin outpoint entry.coin]
  else []

/-- The loop of `CCoinsViewDB::BatchWrite` with the batch being filled. The result
is every batch in the order written, the final one included. -/
def batchLoop (batchFull : List DbWrite → Bool) (hashBlock : Uint256) (will_erase : Bool) :
    List COutPoint → List DbWrite → CCoinsViewCache → List (List DbWrite) × CCoinsViewCache
  | [], batch, child => ([batch ++ [.eraseHeadBlocks, .writeBestBlock hashBlock]], child)
  | current :: rest, batch, child =>
    let batch' := batch ++ ((child.cacheCoins current).map (entryWrites current)).getD []
    let child' := child.nextAndMaybeErase will_erase current
    if batchFull batch' then
      let later := batchLoop batchFull hashBlock will_erase rest [] child'
      (batch' :: later.1, later.2)
    else batchLoop batchFull hashBlock will_erase rest batch' child'

/-- Every batch `CCoinsViewDB::BatchWrite` writes, and the child afterwards. -/
def batches (child : CCoinsViewCache) (will_erase : Bool) (hashBlock : Uint256) :
    Except CoinsError (List (List DbWrite) × CCoinsViewCache) :=
  match db.batchHeader hashBlock with
  | .error err => .error err
  | .ok header =>
    .ok (batchLoop db.batchFull hashBlock will_erase child.flagged header child)

/-- `CCoinsViewDB::BatchWrite`, run to its end. -/
def batchWrite (db : CCoinsViewDB) (child : CCoinsViewCache) (will_erase : Bool)
    (hashBlock : Uint256) : Except CoinsError (CCoinsViewDB × CCoinsViewCache) :=
  match db.batches child will_erase hashBlock with
  | .error err => .error err
  | .ok (batches, child') => .ok (batches.foldl writeBatch db, child')

end CCoinsViewDB

/-- A stack of caches over the database, outermost cache first. -/
inductive CoinsView
  | db (base : CCoinsViewDB)
  | cache (top : CCoinsViewCache) (base : CoinsView)

namespace CoinsView

/-- `CCoinsViewCache::FetchCoin`, given what `base->GetCoin` does. The backend is
asked only when the cache has no entry. -/
def fetchCoinWith (top : CCoinsViewCache) (base : CoinsView)
    (baseGetCoin : COutPoint → Option Coin × CoinsView) (outpoint : COutPoint) :
    Option CCoinsCacheEntry × CCoinsViewCache × CoinsView :=
  match top.cacheCoins outpoint with
  | some entry => (some entry, top, base)
  | none =>
    match baseGetCoin outpoint with
    | (some coin, base') =>
      let top' := top.insertFetched outpoint coin
      (top'.cacheCoins outpoint, top', base')
    | (none, base') => (none, top, base')

/-- `GetCoin` of the outermost view. -/
def getCoin : CoinsView → COutPoint → Option Coin × CoinsView
  | .db base, outpoint => (base.getCoin outpoint, .db base)
  | .cache top base, outpoint =>
    match fetchCoinWith top base (fun o => base.getCoin o) outpoint with
    | (entry, top', base') => (entry.bind (·.coin.unspent), .cache top' base')

/-- `GetBestBlock` of the outermost view, which caches the answer. -/
def getBestBlock : CoinsView → Uint256 × CoinsView
  | .db base => (base.getBestBlock, .db base)
  | .cache top base =>
    if top.hashBlock.isNull then
      match base.getBestBlock with
      | (hash, base') => (hash, .cache { top with hashBlock := hash } base')
    else (top.hashBlock, .cache top base)

/-- `BatchWrite` of a view receiving the flagged entries of `child`. -/
def batchWrite (view : CoinsView) (child : CCoinsViewCache) (will_erase : Bool)
    (hashBlock : Uint256) : Except CoinsError (CoinsView × CCoinsViewCache) :=
  match view with
  | .db base =>
    match base.batchWrite child will_erase hashBlock with
    | .error err => .error err
    | .ok (base', child') => .ok (.db base', child')
  | .cache top base =>
    match CCoinsViewCache.batchWriteLoop will_erase child.flagged top child with
    | .error err => .error err
    | .ok (top', child') => .ok (.cache { top' with hashBlock := hashBlock } base, child')

end CoinsView

/-- A `CCoinsViewCache` object: its own state and the view it is backed by. -/
structure CacheView where
  top : CCoinsViewCache
  base : CoinsView

namespace CacheView

variable (cache : CacheView)

/-- The object as a view. -/
def view : CoinsView := .cache cache.top cache.base

variable (outpoint : COutPoint)

def fetchCoin : Option CCoinsCacheEntry × CacheView :=
  match CoinsView.fetchCoinWith cache.top cache.base cache.base.getCoin outpoint with
  | (entry, top, base) => (entry, ⟨top, base⟩)

def getCoin : Option Coin × CacheView :=
  match cache.fetchCoin outpoint with
  | (entry, cache) => (entry.bind (·.coin.unspent), cache)

def haveCoin : Bool × CacheView :=
  match cache.fetchCoin outpoint with
  | (entry, cache) => ((entry.map (!·.coin.isSpent)).getD false, cache)

/-- `CCoinsViewCache::AccessCoin`: the empty coin when there is no entry. -/
def accessCoin : Coin × CacheView :=
  match cache.fetchCoin outpoint with
  | (entry, cache) => ((entry.map (·.coin)).getD Coin.empty, cache)

/-- `CCoinsViewCache::AddCoin` of the object. -/
def addCoin (cache : CacheView) (outpoint : COutPoint) (coin : Coin)
    (possible_overwrite : Bool) : Except CoinsError CacheView :=
  match cache.top.addCoin outpoint coin possible_overwrite with
  | (.error err, _) => .error err
  | (.ok (), top) => .ok ⟨top, cache.base⟩

/-- `CCoinsViewCache::SpendCoin`: the moved-out coin, or none for `false`. -/
def spendCoin : Option Coin × CacheView :=
  match cache.fetchCoin outpoint with
  | (some entry, cache) =>
    (some entry.coin, ⟨cache.top.spendEntry outpoint entry, cache.base⟩)
  | (none, cache) => (none, cache)

/-- `CCoinsViewCache::Uncache` of the object. -/
def uncache (cache : CacheView) (outpoint : COutPoint) : CacheView :=
  ⟨cache.top.uncache outpoint, cache.base⟩

/-- `CCoinsViewCache::GetBestBlock`, which caches the answer of the backend. -/
def getBestBlock (cache : CacheView) : Uint256 × CacheView :=
  if cache.top.hashBlock.isNull then
    match cache.base.getBestBlock with
    | (hash, base) => (hash, ⟨{ cache.top with hashBlock := hash }, base⟩)
  else (cache.top.hashBlock, cache)

def setBestBlock (hashBlock : Uint256) : CacheView :=
  ⟨{ cache.top with hashBlock := hashBlock }, cache.base⟩

/-- `CCoinsViewCache::Flush`: write everything back and start from an empty map. -/
def flush (cache : CacheView) : Except CoinsError CacheView :=
  match cache.base.batchWrite cache.top true cache.top.hashBlock with
  | .error err => .error err
  | .ok (base, top) =>
    .ok ⟨{ top with cacheCoins := fun _ => none, flagged := [], cachedCoinsUsage := 0 }, base⟩

/-- `CCoinsViewCache::Sync`: write everything back and keep the unspent entries. -/
def sync : Except CoinsError CacheView :=
  match cache.base.batchWrite cache.top false cache.top.hashBlock with
  | .error err => .error err
  | .ok (base, top) =>
    if top.flagged = [] then .ok ⟨top, base⟩ else .error .notAllCleared

end CacheView

end BtcSharp
