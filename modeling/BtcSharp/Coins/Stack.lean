/-
# The layers of a stack as plain maps

Each layer of a stack stands for a plain map. A call on the outermost layer of a
well-formed stack has exactly its plain-map effect on that layer and leaves the
maps below alone, except that `Flush` and `Sync` copy the layer's map to the layer
right below.
-/

import BtcSharp.Coins.WriteBack

namespace BtcSharp

open CacheView Function

namespace CoinsView

/-- The map of the outermost layer. -/
def utxo : CoinsView → UtxoMap
  | .db base => base.coins
  | .cache top base => top.onto base.utxo

/-- Every cache of the stack is coherent over the map below it, and the database
stores unspent coins only. -/
def WellFormed : CoinsView → Prop
  | .db base => ∀ outpoint coin, base.coins outpoint = some coin → coin.isSpent = false
  | .cache top base => base.WellFormed ∧ top.Coherent base.utxo

/-- The layer at a depth, with everything below it. -/
def layer : CoinsView → Nat → Option CoinsView
  | view, 0 => some view
  | .db _, _ + 1 => none
  | .cache _ base, depth + 1 => base.layer depth

/-- The map of the layer at a depth. -/
def mapAt (view : CoinsView) (depth : Nat) : Option UtxoMap := (view.layer depth).map utxo

/-- The best block of the outermost layer. -/
def bestBlock (view : CoinsView) : Uint256 := view.getBestBlock.1

@[simp]
theorem layer_zero (view : CoinsView) : view.layer 0 = some view := by
  cases view <;> rfl

@[simp]
theorem layer_cache_succ (top : CCoinsViewCache) (base : CoinsView) (depth : Nat) :
    (CoinsView.cache top base).layer (depth + 1) = base.layer depth := rfl

@[simp]
theorem mapAt_zero (view : CoinsView) : view.mapAt 0 = some view.utxo := by
  simp [mapAt]

@[simp]
theorem mapAt_cache_succ (top : CCoinsViewCache) (base : CoinsView) (depth : Nat) :
    (CoinsView.cache top base).mapAt (depth + 1) = base.mapAt depth := rfl

variable {view : CoinsView} {outpoint : COutPoint} {cache cache' : CacheView}
    {entry : Option CCoinsCacheEntry}

theorem utxo_of_mapAt_eq {view' : CoinsView} (h : view'.mapAt = view.mapAt) :
    view'.utxo = view.utxo := by
  simpa using congrFun h 0

variable {base inner : CoinsView} {coin : Coin} {depth : Nat} {op : Op}

/-- Equal maps at the top and in the base are equal maps everywhere. -/
theorem mapAt_cache_congr {top top' : CCoinsViewCache} {base' : CoinsView}
    (htop : (CoinsView.cache top' base').utxo = (CoinsView.cache top base).utxo)
    (hbase : base'.mapAt = base.mapAt) :
    (CoinsView.cache top' base').mapAt = (CoinsView.cache top base).mapAt := by
  funext depth
  cases depth with
  | zero => simp [htop]
  | succ depth => simp [hbase]

/-- A well-formed view shows unspent coins only. -/
theorem WellFormed.unspent_of_utxo (h : view.WellFormed) (hcoin : view.utxo outpoint = some coin) :
    coin.isSpent = false := by
  induction view with
  | db base => exact h outpoint coin hcoin
  | cache top base ih =>
    cases hentry : top.cacheCoins outpoint with
    | none =>
      exact ih h.1 (by rwa [utxo, CCoinsViewCache.Coherent.onto_of_none hentry] at hcoin)
    | some entry =>
      rw [utxo, CCoinsViewCache.Coherent.onto_of_some hentry] at hcoin
      obtain ⟨hspent, rfl⟩ := Coin.isSpent_of_unspent_eq hcoin
      exact hspent

/-- The layers below a well-formed stack's top are well formed. -/
theorem WellFormed.of_layer (h : view.WellFormed) (hlayer : view.layer depth = some inner) :
    inner.WellFormed := by
  induction depth generalizing view with
  | zero =>
    obtain rfl : view = inner := by simpa using hlayer
    exact h
  | succ depth ih =>
    cases view with
    | db base => cases hlayer
    | cache top base => exact ih h.1 hlayer

/-- Layers are counted from the top: going down twice adds the depths. -/
theorem layer_add (hlayer : view.layer depth = some inner) (offset : Nat) :
    view.layer (depth + offset) = inner.layer offset := by
  induction depth generalizing view with
  | zero =>
    obtain rfl : view = inner := by simpa using hlayer
    rw [Nat.zero_add]
  | succ depth ih =>
    cases view with
    | db base => cases hlayer
    | cache top base =>
      rw [Nat.add_right_comm]
      exact ih hlayer

/-! ## Queries -/

/-- What `FetchCoin` guarantees: the entry found stands for the coin the layer
shows, no layer's map changes, and the stack stays well formed. -/
structure Fetched (cache : CacheView) (outpoint : COutPoint)
    (entry : Option CCoinsCacheEntry) (cache' : CacheView) : Prop where
  entry_eq : cache'.top.cacheCoins outpoint = entry
  coin_eq : entry.bind (·.coin.unspent) = cache.view.utxo outpoint
  wellFormed : cache'.view.WellFormed
  utxo_eq : cache'.view.utxo = cache.view.utxo
  base_eq : cache'.base.mapAt = cache.base.mapAt
  hashBlock_eq : cache'.top.hashBlock = cache.top.hashBlock
  best_eq : cache'.base.bestBlock = cache.base.bestBlock
  keeps : ∀ other old, cache.top.cacheCoins other = some old →
    cache'.top.cacheCoins other = some old

theorem bestBlock_cache (top : CCoinsViewCache) (base : CoinsView) :
      (CoinsView.cache top base).bestBlock =
      if top.hashBlock.isNull then base.bestBlock else top.hashBlock := by
  unfold bestBlock
  rw [getBestBlock]
  split <;> rfl

/-- `FetchCoin` over a backend whose `GetCoin` already behaves. -/
theorem fetchCoin_fetched_of {cache : CacheView} (h : cache.view.WellFormed) (outpoint : COutPoint)
    (hbase : (cache.base.getCoin outpoint).1 = cache.base.utxo outpoint ∧
      (cache.base.getCoin outpoint).2.WellFormed ∧
      (cache.base.getCoin outpoint).2.mapAt = cache.base.mapAt ∧
      (cache.base.getCoin outpoint).2.bestBlock = cache.base.bestBlock) :
    Fetched cache outpoint (cache.fetchCoin outpoint).1 (cache.fetchCoin outpoint).2 := by
  obtain ⟨hcoin, hwf, hmaps, hbest⟩ := hbase
  have hutxo := utxo_of_mapAt_eq hmaps
  cases hentry : cache.top.cacheCoins outpoint with
  | some entry =>
    simp only [fetchCoin, fetchCoinWith, hentry]
    exact ⟨hentry, (CCoinsViewCache.Coherent.onto_of_some hentry).symm, h, rfl, rfl, rfl, rfl,
      fun _ _ hold => hold⟩
  | none =>
    rcases hget : cache.base.getCoin outpoint with ⟨found, _⟩
    rw [hget] at hcoin hwf hmaps hutxo hbest
    cases found with
    | none =>
      simp only [fetchCoin, fetchCoinWith, hentry, hget]
      refine ⟨hentry, ?_, ⟨hwf, by rw [hutxo]; exact h.2⟩,
        by simp [view, utxo, hutxo], hmaps, rfl, hbest, fun _ _ hold => hold⟩
      rw [view, utxo, CCoinsViewCache.Coherent.onto_of_none hentry, ← hcoin]
      rfl
    | some coin =>
      have hspent := h.1.unspent_of_utxo hcoin.symm
      have hset := CCoinsViewCache.insertFetched_accounted hentry coin
      obtain ⟨hcoh, hover⟩ := h.2.insertFetched hentry hcoin.symm hspent
      simp only [fetchCoin, fetchCoinWith, hentry, hget]
      refine ⟨rfl, ?_, ⟨hwf, by rw [hutxo]; exact hcoh⟩,
        by simp [view, utxo, hutxo, hover], hmaps, hset.hashBlock, hbest, ?_⟩
      · rw [hset.cells, update_self, view, utxo,
          CCoinsViewCache.Coherent.onto_of_none hentry, ← hcoin]
        exact Coin.unspent_of_not_isSpent hspent
      intro other old hold
      have hne : other ≠ outpoint := by
        rintro rfl
        rw [hentry] at hold
        cases hold
      rw [hset.cells, update_of_ne hne]
      exact hold

theorem Fetched.mapAt_eq (hf : Fetched cache outpoint entry cache') :
    cache'.view.mapAt = cache.view.mapAt :=
  mapAt_cache_congr hf.utxo_eq hf.base_eq

theorem Fetched.bestBlock_eq (hf : Fetched cache outpoint entry cache') :
    cache'.view.bestBlock = cache.view.bestBlock := by
  rw [view, view, bestBlock_cache, bestBlock_cache, hf.hashBlock_eq, hf.best_eq]

/-- `GetCoin` returns the coin the view shows and changes no map of any layer. -/
theorem getCoin_spec (h : view.WellFormed) (outpoint : COutPoint) :
    (view.getCoin outpoint).1 = view.utxo outpoint ∧
      (view.getCoin outpoint).2.WellFormed ∧ (view.getCoin outpoint).2.mapAt = view.mapAt ∧
      (view.getCoin outpoint).2.bestBlock = view.bestBlock := by
  induction view with
  | db base => exact ⟨rfl, h, rfl, rfl⟩
  | cache top base ih =>
    have hf := @fetchCoin_fetched_of ⟨top, base⟩ h outpoint (ih h.1)
    exact ⟨hf.coin_eq, hf.wellFormed, hf.mapAt_eq, hf.bestBlock_eq⟩

/-- `FetchCoin` on any well-formed stack. -/
theorem fetchCoin_fetched (h : cache.view.WellFormed) (outpoint : COutPoint) :
    Fetched cache outpoint (cache.fetchCoin outpoint).1 (cache.fetchCoin outpoint).2 :=
  fetchCoin_fetched_of h outpoint (getCoin_spec h.1 outpoint)

/-- The fetched entry holds the coin shown, or the empty coin when there is none. -/
theorem Fetched.coin_getD (hf : Fetched cache outpoint entry cache') :
    (entry.map (·.coin)).getD Coin.empty = (cache.view.utxo outpoint).getD Coin.empty ∧
      (entry.map (!·.coin.isSpent)).getD false = (cache.view.utxo outpoint).isSome := by
  rw [← hf.coin_eq]
  cases hentry : entry with
  | none => exact ⟨rfl, rfl⟩
  | some found =>
    have hlegal := hf.wellFormed.2.legal outpoint found (hf.entry_eq.trans hentry)
    cases hspent : found.coin.isSpent with
    | true => simp [Coin.unspent, hlegal.spent hspent]
    | false => simp [Coin.unspent, hspent]

/-! ## The operations of a layer -/

/-- A call on one cache of the stack. -/
inductive Op
  | getCoin (outpoint : COutPoint)
  | haveCoin (outpoint : COutPoint)
  | accessCoin (outpoint : COutPoint)
  | addCoin (outpoint : COutPoint) (coin : Coin) (possible_overwrite : Bool)
  | spendCoin (outpoint : COutPoint)
  | uncache (outpoint : COutPoint)
  | getBestBlock
  | setBestBlock (hash : Uint256)
  | flush
  | sync
  deriving DecidableEq, Repr

/-- What a call returns. -/
inductive Result
  | done
  | coin (found : Option Coin)
  | haveCoin (found : Bool)
  | access (coin : Coin)
  | spent (moveout : Option Coin)
  | best (hash : Uint256)
  deriving DecidableEq, Repr

/-- Run a call on a cache. -/
def Op.run (cache : CacheView) : Op → Except CoinsError (Result × CacheView)
  | .getCoin outpoint => .ok (.coin (cache.getCoin outpoint).1, (cache.getCoin outpoint).2)
  | .haveCoin outpoint =>
    .ok (.haveCoin (cache.haveCoin outpoint).1, (cache.haveCoin outpoint).2)
  | .accessCoin outpoint =>
    .ok (.access (cache.accessCoin outpoint).1, (cache.accessCoin outpoint).2)
  | .addCoin outpoint coin possible_overwrite =>
    match cache.addCoin outpoint coin possible_overwrite with
    | .error err => .error err
    | .ok cache' => .ok (.done, cache')
  | .spendCoin outpoint =>
    .ok (.spent (cache.spendCoin outpoint).1, (cache.spendCoin outpoint).2)
  | .uncache outpoint => .ok (.done, cache.uncache outpoint)
  | .getBestBlock => .ok (.best cache.getBestBlock.1, cache.getBestBlock.2)
  | .setBestBlock hash => .ok (.done, cache.setBestBlock hash)
  | .flush =>
    match cache.flush with
    | .error err => .error err
    | .ok cache' => .ok (.done, cache')
  | .sync =>
    match cache.sync with
    | .error err => .error err
    | .ok cache' => .ok (.done, cache')

/-- Run a call on the cache at a depth of the stack. -/
def Op.runAt (op : Op) : Nat → CoinsView → Except CoinsError (Result × CoinsView)
  | _, .db _ => .error .assertion
  | 0, .cache top base =>
    match op.run ⟨top, base⟩ with
    | .error err => .error err
    | .ok (result, cache') => .ok (result, cache'.view)
  | depth + 1, .cache top base =>
    match op.runAt depth base with
    | .error err => .error err
    | .ok (result, base') => .ok (result, .cache top base')

/-! ## Their meaning on plain maps -/

/-- The plain-map effect of a call on its own layer. -/
def Op.onMap (op : Op) (map : UtxoMap) : UtxoMap :=
  match op with
  | .addCoin outpoint coin _ =>
    if coin.out.scriptPubKey.isUnspendable then map
    else Function.update map outpoint (some coin)
  | .spendCoin outpoint => Function.update map outpoint none
  | _ => map

/-- What a call returns, in terms of its layer's map and best block. A spent entry
still waiting to be written back makes `SpendCoin` return the empty coin. -/
def Op.Returns (map : UtxoMap) (best : Uint256) : Op → Result → Prop
  | .getCoin outpoint, .coin found => found = map outpoint
  | .haveCoin outpoint, .haveCoin found => found = (map outpoint).isSome
  | .accessCoin outpoint, .access coin => coin = (map outpoint).getD Coin.empty
  | .spendCoin outpoint, .spent moveout => moveout.bind Coin.unspent = map outpoint
  | .getBestBlock, .best hash => hash = best
  | .addCoin .., .done => True
  | .uncache _, .done => True
  | .setBestBlock _, .done => True
  | .flush, .done => True
  | .sync, .done => True
  | _, _ => False

/-- The two calls that write a layer back into the one below. -/
def Op.writesBack : Op → Bool
  | .flush => true
  | .sync => true
  | _ => false

/-- A view takes a batch for this block: the assertions of the database hold. -/
def Accepts (hashBlock : Uint256) : CoinsView → Prop
  | .db base => ∃ header, base.batchHeader hashBlock = .ok header
  | .cache _ _ => True

/-- What the caller of a layer promises: only an unspent coin is added, without
`possible_overwrite` only where there is none, and the database gets a batch only
for a block it accepts. -/
def Op.Ready (cache : CacheView) : Op → Prop
  | .addCoin outpoint coin possible_overwrite => coin.isSpent = false ∧
      (possible_overwrite = false → cache.view.utxo outpoint = none)
  | .flush => cache.base.Accepts cache.top.hashBlock
  | .sync => cache.base.Accepts cache.top.hashBlock
  | _ => True

/-- The effect of a call on its own layer and on those below. -/
structure Op.Effect (op : Op) (cache : CacheView) (result : Result) (cache' : CacheView) :
    Prop where
  returns : op.Returns cache.view.utxo cache.view.bestBlock result
  wellFormed : cache'.view.WellFormed
  utxo_eq : cache'.view.utxo = op.onMap cache.view.utxo
  below : op.writesBack = false → cache'.base.mapAt = cache.base.mapAt
  parent : op.writesBack = true →
    cache'.base.utxo = cache.view.utxo ∧ cache'.base.bestBlock = cache'.view.bestBlock ∧
    (cache.top.hashBlock ≠ 0 → cache'.view.bestBlock = cache.view.bestBlock)
  belowParent : op.writesBack = true →
    ∀ depth, cache'.base.mapAt (depth + 1) = cache.base.mapAt (depth + 1)

/-! ## Each call has its effect -/

/-- Asking for the best block fills in the hashes of caches and nothing else. -/
theorem getBestBlock_spec (h : view.WellFormed) :
    view.getBestBlock.2.WellFormed ∧ view.getBestBlock.2.mapAt = view.mapAt := by
  induction view with
  | db base => exact ⟨h, rfl⟩
  | cache top base ih =>
    rw [getBestBlock]
    split
    · obtain ⟨hwf, hmaps⟩ := ih h.1
      have hutxo := utxo_of_mapAt_eq hmaps
      refine ⟨⟨hwf, ?_⟩, mapAt_cache_congr ?_ hmaps⟩
      · rw [hutxo]
        exact ⟨h.2.legal, h.2.linked.setHashBlock _⟩
      · simp only [utxo, hutxo]
        rfl
    · exact ⟨h, rfl⟩

/-- `GetBestBlock` of a cache object is that of its view. -/
theorem getBestBlock_cache (cache : CacheView) : cache.getBestBlock.1 = cache.view.getBestBlock.1 ∧
      cache.getBestBlock.2.view = cache.view.getBestBlock.2 := by
  rw [CacheView.getBestBlock, view, getBestBlock]
  split <;> exact ⟨rfl, rfl⟩

/-- `BatchWrite` of a coherent child: no exception, the view receives the child's map
and best block, and nothing changes below it. -/
theorem batchWrite_spec {child : CCoinsViewCache} {hashBlock : Uint256}
    (hbase : base.WellFormed) (hchild : child.Coherent base.utxo)
    (haccepts : base.Accepts hashBlock) (will_erase : Bool) :
    ∃ base', base.batchWrite child will_erase hashBlock = .ok
      (base', child.sweep will_erase child.flagged) ∧
      base'.WellFormed ∧ base'.utxo = child.onto base.utxo ∧
      (∀ depth, base'.mapAt (depth + 1) = base.mapAt (depth + 1)) ∧
      (hashBlock ≠ 0 → base'.bestBlock = hashBlock) := by
  cases base with
  | db db =>
    obtain ⟨header, hheader⟩ := haccepts
    obtain ⟨db', hwrite, hcoins, hbest, -⟩ :=
      CCoinsViewDB.batchWrite_ok hchild hheader will_erase
    have hstack : (CoinsView.cache child (.db db)).WellFormed := ⟨hbase, hchild⟩
    refine ⟨.db db', by simp only [batchWrite, hwrite], ?_, hcoins, fun depth => rfl, ?_⟩
    · intro outpoint coin hcoin
      rw [hcoins] at hcoin
      exact hstack.unspent_of_utxo hcoin
    · intro _
      simp [bestBlock, getBestBlock, CCoinsViewDB.getBestBlock, hbest]
  | cache top base =>
    obtain ⟨top', hloop, hcoh, hover⟩ := hbase.2.batchWriteLoop hchild will_erase
    refine ⟨.cache { top' with hashBlock := hashBlock } base,
      by simp only [batchWrite, hloop], ⟨hbase.1, hcoh.legal, hcoh.linked.setHashBlock _⟩,
      hover, fun depth => rfl, fun hnonnull => ?_⟩
    rw [bestBlock_cache, if_neg (by simpa using hnonnull)]

/-- The common part of `Flush` and `Sync`: the written-back layer keeps its hash and
shows, over the parent's new map, the map it wrote. -/
theorem Op.Effect.of_writeBack (hop : op.writesBack = true) (hmap : ∀ map, op.onMap map = map)
    (hreturns : ∀ map best, op.Returns map best .done)
    (hbase : cache'.base.WellFormed) (hutxo : cache'.base.utxo = cache.view.utxo)
    (hbelow : ∀ depth, cache'.base.mapAt (depth + 1) = cache.base.mapAt (depth + 1))
    (hbest : cache.top.hashBlock ≠ 0 → cache'.base.bestBlock = cache.top.hashBlock)
    (hcoh : cache'.top.Coherent cache'.base.utxo)
    (hover : cache'.top.onto cache'.base.utxo = cache'.base.utxo)
    (hhash : cache'.top.hashBlock = cache.top.hashBlock) : op.Effect cache .done cache' := by
  have hnew : cache'.view.bestBlock = if cache.top.hashBlock.isNull then cache'.base.bestBlock
      else cache.top.hashBlock := by
    rw [view, bestBlock_cache, hhash]
  refine ⟨hreturns _ _, ⟨hbase, hcoh⟩, ?_, by simp [hop], fun _ => ⟨hutxo, ?_, ?_⟩, fun _ => hbelow⟩
  · rw [hmap]
    exact hover.trans hutxo
  · rw [hnew]
    split
    · rfl
    · next hnonnull => exact hbest (by simpa using hnonnull)
  · intro hnonnull
    rw [hnew, view, bestBlock_cache, if_neg (by simpa using hnonnull),
      if_neg (by simpa using hnonnull)]

section

variable (h : cache.view.WellFormed) (haccepts : cache.base.Accepts cache.top.hashBlock)

include h haccepts

theorem flush_effect : ∃ cache', cache.flush = .ok cache' ∧ Op.flush.Effect cache .done cache' := by
  obtain ⟨_, hwrite, hwf, hutxo, hbelow, hbest⟩ :=
    batchWrite_spec h.1 h.2 haccepts true
  refine ⟨_, by simp only [flush, hwrite]; rfl,
    .of_writeBack rfl (fun _ => rfl) (fun _ _ => trivial) hwf hutxo hbelow hbest
      ⟨by simp, by simp, by simp⟩ rfl ?_⟩
  simp

theorem sync_effect : ∃ cache', cache.sync = .ok cache' ∧ Op.sync.Effect cache .done cache' := by
  obtain ⟨_, hwrite, hwf, hutxo, hbelow, hbest⟩ :=
    batchWrite_spec h.1 h.2 haccepts false
  obtain ⟨hempty, hcoh, hover, hhash⟩ := h.2.sweep_flagged
  rw [← hutxo] at hcoh hover
  exact ⟨_, by simp only [sync, hwrite, hempty]; rfl,
    .of_writeBack rfl (fun _ => rfl) (fun _ _ => trivial) hwf hutxo hbelow hbest hcoh hover hhash⟩

end

/-- A call that only looks: what it returns and that no map changed is enough. -/
theorem Op.Effect.of_query {result : Result} (hop : op.writesBack = false)
    (hmap : ∀ map, op.onMap map = map)
    (hreturns : op.Returns cache.view.utxo cache.view.bestBlock result)
    (hwf : cache'.view.WellFormed) (hmaps : cache'.view.mapAt = cache.view.mapAt) :
    op.Effect cache result cache' := by
  have hbelow : cache'.base.mapAt = cache.base.mapAt := by
    funext depth
    exact congrFun hmaps (depth + 1)
  refine ⟨hreturns, hwf, ?_, fun _ => hbelow, by simp [hop], by simp [hop]⟩
  rw [hmap, utxo_of_mapAt_eq hmaps]

theorem addCoin_effect (h : cache.view.WellFormed) {possible_overwrite : Bool}
    (hcoin : coin.isSpent = false)
    (hfree : possible_overwrite = false → cache.view.utxo outpoint = none) :
    ∃ cache', cache.addCoin outpoint coin possible_overwrite = .ok cache' ∧
      (Op.addCoin outpoint coin possible_overwrite).Effect cache .done cache' := by
  obtain ⟨hok, hcoh, hover, -⟩ := h.2.addCoin hcoin hfree
  rcases hadd : cache.top.addCoin outpoint coin possible_overwrite with ⟨_, top'⟩
  rw [hadd] at hok hcoh hover
  subst hok
  exact ⟨⟨top', cache.base⟩, by simp only [addCoin, hadd], trivial, ⟨h.1, hcoh⟩, hover,
    fun _ => rfl, by simp [Op.writesBack], by simp [Op.writesBack]⟩

theorem spendCoin_effect (h : cache.view.WellFormed) (outpoint : COutPoint) :
    (Op.spendCoin outpoint).Effect cache (.spent (cache.spendCoin outpoint).1)
      (cache.spendCoin outpoint).2 := by
  have hf := fetchCoin_fetched h outpoint
  rcases hfetch : cache.fetchCoin outpoint with ⟨entry, _⟩
  rw [hfetch] at hf
  cases entry with
  | none =>
    simp only [spendCoin, hfetch]
    refine ⟨hf.coin_eq, hf.wellFormed, ?_, fun _ => hf.base_eq,
      by simp [Op.writesBack], by simp [Op.writesBack]⟩
    have hnone : cache.view.utxo outpoint = none := hf.coin_eq.symm
    rw [hf.utxo_eq, Op.onMap, ← hnone, update_eq_self]
  | some entry =>
    simp only [spendCoin, hfetch]
    obtain ⟨hcoh, hover⟩ := hf.wellFormed.2.spendEntry hf.entry_eq
    refine ⟨hf.coin_eq, ⟨hf.wellFormed.1, hcoh⟩, ?_, fun _ => hf.base_eq,
      by simp [Op.writesBack], by simp [Op.writesBack]⟩
    rw [← hf.utxo_eq]
    exact hover

/-- Every call that keeps its caller's promise succeeds and has its effect. -/
theorem Op.run_effect (op : Op) (h : cache.view.WellFormed) (hready : op.Ready cache) :
    ∃ result cache', op.run cache = .ok (result, cache') ∧ op.Effect cache result cache' := by
  cases op with
  | getCoin outpoint =>
    have hf := fetchCoin_fetched h outpoint
    exact ⟨_, _, rfl, .of_query rfl (fun _ => rfl) hf.coin_eq hf.wellFormed hf.mapAt_eq⟩
  | haveCoin outpoint =>
    have hf := fetchCoin_fetched h outpoint
    exact ⟨_, _, rfl, .of_query rfl (fun _ => rfl) hf.coin_getD.2 hf.wellFormed hf.mapAt_eq⟩
  | accessCoin outpoint =>
    have hf := fetchCoin_fetched h outpoint
    exact ⟨_, _, rfl, .of_query rfl (fun _ => rfl) hf.coin_getD.1 hf.wellFormed hf.mapAt_eq⟩
  | addCoin outpoint coin possible_overwrite =>
    obtain ⟨cache', hadd, heffect⟩ := addCoin_effect h hready.1 hready.2
    exact ⟨_, cache', by simp only [Op.run, hadd], heffect⟩
  | spendCoin outpoint => exact ⟨_, _, rfl, spendCoin_effect h outpoint⟩
  | uncache outpoint =>
    obtain ⟨hcoh, hover, -⟩ := h.2.uncache outpoint
    exact ⟨_, _, rfl, .of_query rfl (fun _ => rfl) trivial ⟨h.1, hcoh⟩
      (mapAt_cache_congr hover rfl)⟩
  | getBestBlock =>
    obtain ⟨hhash, hview⟩ := getBestBlock_cache cache
    obtain ⟨hwf, hmaps⟩ := getBestBlock_spec h
    rw [← hview] at hwf hmaps
    exact ⟨_, _, rfl, .of_query rfl (fun _ => rfl) hhash hwf hmaps⟩
  | setBestBlock hash =>
    exact ⟨_, _, rfl, .of_query rfl (fun _ => rfl) trivial
      ⟨h.1, h.2.legal, h.2.linked.setHashBlock _⟩ (mapAt_cache_congr rfl rfl)⟩
  | flush =>
    obtain ⟨cache', hflush, heffect⟩ := flush_effect h hready
    exact ⟨_, cache', by simp only [Op.run, hflush], heffect⟩
  | sync =>
    obtain ⟨cache', hsync, heffect⟩ := sync_effect h hready
    exact ⟨_, cache', by simp only [Op.run, hsync], heffect⟩

end CoinsView

/-! ## Code that works on one cache -/

namespace CacheView

open CoinsView

/-- An outpoint without an entry in the cache has no coin in the backend either, so
that the cache alone shows whether there is a coin. -/
def Shows (cache : CacheView) (outpoint : COutPoint) : Prop :=
  cache.top.cacheCoins outpoint = none → cache.base.utxo outpoint = none

/-- Calls on a cache that leave it showing the map `after` and leave the map and the
best block of its backend alone. -/
structure Steps (cache cache' : CacheView) (after : UtxoMap) : Prop where
  wellFormed : cache'.view.WellFormed
  utxo_eq : cache'.view.utxo = after
  base_utxo : cache'.base.utxo = cache.base.utxo
  base_best : cache'.base.bestBlock = cache.base.bestBlock
  shows_of : ∀ outpoint, cache.Shows outpoint → cache'.Shows outpoint

variable {cache cache' : CacheView} {outpoint : COutPoint}

theorem Steps.refl (h : cache.view.WellFormed) : Steps cache cache cache.view.utxo :=
  ⟨h, rfl, rfl, rfl, fun _ hshows => hshows⟩

theorem Steps.trans {mid : CacheView} {between after : UtxoMap}
    (hfirst : Steps cache mid between) (hsecond : Steps mid cache' after) :
    Steps cache cache' after :=
  ⟨hsecond.wellFormed, hsecond.utxo_eq, hsecond.base_utxo.trans hfirst.base_utxo,
    hsecond.base_best.trans hfirst.base_best,
    fun outpoint hshows => hsecond.shows_of outpoint (hfirst.shows_of outpoint hshows)⟩

/-- Asking for the best block does not change it. -/
theorem bestBlock_getBestBlock (view : CoinsView) :
    view.getBestBlock.2.bestBlock = view.bestBlock := by
  induction view with
  | db base => rfl
  | cache top base ih =>
    rw [bestBlock_cache, CoinsView.getBestBlock]
    split
    · rw [bestBlock_cache]
      split
      · exact ih
      · rfl
    · next hnull => rw [bestBlock_cache, if_neg hnull]

theorem getBestBlock_steps (h : cache.view.WellFormed) :
      cache.getBestBlock.1 = cache.view.bestBlock ∧
      Steps cache cache.getBestBlock.2 cache.view.utxo := by
  refine ⟨(getBestBlock_cache cache).1, ?_⟩
  rw [getBestBlock]
  split
  · obtain ⟨hwf, hmaps⟩ := getBestBlock_spec h.1
    have hbase := utxo_of_mapAt_eq hmaps
    refine ⟨⟨hwf, ?_⟩, ?_, hbase, bestBlock_getBestBlock cache.base, ?_⟩
    · rw [hbase]
      exact ⟨h.2.legal, h.2.linked.setHashBlock _⟩
    · simp only [view, utxo, hbase]
      rfl
    · intro outpoint hshows hnone
      exact (congrFun hbase outpoint).trans (hshows hnone)
  · exact .refl h

/-- A cache that shows no coin at an outpoint shows whether there is one. -/
theorem shows_of_utxo_eq_none (h : cache.view.utxo outpoint = none) :
    cache.Shows outpoint := fun hentry =>
  (CCoinsViewCache.Coherent.onto_of_none hentry).symm.trans h

theorem steps_of_fetched {entry : Option CCoinsCacheEntry}
    (hf : Fetched cache outpoint entry cache') : Steps cache cache' cache.view.utxo := by
  have hbase := utxo_of_mapAt_eq hf.base_eq
  refine ⟨hf.wellFormed, hf.utxo_eq, hbase, hf.best_eq, ?_⟩
  intro other hshows hnone
  rw [hbase]
  apply hshows
  cases hold : cache.top.cacheCoins other with
  | none => rfl
  | some old =>
    rw [hf.keeps other old hold] at hnone
    cases hnone

/-- The plain-map effect of `AddCoin`. -/
def bindCoin (map : UtxoMap) (outpoint : COutPoint) (coin : Coin) : UtxoMap :=
  if coin.out.scriptPubKey.isUnspendable then map
  else Function.update map outpoint (some coin)

variable {coin : Coin}

section

variable {start : CacheView} {map : UtxoMap} (h : Steps start cache map)
include h

theorem setBestBlock_steps (hashBlock : Uint256) : Steps start (cache.setBestBlock hashBlock) map :=
  { h with
    wellFormed := ⟨h.wellFormed.1, h.wellFormed.2.legal, h.wellFormed.2.linked.setHashBlock _⟩ }

theorem haveCoin_steps (outpoint : COutPoint) :
    (cache.haveCoin outpoint).1 = (map outpoint).isSome ∧
    Steps start (cache.haveCoin outpoint).2 map := by
  have hf := fetchCoin_fetched h.wellFormed outpoint
  obtain rfl := h.utxo_eq
  exact ⟨hf.coin_getD.2, h.trans (steps_of_fetched hf)⟩

theorem accessCoin_steps (outpoint : COutPoint) :
    (cache.accessCoin outpoint).1 = (map outpoint).getD Coin.empty ∧
      Steps start (cache.accessCoin outpoint).2 map := by
  have hf := fetchCoin_fetched h.wellFormed outpoint
  obtain rfl := h.utxo_eq
  exact ⟨hf.coin_getD.1, h.trans (steps_of_fetched hf)⟩

/-- `SpendCoin` returns the coin that was there and unbinds it. -/
theorem spendCoin_steps (outpoint : COutPoint) :
    (cache.spendCoin outpoint).1.bind Coin.unspent = map outpoint ∧
      Steps start (cache.spendCoin outpoint).2 (update map outpoint none) := by
  obtain rfl := h.utxo_eq
  have heffect := spendCoin_effect h.wellFormed outpoint
  refine ⟨heffect.returns, ?_⟩
  have hf := fetchCoin_fetched h.wellFormed outpoint
  have hfetch := h.trans (steps_of_fetched hf)
  rcases hcase : cache.fetchCoin outpoint with ⟨entry, mid⟩
  rw [hcase] at hf hfetch
  cases entry with
  | none =>
    have hsame : (cache.spendCoin outpoint).2 = mid := by simp only [spendCoin, hcase]
    rw [hsame] at heffect ⊢
    exact { hfetch with utxo_eq := heffect.utxo_eq }
  | some entry =>
    have hsame : (cache.spendCoin outpoint).2 =
        ⟨mid.top.spendEntry outpoint entry, mid.base⟩ := by simp only [spendCoin, hcase]
    have hset := CCoinsViewCache.spendEntry_accounted hf.entry_eq
    rw [hsame] at heffect ⊢
    refine ⟨heffect.wellFormed, heffect.utxo_eq, hfetch.base_utxo, hfetch.base_best, ?_⟩
    intro other hshows hnone
    by_cases heq : other = outpoint
    · subst heq
      rw [hset.cells] at hnone
      cases hfresh : entry.fresh with
      | true => exact ((hf.wellFormed.2.legal other entry hf.entry_eq).fresh hfresh).2
      | false => simp [hfresh] at hnone
    · rw [hset.cells, update_of_ne heq] at hnone
      exact hfetch.shows_of other hshows hnone

/-- Spending a coin that is there returns it. -/
theorem spendCoin_eq_some (hcoin : map outpoint = some coin) :
    (cache.spendCoin outpoint).1 = some coin := by
  have hreturns := (spendCoin_steps h outpoint).1
  rw [hcoin] at hreturns
  obtain ⟨_, hfound, hunspent⟩ := Option.bind_eq_some_iff.mp hreturns
  rw [hfound, (Coin.isSpent_of_unspent_eq hunspent).2]

/-- `AddCoin` where it is allowed to overwrite or has nothing to overwrite. -/
theorem addCoin_steps {possible_overwrite : Bool} (hcoin : coin.isSpent = false)
    (hfree : possible_overwrite = false → map outpoint = none) :
    ∃ cache', cache.addCoin outpoint coin possible_overwrite = .ok cache' ∧
      Steps start cache' (bindCoin map outpoint coin) := by
  obtain rfl := h.utxo_eq
  obtain ⟨hok, hcoh, hover, -⟩ := h.wellFormed.2.addCoin hcoin hfree
  rcases hadd : cache.top.addCoin outpoint coin possible_overwrite with ⟨_, top'⟩
  have hshows : ∀ other, cache.Shows other → Shows ⟨top', cache.base⟩ other := by
    intro other hshows hnone
    apply hshows
    have hcells := congrArg (fun result => result.2.cacheCoins other) hadd
    cases hscript : coin.out.scriptPubKey.isUnspendable with
    | true =>
      simp only [CCoinsViewCache.addCoin, hcoin, hscript, if_true, Bool.false_eq_true,
        if_false] at hcells
      rw [hcells]
      exact hnone
    | false =>
      obtain ⟨-, hset⟩ := CCoinsViewCache.addCoin_accounted hcoin hscript
        (CCoinsViewCache.Coherent.getD_isSpent hfree)
      rw [hadd] at hset
      rw [hset.cells] at hnone
      by_cases heq : other = outpoint
      · subst heq
        simp at hnone
      · rwa [update_of_ne heq] at hnone
  rw [hadd] at hok hcoh hover
  subst hok
  exact ⟨⟨top', cache.base⟩, by simp only [addCoin, hadd],
    h.trans ⟨⟨h.wellFormed.1, hcoh⟩, hover, rfl, rfl, hshows⟩⟩

end

/-- `AddCoin` that may not overwrite, at an outpoint the cache shows: if it succeeds
there was no coin. -/
theorem utxo_eq_none_of_addCoin (hshows : cache.Shows outpoint)
    (hscript : coin.out.scriptPubKey.isUnspendable = false)
    (hadd : cache.addCoin outpoint coin false = .ok cache') : cache.view.utxo outpoint = none := by
  cases hentry : cache.top.cacheCoins outpoint with
  | none => exact (CCoinsViewCache.Coherent.onto_of_none hentry).trans (hshows hentry)
  | some entry =>
    refine (CCoinsViewCache.Coherent.onto_of_some hentry).trans ?_
    apply Coin.unspent_of_isSpent
    by_contra hunspent
    have herror : (cache.top.addCoin outpoint coin false).1 = .error .overwriteUnspent ∨
        (cache.top.addCoin outpoint coin false).1 = .error .assertion := by
      unfold CCoinsViewCache.addCoin
      cases coin.isSpent with
      | true => exact .inr rfl
      | false =>
        left
        simp [hscript, hentry, Bool.eq_false_of_not_eq_true hunspent]
    rcases hresult : cache.top.addCoin outpoint coin false with ⟨_, _⟩
    rw [hresult] at herror
    rcases herror with rfl | rfl <;> simp [addCoin, hresult] at hadd

end CacheView

end BtcSharp
