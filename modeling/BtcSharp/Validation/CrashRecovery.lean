/-
# Every crash is recovered from

The states of the coins database on disk while a flush and any number of replays run,
each of them cut off after any of its batches. In all of them exactly one of the two
markers is present, and replaying to the end gives the coins of the new tip.
-/

import BtcSharp.Validation.Replay

namespace BtcSharp

open Math CCoinsViewDB List

namespace CCoinsViewDB

/-- Exactly one of the best block and the head blocks is recorded, or the database is
empty. -/
def Marked (db : CCoinsViewDB) : Prop :=
  (db.bestBlock.isSome = true ∧ db.headBlocks = none) ∨
    (db.bestBlock = none ∧ db.headBlocks.isSome = true) ∨
    (db.bestBlock = none ∧ db.headBlocks = none ∧ ∀ outpoint, db.coins outpoint = none)

/-- The database is at a block, with these coins. -/
structure HoldsAt (db : CCoinsViewDB) (hash : Uint256) (map : UtxoMap) : Prop where
  bestBlock : db.bestBlock = some hash
  headBlocks : db.headBlocks = none
  coins : db.coins = map

/-- The database is on the way from an old tip to a new one. -/
structure Between (db : CCoinsViewDB) (hashNew hashOld : Uint256) (old new : UtxoMap) : Prop where
  bestBlock : db.bestBlock = none
  headBlocks : db.headBlocks = some [hashNew, hashOld]
  mixed : Mixture old new db.coins

variable {db : CCoinsViewDB} {hashNew : Uint256} {child child' : CCoinsViewCache}
  {will_erase : Bool} {batches : List (List DbWrite)}

theorem HoldsAt.marked {hash : Uint256} {map : UtxoMap} (h : db.HoldsAt hash map) : db.Marked :=
  Or.inl ⟨by rw [h.bestBlock]; rfl, h.headBlocks⟩

variable {hashOld : Uint256} {old new : UtxoMap}

theorem Between.marked (h : db.Between hashNew hashOld old new) : db.Marked :=
  Or.inr (Or.inl ⟨h.bestBlock, by rw [h.headBlocks]; rfl⟩)

/-! ## Batches -/

/-- Writes of coins leave both records alone. -/
theorem writeBatch_records {batch : List DbWrite}
    (hcoins : ∀ entry ∈ batch, entry.coinWrite?.isSome = true) (db : CCoinsViewDB) :
    (db.writeBatch batch).bestBlock = db.bestBlock ∧
    (db.writeBatch batch).headBlocks = db.headBlocks := by
  induction batch generalizing db with
  | nil => exact ⟨rfl, rfl⟩
  | cons entry rest ih =>
    have hrest := ih (fun other hother => hcoins other (mem_cons_of_mem _ hother)) (db.write entry)
    have hhead := hcoins entry mem_cons_self
    cases entry with
    | eraseCoin outpoint | writeCoin outpoint coin => exact hrest
    | eraseBestBlock | writeBestBlock hash | eraseHeadBlocks | writeHeadBlocks hashes => cases hhead

theorem coinWrite?_of_cellWrites {outpoint : COutPoint} {entry : DbWrite}
    (h : entry ∈ cellWrites child outpoint) : entry.coinWrite?.isSome = true := by
  unfold cellWrites at h
  cases hcell : child.cacheCoins outpoint with
  | none => simp [hcell] at h
  | some cell =>
    simp only [hcell, Option.map_some, Option.getD_some, entryWrites] at h
    split at h
    · split at h
      · obtain rfl := mem_singleton.mp h
        rfl
      · obtain rfl := mem_singleton.mp h
        rfl
    · cases h

variable (hbatches : db.batches child will_erase hashNew = .ok (batches, child'))
include hbatches

/-- What the batches of a flush leave on disk when some of them are written: the transition, or the
new tip once all are. Every write is one of those the whole flush makes. -/
theorem take_batches (hchild : child.Coherent db.coins) (hshows : child.onto db.coins = new)
    (hmixed : Mixture old new db.coins)
    (hheader : db.batchHeader hashNew = .ok [.eraseBestBlock, .writeHeadBlocks [hashNew, hashOld]])
    {k : Nat} (hk : 0 < k) :
    (k < batches.length → ((batches.take k).foldl writeBatch db).Between hashNew hashOld old new) ∧
      (batches.length ≤ k → ((batches.take k).foldl writeBatch db).HoldsAt hashNew new) := by
  have hloop := hbatches
  rw [CCoinsViewDB.batches, hheader] at hloop
  refine ⟨?_, ?_⟩
  · intro hlt
    have hlist := (Prod.mk.inj (Except.ok.inj hloop)).1
    rw [← hlist] at hlt
    obtain ⟨j, hj⟩ :=
      batchLoop_take db.batchFull hashNew will_erase hchild.linked.nodup _ _ k hk hlt
    rw [hlist] at hj
    rw [foldl_writeBatch, hj]
    have hwrites : ∀ entry ∈ (child.flagged.take j).flatMap (cellWrites child),
        entry.coinWrite?.isSome = true := by
      intro entry hentry
      obtain ⟨outpoint, -, hcell⟩ := mem_flatMap.mp hentry
      exact coinWrite?_of_cellWrites hcell
    have hsplit : db.writeBatch ([.eraseBestBlock, .writeHeadBlocks [hashNew, hashOld]] ++
        (child.flagged.take j).flatMap (cellWrites child)) =
        ({ db with bestBlock := none, headBlocks := some [hashNew, hashOld] } :
          CCoinsViewDB).writeBatch ((child.flagged.take j).flatMap (cellWrites child)) :=
      foldl_append
    rw [hsplit]
    obtain ⟨hbest, hheads⟩ := writeBatch_records hwrites
      { db with bestBlock := none, headBlocks := some [hashNew, hashOld] }
    refine ⟨hbest, hheads, ?_⟩
    rw [writeBatch_coins]
    apply hmixed.applyWrites
    intro write hwrite
    have hmem :
        write ∈ (child.flagged.flatMap (cellWrites child)).filterMap DbWrite.coinWrite? := by
      obtain ⟨entry, hentry, heq⟩ := mem_filterMap.mp hwrite
      obtain ⟨outpoint, houtpoint, hcell⟩ := mem_flatMap.mp hentry
      exact mem_filterMap.mpr
        ⟨entry, mem_flatMap.mpr ⟨outpoint, mem_of_mem_take houtpoint, hcell⟩, heq⟩
    rw [flatMap_cellWrites hchild, hshows] at hmem
    obtain ⟨outpoint, -, rfl⟩ := mem_map.mp hmem
    rfl
  · intro hle
    obtain ⟨done, hdone, hcoins, hbest, hheads⟩ := batchWrite_ok hchild hheader will_erase
    have hsame : batches.foldl writeBatch db = done := by
      rw [batchWrite, hbatches] at hdone
      exact (Prod.mk.inj (Except.ok.inj hdone)).1
    rw [take_of_length_le hle, hsame]
    exact ⟨hbest, hheads, hcoins.trans hshows⟩

theorem batchHeader_ne_null : hashNew.isNull = false := by
  cases hnull : hashNew.isNull with
  | false => rfl
  | true => simp [CCoinsViewDB.batches, batchHeader, hnull] at hbatches

theorem length_batches_pos (hchild : child.Coherent db.coins) : 0 < batches.length := by
  rw [CCoinsViewDB.batches] at hbatches
  split at hbatches
  · cases hbatches
  next header hheader =>
  have hlist := (Prod.mk.inj (Except.ok.inj hbatches)).1
  have hflatten :=
    (batchLoop_flatten db.batchFull hashNew will_erase hchild.linked.nodup header child).1
  rw [hlist] at hflatten
  apply length_pos_iff.mpr
  rintro rfl
  simp at hflatten

end CCoinsViewDB

/-! ## The old tip -/

/-- The database holds the coins of a block, or it is empty and has no tip yet. -/
inductive CCoinsViewDB.HoldsUtxo (env : ChainEnv) (store : BlockStore) (db : CCoinsViewDB) :
    CBlockIndex → UtxoMap → Prop
  | empty (hbest : db.bestBlock = none) (hheads : db.headBlocks = none)
      (hcoins : db.coins = fun _ => none) : HoldsUtxo env store db [] fun _ => none
  | block {pindex : CBlockIndex} {map : UtxoMap} (hchain : ChainUtxo env store pindex map)
      (hnull : pindex.getBlockHash.isNull = false)
      (hlookup : store.lookup pindex.getBlockHash = some pindex)
      (hat : db.HoldsAt pindex.getBlockHash map) : HoldsUtxo env store db pindex map

namespace CCoinsViewDB.HoldsUtxo

variable {env : ChainEnv} {store : BlockStore} {db : CCoinsViewDB} {pindexOld : CBlockIndex}
  {old : UtxoMap}

section

variable (h : HoldsUtxo env store db pindexOld old)

include h

theorem mined : old.Mined := by
  cases h with
  | empty => exact nofun
  | block hchain => exact hchain.mined

theorem coins_eq : db.coins = old := by
  cases h with
  | empty _ _ hcoins => exact hcoins
  | block _ _ _ hat => exact hat.coins

theorem headBlocks_eq : db.headBlocks = none := by
  cases h with
  | empty _ hheads _ => exact hheads
  | block _ _ _ hat => exact hat.headBlocks

theorem marked : db.Marked := by
  cases h with
  | empty hbest hheads hcoins => exact Or.inr (Or.inr ⟨hbest, hheads, congrFun hcoins⟩)
  | block _ _ _ hat => exact hat.marked

/-- A flush over the old tip records it, or a null hash on the first flush. -/
theorem batchHeader_eq {hashNew : Uint256} (hnew : hashNew.isNull = false) :
      db.batchHeader hashNew =
      .ok [.eraseBestBlock, .writeHeadBlocks [hashNew, db.getBestBlock]] := by
  cases h with
  | empty hbest hheads _ =>
    simp [batchHeader, hnew, getBestBlock, getHeadBlocks, hbest, hheads]
  | block _ hnull _ hat =>
    simp [batchHeader, hnew, getBestBlock, hat.bestBlock, hnull]

/-- The rolls of a replay lead from the old coins to the new ones. Without a fork everything after
the genesis block is rolled forward. -/
theorem rolls {pindexNew : CBlockIndex} {new : UtxoMap} (hnew : ChainUtxo env store pindexNew new) :
    ∃ pindexFork log, findFork store pindexNew db.getBestBlock = .ok (pindexOld, pindexFork) ∧
      Rolls (fun view => rollback env store pindexFork pindexOld view >>=
        rollforward env store pindexNew (range' (pindexFork.nHeight + 1)
          (pindexNew.nHeight - pindexFork.nHeight))) old new log := by
  cases h with
  | empty hbest _ _ =>
    obtain ⟨before, hbefore⟩ := getLast?_eq_some_iff.mp hnew.getLast?_eq
    obtain ⟨log, hforward⟩ :=
      rollforward_rolls ChainUtxo.genesis hnew (hbefore ▸ suffix_append before _)
    refine ⟨[], _, ?_, (Rolls.nil _).trans hforward⟩
    rw [findFork, if_pos (by rw [getBestBlock, hbest]; rfl)]
  | block hchain hnull hlookup hat =>
    have hlast := hchain.getLast?_eq.trans hnew.getLast?_eq.symm
    obtain ⟨hleft, hright, hne⟩ := lastCommonAncestor_suffix hlast hchain.ne_nil hnew.ne_nil
    obtain ⟨fork, _, hfork, hback⟩ := rollback_rolls hne hchain hleft
    obtain ⟨log, hforward⟩ := rollforward_rolls hfork hnew hright
    refine ⟨lastCommonAncestor pindexOld pindexNew, _, ?_, hback.trans hforward⟩
    have hbest : db.getBestBlock = pindexOld.getBlockHash := by
      rw [getBestBlock, hat.bestBlock]
      rfl
    rw [findFork, hbest, if_neg (by simp [hnull]), hlookup]
    simp only
    rw [if_neg (by simpa using hne)]

end

end CCoinsViewDB.HoldsUtxo

/-! ## Replaying -/

variable {db : CCoinsViewDB} {old new : UtxoMap} {env : ChainEnv} {store : BlockStore}

/-- An empty cache shows the coins of its database. -/
theorem utxo_overDb (db : CCoinsViewDB) : (CacheView.mk {} (.db db)).view.utxo = db.coins :=
  funext fun _ => CCoinsViewCache.Coherent.onto_of_none rfl

theorem CCoinsViewDB.Between.batchHeader_eq {hashNew hashOld : Uint256}
    (h : db.Between hashNew hashOld old new) (hnew : hashNew.isNull = false) :
    db.batchHeader hashNew = .ok [.eraseBestBlock, .writeHeadBlocks [hashNew, hashOld]] := by
  simp [batchHeader, hnew, getBestBlock, getHeadBlocks, h.bestBlock, h.headBlocks]

/-- On a database between two tips `ReplayBlocks` flushes a cache that shows the coins of
the new tip. -/
theorem replayBlocks_between {start : CCoinsViewDB} {pindexOld pindexNew : CBlockIndex}
    (hold : start.HoldsUtxo env store pindexOld old) (hnew : ChainUtxo env store pindexNew new)
    (hlookup : store.lookup pindexNew.getBlockHash = some pindexNew)
    (hnull : pindexNew.getBlockHash.isNull = false)
    (hdb : db.Between pindexNew.getBlockHash start.getBestBlock old new) :
    ∃ (child child' : CCoinsViewCache) (batches : List (List DbWrite)),
      replayBlocks env store db = .ok batches ∧
      db.batches child true pindexNew.getBlockHash = .ok (batches, child') ∧
      child.Coherent db.coins ∧ child.onto db.coins = new := by
  obtain ⟨pindexFork, _, hfork, hrolls⟩ := hold.rolls hnew
  have hwf : (CacheView.mk {} (.db db)).view.WellFormed := by
    apply CoinsView.IsFresh.wellFormed
    refine ⟨fun _ => rfl, rfl, ?_⟩
    intro outpoint coin hcoin
    rcases hdb.mixed outpoint with hsame | hsame
    · exact (hold.mined outpoint coin (hsame ▸ hcoin)).isSpent
    · exact (hnew.mined outpoint coin (hsame ▸ hcoin)).isSpent
  obtain ⟨last, hlast, hsteps⟩ := hrolls.steps _ hwf
  rw [utxo_overDb, hdb.mixed.applyWrites_eq hrolls.leads] at hsteps
  obtain ⟨mid, hback, hforward⟩ :
      ∃ mid, rollback env store pindexFork pindexOld ⟨{}, .db db⟩ = .ok mid ∧
      rollforward env store pindexNew (range' (pindexFork.nHeight + 1)
        (pindexNew.nHeight - pindexFork.nHeight)) mid = .ok last := by
    cases hmid : rollback env store pindexFork pindexOld ⟨{}, .db db⟩ with
    | error err =>
      rw [hmid] at hlast
      cases hlast
    | ok mid =>
      rw [hmid] at hlast
      exact ⟨mid, rfl, hlast⟩
  have hset := CacheView.setBestBlock_steps hsteps pindexNew.getBlockHash
  have hbase : last.base.utxo = db.coins := hsteps.base_utxo
  have hbatches : ∃ batches child', db.batches (last.setBestBlock pindexNew.getBlockHash).top true
      pindexNew.getBlockHash = .ok (batches, child') := by
    rw [batches, hdb.batchHeader_eq hnull]
    exact ⟨_, _, rfl⟩
  obtain ⟨batches, child', hbatches⟩ := hbatches
  refine ⟨(last.setBestBlock pindexNew.getBlockHash).top, child', batches, ?_, hbatches, ?_, ?_⟩
  · have hheads : db.getHeadBlocks = [pindexNew.getBlockHash, start.getBestBlock] := by
      rw [getHeadBlocks, hdb.headBlocks]
      rfl
    have hflush : db.batches (last.setBestBlock pindexNew.getBlockHash).top true
        (last.setBestBlock pindexNew.getBlockHash).top.hashBlock = .ok (batches, child') :=
      hbatches
    rw [replayBlocks, hheads]
    simp only [hlookup, hfork, hback, hforward, hflush]
  · rw [← hbase]
    exact hset.wellFormed.2
  · rw [← hbase]
    exact hset.utxo_eq

/-- The states of the database on disk while the coins of a new tip are flushed and
replays are run, each cut off after any of its batches. A restart may change how
batches are cut. The flag tells whether any batch of the flush was written. -/
inductive OnDisk (env : ChainEnv) (store : BlockStore) (start : CCoinsViewDB)
    (child : CCoinsViewCache) (will_erase : Bool) (hashNew : Uint256) :
    Bool → CCoinsViewDB → Prop
  | start : OnDisk env store start child will_erase hashNew false start
  | flush {batches : List (List DbWrite)} {child' : CCoinsViewCache} {k : Nat}
      (hbatches : start.batches child will_erase hashNew = .ok (batches, child')) (hk : 0 < k) :
      OnDisk env store start child will_erase hashNew true
        ((batches.take k).foldl CCoinsViewDB.writeBatch start)
  | replay {begun : Bool} {db : CCoinsViewDB} {batches : List (List DbWrite)}
      (before : OnDisk env store start child will_erase hashNew begun db)
      (hreplay : replayBlocks env store db = .ok batches) (k : Nat) :
      OnDisk env store start child will_erase hashNew begun
        ((batches.take k).foldl CCoinsViewDB.writeBatch db)
  | restart {begun : Bool} {db : CCoinsViewDB}
      (before : OnDisk env store start child will_erase hashNew begun db)
      (batchFull : List DbWrite → Bool) :
      OnDisk env store start child will_erase hashNew begun { db with batchFull := batchFull }

/-- A consistent database is left alone. -/
theorem replayBlocks_consistent (h : db.headBlocks = none) :
    replayBlocks env store db = .ok [] := by
  rw [replayBlocks, getHeadBlocks, h]
  rfl

section Recovery

variable {start : CCoinsViewDB} {child : CCoinsViewCache} {will_erase begun : Bool}
  {pindexOld pindexNew : CBlockIndex} (hold : start.HoldsUtxo env store pindexOld old)
  (hnew : ChainUtxo env store pindexNew new)
    (hlookup : store.lookup pindexNew.getBlockHash = some pindexNew)
  (hchild : child.Coherent start.coins) (hshows : child.onto start.coins = new)
  (hdisk : OnDisk env store start child will_erase pindexNew.getBlockHash begun db)

include hold hnew hlookup hchild hshows hdisk

/-- The states that the database goes through. -/
theorem OnDisk.invariant :
    if begun then pindexNew.getBlockHash.isNull = false ∧
      (db.Between pindexNew.getBlockHash start.getBestBlock old new ∨
      db.HoldsAt pindexNew.getBlockHash new)
    else db.HoldsUtxo env store pindexOld old := by
  induction hdisk with
  | start => exact hold
  | @flush batches child' k hbatches hk =>
    have hnull := batchHeader_ne_null hbatches
    have hstart : Mixture old new start.coins := fun outpoint =>
      Or.inl (congrFun hold.coins_eq outpoint)
    obtain ⟨hpart, hall⟩ := take_batches hbatches hchild hshows hstart
      (hold.batchHeader_eq hnull) hk
    exact ⟨hnull, (Nat.lt_or_ge k batches.length).imp hpart hall⟩
  | @replay begun db batches before hreplay k ih =>
    cases begun with
    | false =>
      rw [replayBlocks_consistent (CCoinsViewDB.HoldsUtxo.headBlocks_eq ih)] at hreplay
      cases hreplay
      simpa using ih
    | true =>
      obtain ⟨hnull, hbetween | hat⟩ := ih
      · refine ⟨hnull, ?_⟩
        obtain ⟨_, _, batches', hreplay', hbatches, hcoherent, hover⟩ :=
          replayBlocks_between hold hnew hlookup hnull hbetween
        obtain rfl : batches' = batches := by
          rw [hreplay] at hreplay'
          exact (Except.ok.inj hreplay').symm
        rcases Nat.eq_zero_or_pos k with rfl | hk
        · exact Or.inl hbetween
        obtain ⟨hpart, hall⟩ := take_batches hbatches hcoherent hover hbetween.mixed
          (hbetween.batchHeader_eq hnull) hk
        exact (Nat.lt_or_ge k batches'.length).imp hpart hall
      · rw [replayBlocks_consistent hat.headBlocks] at hreplay
        cases hreplay
        simpa using ⟨hnull, Or.inr hat⟩
  | @restart begun db before batchFull ih =>
    cases begun with
    | false =>
      cases ih with
      | empty hbest hheads hcoins => exact .empty hbest hheads hcoins
      | block hchain hnull hlookup hat =>
        exact .block hchain hnull hlookup ⟨hat.bestBlock, hat.headBlocks, hat.coins⟩
    | true =>
      obtain ⟨hnull, hbetween | hat⟩ := ih
      · exact ⟨hnull, Or.inl ⟨hbetween.bestBlock, hbetween.headBlocks, hbetween.mixed⟩⟩
      · exact ⟨hnull, Or.inr ⟨hat.bestBlock, hat.headBlocks, hat.coins⟩⟩

/-- Crash recovery. The database held the coins of an old tip, or nothing, when a
flush of the coins of a new tip began. In every state on disk from then on exactly one of
the two records is present, and `ReplayBlocks` succeeds; once a batch of the flush was
written, it ends at the new tip with exactly its coins. -/
theorem replayBlocks_recovers :
    db.Marked ∧ ∃ batches, replayBlocks env store db = .ok batches ∧ (begun = true →
        (batches.foldl CCoinsViewDB.writeBatch db).coins = new ∧
        (batches.foldl CCoinsViewDB.writeBatch db).bestBlock = some pindexNew.getBlockHash ∧
        (batches.foldl CCoinsViewDB.writeBatch db).headBlocks = none) := by
  have hinvariant := OnDisk.invariant hold hnew hlookup hchild hshows hdisk
  cases begun with
  | false =>
    have hstart : db.HoldsUtxo env store pindexOld old := hinvariant
    exact ⟨hstart.marked, [], replayBlocks_consistent hstart.headBlocks_eq, by simp⟩
  | true =>
    obtain ⟨hnull, hbetween | hat⟩ := hinvariant
    · obtain ⟨_, _, batches, hreplay, hbatches, hcoherent, hover⟩ :=
        replayBlocks_between hold hnew hlookup hnull hbetween
      have hall := (take_batches hbatches hcoherent hover hbetween.mixed
        (hbetween.batchHeader_eq hnull) (length_batches_pos hbatches hcoherent)).2 (le_refl _)
      rw [take_length] at hall
      exact ⟨hbetween.marked, batches, hreplay, fun _ =>
        ⟨hall.coins, hall.bestBlock, hall.headBlocks⟩⟩
    · exact ⟨hat.marked, [], replayBlocks_consistent hat.headBlocks, fun _ =>
        ⟨hat.coins, hat.bestBlock, hat.headBlocks⟩⟩

end Recovery

/-! ## A flush to another branch -/

/-- A store with two blocks over the genesis block. -/
def forkStore : BlockStore where
  lookup hash := if hash = 8 then some [8, 1] else if hash = 9 then some [9, 1] else none
  readBlock pindex := some (sampleBlockOf (if pindex.getBlockHash = 8 then 8 else 9))
  readBlockUndo _ := some ⟨[]⟩

/-- A cache at the genesis block over an empty database. -/
def genesisView : CacheView := ⟨{ hashBlock := 1 }, .db {}⟩

theorem genesisView_wellFormed : genesisView.view.WellFormed :=
  CoinsView.IsFresh.wellFormed ⟨fun _ => rfl, rfl, nofun⟩

/-- A block is connected to the genesis block. -/
def branchView (hash : Uint256) (block : CBlock) : CacheView :=
  match connectBlock sampleEnv block [hash, 1] genesisView with
  | .ok (_, view) => view
  | .error _ => genesisView

theorem chainUtxo_branch {hash : Uint256} {block : CBlock}
    (hread : forkStore.readBlock [hash, 1] = some block)
    (hconnect : (connectBlock sampleEnv block [hash, 1] genesisView).toOption.map Prod.fst =
      some (some ⟨[]⟩)) :
    ChainUtxo sampleEnv forkStore [hash, 1] (branchView hash block).view.utxo := by
  obtain ⟨view', hconnect⟩ := exists_eq_ok_of_map_fst hconnect
  have hparent : ChainUtxo sampleEnv forkStore [1] genesisView.view.utxo := ChainUtxo.genesis
  unfold branchView
  rw [hconnect]
  exact hparent.block genesisView_wellFormed (by decide) hread rfl (fun _ _ _ _ => rfl) hconnect

/-- The database is at one of the blocks, and every write is a batch of its own. -/
def branchDb : CCoinsViewDB where
  coins := (branchView 8 (sampleBlockOf 8)).view.utxo
  bestBlock := some 8
  batchFull := fun _ => true

/-- What `ReplayBlocks` does to get from one block to the other. -/
def rollOver (cache : CacheView) : Except ReplayError CacheView :=
  rollback sampleEnv forkStore [1] [8, 1] cache >>= rollforward sampleEnv forkStore [9, 1] [1]

/-- The coins of the other branch are flushed, with a crash after the first batch: the records of
both tips are there, and one block is rolled back and another one forward. -/
theorem replayBlocks_recovers_sample : ∃ child db,
      OnDisk sampleEnv forkStore branchDb child true 9 true db ∧ db.headBlocks = some [9, 8] ∧
      lastCommonAncestor [8, 1] [9, 1] = [1] ∧
      db.Marked ∧ ∃ batches, replayBlocks sampleEnv forkStore db = .ok batches ∧ (true = true →
          (batches.foldl CCoinsViewDB.writeBatch db).coins =
            (branchView 9 (sampleBlockOf 9)).view.utxo ∧
          (batches.foldl CCoinsViewDB.writeBatch db).bestBlock = some 9 ∧
          (batches.foldl CCoinsViewDB.writeBatch db).headBlocks = none) := by
  have hchain : ChainUtxo sampleEnv forkStore [8, 1] _ :=
    @chainUtxo_branch 8 (sampleBlockOf 8) rfl (by decide +kernel)
  have hnew : ChainUtxo sampleEnv forkStore [9, 1] _ :=
    @chainUtxo_branch 9 (sampleBlockOf 9) rfl (by decide +kernel)
  have hold : branchDb.HoldsUtxo sampleEnv forkStore [8, 1] _ :=
    .block hchain rfl rfl ⟨rfl, rfl, by rw [branchDb]⟩
  obtain ⟨pindexFork, _, hfork, hrolls⟩ := hold.rolls hnew
  obtain rfl : [1] = pindexFork := (Prod.mk.inj (Except.ok.inj hfork)).2
  have hmined : UtxoMap.Mined branchDb.coins := hold.coins_eq ▸ hold.mined
  have hwf : (CacheView.mk {} (.db branchDb)).view.WellFormed :=
    CoinsView.IsFresh.wellFormed ⟨fun _ => rfl, rfl, fun outpoint coin hcoin =>
      (hmined outpoint coin hcoin).isSpent⟩
  obtain ⟨last, hlast, hsteps⟩ := hrolls.steps _ hwf
  rw [utxo_overDb, hold.coins_eq, hrolls.leads] at hsteps
  have hbase : last.base.utxo = branchDb.coins := hsteps.base_utxo
  obtain ⟨result, hbatches⟩ : ∃ result, branchDb.batches last.top true 9 = .ok result := ⟨_, rfl⟩
  have hcut : ((rollOver ⟨{}, .db branchDb⟩).toOption.bind fun last =>
      (branchDb.batches last.top true 9).toOption.map fun result =>
        ((result.1.take 1).foldl CCoinsViewDB.writeBatch branchDb).headBlocks) =
      some (some [9, 8]) := by decide +kernel
  have hlast : rollOver ⟨{}, .db branchDb⟩ = .ok last := hlast
  rw [hlast, Except.toOption, Option.bind_some, hbatches] at hcut
  have hdisk : OnDisk sampleEnv forkStore branchDb last.top true 9 true _ :=
    OnDisk.flush hbatches Nat.one_pos
  have hshows : last.top.onto branchDb.coins = (branchView 9 (sampleBlockOf 9)).view.utxo := by
    rw [← hbase]
    exact hsteps.utxo_eq
  exact ⟨_, _, hdisk, Option.some.inj hcut, rfl, replayBlocks_recovers hold hnew rfl
    (hbase ▸ hsteps.wellFormed.2) hshows hdisk⟩

end BtcSharp
