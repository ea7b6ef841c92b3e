/-
# Writing a layer back

`Flush` and `Sync` hand the flagged entries of a child to its parent, which is
another cache or the database. Either way the parent ends up showing exactly the
child's map. For the database the batches are one log of point writes, cut where
the batch got full, and every write agrees with the child's map.
-/

import BtcSharp.Coins.Layer
import BtcSharp.Math.PointWrites

namespace BtcSharp

open Math List

namespace CCoinsViewCache

/-! ## What the cursor leaves of the child -/

/-- The child after the cursor has passed over a list of its entries. -/
def sweep (child : CCoinsViewCache) (will_erase : Bool) (keys : List COutPoint) : CCoinsViewCache :=
  keys.foldl (fun child current => child.nextAndMaybeErase will_erase current) child

section

variable (child : CCoinsViewCache)

@[simp]
theorem sweep_cons (will_erase : Bool) (current : COutPoint) (rest : List COutPoint) :
    child.sweep will_erase (current :: rest) =
      (child.nextAndMaybeErase will_erase current).sweep will_erase rest := rfl

@[simp]
theorem sweep_true (keys : List COutPoint) : child.sweep true keys = child := by
  induction keys with
  | nil => rfl
  | cons current rest ih => exact ih

/-- The cursor looks at no cell but the current one. -/
theorem nextAndMaybeErase_cacheCoins_of_ne (will_erase : Bool)
    {current other : COutPoint} (hne : other ≠ current) :
    (child.nextAndMaybeErase will_erase current).cacheCoins other = child.cacheCoins other := by
  cases will_erase with
  | true => rfl
  | false =>
    cases hentry : child.cacheCoins current with
    | none => simp [nextAndMaybeErase, hentry]
    | some entry =>
      rw [(nextAndMaybeErase_accounted hentry).cells, Function.update_of_ne hne]

end

/-- What a syncing cursor leaves of a cell: spent entries go, others are clean. -/
def sweptCell (entry : CCoinsCacheEntry) : Option CCoinsCacheEntry :=
  if entry.coin.isSpent then none else some { entry with dirty := false, fresh := false }

variable {keys : List COutPoint} {child : CCoinsViewCache} {below : UtxoMap}

/-- Passing over existing entries once each sweeps exactly those. -/
theorem sweep_false (hnodup : keys.Nodup) : ∀ {child : CCoinsViewCache}, child.Linked →
      (∀ key ∈ keys, (child.cacheCoins key).isSome = true) →
      (child.sweep false keys).Linked ∧
      (child.sweep false keys).hashBlock = child.hashBlock ∧
      ∀ key, (child.sweep false keys).cacheCoins key =
        if key ∈ keys then (child.cacheCoins key).bind sweptCell else child.cacheCoins key := by
  induction keys with
  | nil => exact fun hlinked _ => ⟨hlinked, rfl, by simp [sweep]⟩
  | cons current rest ih =>
    intro child hlinked hsome
    obtain ⟨hnot, hrest⟩ := nodup_cons.mp hnodup
    obtain ⟨_, hentry⟩ := Option.isSome_iff_exists.mp (hsome current mem_cons_self)
    have hset := nextAndMaybeErase_accounted hentry
    have hframe : ∀ key ∈ rest, (child.nextAndMaybeErase false current).cacheCoins key =
        child.cacheCoins key := fun key hkey =>
      child.nextAndMaybeErase_cacheCoins_of_ne false (by rintro rfl; exact hnot hkey)
    obtain ⟨hlinked', hhash, hcells⟩ := ih hrest (hset.linked hlinked) fun key hkey => by
      rw [hframe key hkey]
      exact hsome key (mem_cons_of_mem _ hkey)
    refine ⟨hlinked', hhash.trans hset.hashBlock, fun key => (hcells key).trans ?_⟩
    by_cases hkey : key ∈ rest
    · rw [if_pos hkey, hframe key hkey, if_pos (mem_cons_of_mem _ hkey)]
    rw [if_neg hkey, hset.cells]
    by_cases heq : key = current
    · subst heq
      simp [hentry, sweptCell]
    · simp [heq, hkey]

/-- A synced child has no flagged entry left, shows the same map over the map it
just wrote, and is coherent over it. -/
theorem Coherent.sweep_flagged (h : child.Coherent below) :
      (child.sweep false child.flagged).flagged = [] ∧
      (child.sweep false child.flagged).Coherent (child.onto below) ∧
      (child.sweep false child.flagged).onto (child.onto below) = child.onto below ∧
      (child.sweep false child.flagged).hashBlock = child.hashBlock := by
  obtain ⟨hlinked, hhash, hcells⟩ := sweep_false h.linked.nodup h.linked fun key hkey => by
    obtain ⟨entry, hentry, -⟩ := h.entry_of_mem_flagged hkey
    simp [hentry]
  have hleft : ∀ key entry, (child.sweep false child.flagged).cacheCoins key = some entry →
      entry.dirty = false ∧ entry.fresh = false ∧ entry.coin.isSpent = false ∧
        child.onto below key = some entry.coin := by
    intro key entry hentry
    rw [hcells] at hentry
    split at hentry
    · obtain ⟨old, hold, hswept⟩ := Option.bind_eq_some_iff.mp hentry
      unfold sweptCell at hswept
      split at hswept
      · cases hswept
      next hspent =>
      cases hswept
      have hunspent : old.coin.isSpent = false := by simpa using hspent
      exact ⟨rfl, rfl, hunspent, by
        rw [Coherent.onto_of_some hold, Coin.unspent_of_not_isSpent hunspent]⟩
    · next hnot =>
      have hflag : entry.isFlagged ≠ true := fun hflag =>
        hnot ((h.linked.mem_iff key).mpr ⟨entry, hentry, hflag⟩)
      have hclean : entry.dirty = false ∧ entry.fresh = false := by
        simpa [CCoinsCacheEntry.isFlagged] using hflag
      obtain ⟨-, hspent, hbelow⟩ := (h.legal key entry hentry).clean hclean.1
      exact ⟨hclean.1, hclean.2, hspent, by
        rw [Coherent.onto_of_some hentry, Coin.unspent_of_not_isSpent hspent]⟩
  refine ⟨?_, ⟨fun key entry hentry => ?_, hlinked⟩, ?_, hhash⟩
  · refine eq_nil_iff_forall_not_mem.mpr fun key hkey => ?_
    obtain ⟨entry, hentry, hflag⟩ := (hlinked.mem_iff key).mp hkey
    obtain ⟨hdirty, hfresh, -⟩ := hleft key entry hentry
    simp [CCoinsCacheEntry.isFlagged, hdirty, hfresh] at hflag
  · obtain ⟨hdirty, hfresh, hspent, hover⟩ := hleft key entry hentry
    exact ⟨fun _ => ⟨hfresh, hspent, hover⟩, by simp [hfresh], by simp [hspent]⟩
  funext key
  cases hentry : (child.sweep false child.flagged).cacheCoins key with
  | none => exact Coherent.onto_of_none hentry
  | some entry =>
    obtain ⟨-, -, hspent, hover⟩ := hleft key entry hentry
    rw [Coherent.onto_of_some hentry, Coin.unspent_of_not_isSpent hspent, hover]

/-! ## Into another cache -/

/-- The loop of `BatchWrite` over DIRTY entries that are legal over the parent: no
exception, and the parent shows the child's coin at each of them. -/
theorem batchWriteLoop_ok (will_erase : Bool) (hnodup : keys.Nodup) :
    ∀ {parent child : CCoinsViewCache}, parent.Coherent below →
      (∀ key ∈ keys, ∃ entry, child.cacheCoins key = some entry ∧ entry.dirty = true ∧
        entry.Legal (parent.onto below key)) →
      ∃ parent', batchWriteLoop will_erase keys parent child = .ok
        (parent', child.sweep will_erase keys) ∧ parent'.Coherent below ∧
        ∀ key, parent'.onto below key =
          if key ∈ keys then cellCoin none (child.cacheCoins key)
          else parent.onto below key := by
  induction keys with
  | nil => exact fun {parent _} h _ => ⟨parent, rfl, h, by simp⟩
  | cons current rest ih =>
    intro parent child h hentries
    obtain ⟨hnot, hrest⟩ := nodup_cons.mp hnodup
    obtain ⟨entry, hentry, hdirty, hlegal⟩ := hentries current mem_cons_self
    obtain ⟨mid, hmid, hcoh, hover⟩ := h.receiveEntry will_erase hdirty hlegal
    have hframe : ∀ key ∈ rest, (child.nextAndMaybeErase will_erase current).cacheCoins key =
        child.cacheCoins key ∧ mid.onto below key = parent.onto below key := by
      intro key hkey
      have hne : key ≠ current := by rintro rfl; exact hnot hkey
      exact ⟨child.nextAndMaybeErase_cacheCoins_of_ne will_erase hne, by
        rw [hover, Function.update_of_ne hne]⟩
    obtain ⟨parent', hloop, hcoh', hover'⟩ := ih hrest hcoh fun key hkey => by
      rw [(hframe key hkey).1, (hframe key hkey).2]
      exact hentries key (mem_cons_of_mem _ hkey)
    refine ⟨parent', by simpa [batchWriteLoop, hentry, hmid] using hloop, hcoh', fun key => ?_⟩
    rw [hover' key]
    by_cases hkey : key ∈ rest
    · rw [if_pos hkey, (hframe key hkey).1, if_pos (mem_cons_of_mem _ hkey)]
    rw [if_neg hkey, hover]
    by_cases heq : key = current
    · subst heq
      simp [hentry, cellCoin]
    · simp [heq, hkey]

/-- Writing a coherent child into a coherent parent gives the parent its map. -/
theorem Coherent.batchWriteLoop {parent : CCoinsViewCache}
    (hparent : parent.Coherent below) (hchild : child.Coherent (parent.onto below))
    (will_erase : Bool) :
    ∃ parent', CCoinsViewCache.batchWriteLoop will_erase child.flagged parent child =
        .ok (parent', child.sweep will_erase child.flagged) ∧
      parent'.Coherent below ∧ parent'.onto below = child.onto (parent.onto below) := by
  obtain ⟨parent', hloop, hcoh, hover⟩ := batchWriteLoop_ok will_erase hchild.linked.nodup
    hparent fun key => hchild.entry_of_mem_flagged
  refine ⟨parent', hloop, hcoh, funext fun key => ?_⟩
  rw [hover key]
  split
  · next hkey =>
    obtain ⟨_, hentry, -⟩ := hchild.entry_of_mem_flagged hkey
    rw [Coherent.onto_of_some hentry, hentry]
    rfl
  · next hkey => exact (hchild.onto_of_notMem_flagged hkey).symm

end CCoinsViewCache

/-! ## Into the database -/

/-- The coin a write of a batch binds or unbinds, if it is about a coin. -/
def DbWrite.coinWrite? : DbWrite → Option (COutPoint × Option Coin)
  | .eraseCoin outpoint => some (outpoint, none)
  | .writeCoin outpoint coin => some (outpoint, some coin)
  | _ => none

namespace CCoinsViewDB

/-- On the coins a batch is a log of point writes. -/
theorem writeBatch_coins (db : CCoinsViewDB) (batch : List DbWrite) :
    (db.writeBatch batch).coins = applyWrites db.coins (batch.filterMap DbWrite.coinWrite?) := by
  induction batch generalizing db with
  | nil => rfl
  | cons first batch ih =>
    have hstep : db.writeBatch (first :: batch) = (db.write first).writeBatch batch := rfl
    rw [hstep, ih]
    cases first <;> simp [write, DbWrite.coinWrite?, filterMap_cons]

/-- Writing batch after batch is writing their concatenation. -/
theorem foldl_writeBatch (db : CCoinsViewDB) (batches : List (List DbWrite)) :
    batches.foldl writeBatch db = db.writeBatch batches.flatten :=
  foldl_flatten.symm

/-- The writes the child's entry at an outpoint gives rise to. -/
def cellWrites (child : CCoinsViewCache) (outpoint : COutPoint) : List DbWrite :=
  ((child.cacheCoins outpoint).map (entryWrites outpoint)).getD []

variable {keys : List COutPoint} {db : CCoinsViewDB} {hashBlock : Uint256} {header : List DbWrite}
  {child : CCoinsViewCache}

/-- Wherever the batches are cut, together they are one fixed log, and the child is
left as its cursor leaves it. -/
theorem batchLoop_flatten (batchFull : List DbWrite → Bool) (hashBlock : Uint256)
    (will_erase : Bool) (hnodup : keys.Nodup) :
    ∀ (batch : List DbWrite) (child : CCoinsViewCache),
      (batchLoop batchFull hashBlock will_erase keys batch child).1.flatten =
        batch ++ keys.flatMap (cellWrites child) ++ [.eraseHeadBlocks, .writeBestBlock hashBlock] ∧
      (batchLoop batchFull hashBlock will_erase keys batch child).2 = child.sweep
        will_erase keys := by
  induction keys with
  | nil => simp [batchLoop, CCoinsViewCache.sweep]
  | cons current rest ih =>
    intro batch child
    obtain ⟨hnot, hrest⟩ := nodup_cons.mp hnodup
    have hframe : rest.flatMap (cellWrites (child.nextAndMaybeErase will_erase current)) =
        rest.flatMap (cellWrites child) := by
      refine flatMap_congr fun key hkey => ?_
      unfold cellWrites
      rw [child.nextAndMaybeErase_cacheCoins_of_ne will_erase (by rintro rfl; exact hnot hkey)]
    simp only [batchLoop]
    split
    · obtain ⟨hlog, hchild⟩ := ih hrest [] (child.nextAndMaybeErase will_erase current)
      exact ⟨by simp [hlog, hframe, cellWrites], by simp [hchild]⟩
    obtain ⟨hlog, hchild⟩ := ih hrest
      (batch ++ ((child.cacheCoins current).map (entryWrites current)).getD [])
      (child.nextAndMaybeErase will_erase current)
    exact ⟨by simp [hlog, hframe, cellWrites], by simp [hchild]⟩

/-- Some batches but not all: the header, and the writes of the entries so far. -/
theorem batchLoop_take (batchFull : List DbWrite → Bool) (hashBlock : Uint256)
    (will_erase : Bool) (hnodup : keys.Nodup) :
    ∀ (batch : List DbWrite) (child : CCoinsViewCache) (k : Nat), 0 < k →
      k < (batchLoop batchFull hashBlock will_erase keys batch child).1.length →
      ∃ j, ((batchLoop batchFull hashBlock will_erase keys batch child).1.take k).flatten =
        batch ++ (keys.take j).flatMap (cellWrites child) := by
  induction keys with
  | nil =>
    intro batch child k hpos hk
    simp only [batchLoop, length_singleton] at hk
    omega
  | cons current rest ih =>
    intro batch child k hpos hk
    obtain ⟨hnot, hrest⟩ := nodup_cons.mp hnodup
    have hframe :
          ∀ j, (rest.take j).flatMap (cellWrites (child.nextAndMaybeErase will_erase current)) =
          (rest.take j).flatMap (cellWrites child) := by
      intro j
      refine flatMap_congr fun key hkey => ?_
      have hne : key ≠ current := by
        rintro rfl
        exact hnot (mem_of_mem_take hkey)
      unfold cellWrites
      rw [child.nextAndMaybeErase_cacheCoins_of_ne will_erase hne]
    simp only [batchLoop] at hk ⊢
    split at hk
    · next hfull =>
      obtain ⟨k, rfl⟩ := Nat.exists_eq_succ_of_ne_zero (Nat.pos_iff_ne_zero.mp hpos)
      rw [if_pos hfull]
      rcases Nat.eq_zero_or_pos k with rfl | hk'
      · exact ⟨1, by simp [cellWrites]⟩
      rw [length_cons] at hk
      obtain ⟨j, hj⟩ := ih hrest [] (child.nextAndMaybeErase will_erase current) k hk' (by omega)
      exact ⟨j + 1, by simp [hj, hframe, cellWrites]⟩
    · next hfull =>
      rw [if_neg hfull]
      obtain ⟨j, hj⟩ := ih hrest _ _ k hpos hk
      exact ⟨j + 1, by simp [hj, hframe, cellWrites]⟩

/-- The header of a batch is about no coin. -/
theorem batchHeader_filterMap (hheader : db.batchHeader hashBlock = .ok header) :
    header.filterMap DbWrite.coinWrite? = [] := by
  unfold batchHeader at hheader
  split at hheader
  · cases hheader
  split at hheader
  · split at hheader
    · split at hheader
      · cases hheader
        rfl
      · cases hheader
    · cases hheader
      rfl
  · cases hheader
    rfl

/-- The flagged entries of a coherent child, as writes of the map it shows. -/
theorem flatMap_cellWrites {below : UtxoMap} (h : child.Coherent below) :
    (child.flagged.flatMap (cellWrites child)).filterMap DbWrite.coinWrite? =
      child.flagged.map fun key => (key, child.onto below key) := by
  rw [filterMap_flatMap, map_eq_flatMap]
  refine flatMap_congr fun key hkey => ?_
  obtain ⟨entry, hentry, hdirty, -⟩ := h.entry_of_mem_flagged hkey
  rw [CCoinsViewCache.Coherent.onto_of_some hentry, cellWrites, hentry, Option.map_some,
    entryWrites, if_pos hdirty]
  cases hspent : entry.coin.isSpent <;> simp [DbWrite.coinWrite?, Coin.unspent, hspent]

/-- Writing a coherent child into the database, to the end: the database holds the
child's map and its best block, and no transition is recorded any more. -/
theorem batchWrite_ok (h : child.Coherent db.coins)
    (hheader : db.batchHeader hashBlock = .ok header) (will_erase : Bool) :
    ∃ db', db.batchWrite child will_erase hashBlock = .ok
      (db', child.sweep will_erase child.flagged) ∧
      db'.coins = child.onto db.coins ∧ db'.bestBlock = some hashBlock ∧
      db'.headBlocks = none := by
  obtain ⟨hlog, hchild⟩ :=
    batchLoop_flatten db.batchFull hashBlock will_erase h.linked.nodup header child
  refine ⟨(batchLoop db.batchFull hashBlock will_erase child.flagged header child).1.foldl
    writeBatch db, by simp only [batchWrite, batches, hheader, ← hchild], ?_, ?_, ?_⟩
  · rw [foldl_writeBatch, hlog, writeBatch_coins]
    simp only [filterMap_append, batchHeader_filterMap hheader, flatMap_cellWrites h]
    funext key
    rw [applyWrites_of_agrees (child.onto db.coins)]
    · split
      · rfl
      next hkey =>
      refine (h.onto_of_notMem_flagged fun hmem => hkey ?_).symm
      simp [hmem]
    · simp [DbWrite.coinWrite?]
  · rw [foldl_writeBatch, hlog, writeBatch, foldl_append]
    rfl
  · rw [foldl_writeBatch, hlog, writeBatch, foldl_append]
    rfl

end CCoinsViewDB

end BtcSharp
