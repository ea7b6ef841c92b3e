/-
# The transactions of a mempool

Which transactions a mempool has when entries were removed or a change set was applied.
None of this depends on the links and the totals that the entries keep, so it holds for
every mempool whose entries are found under their own ids.
-/

import BtcSharp.Mempool.Operations

namespace BtcSharp

open Function List Math Relation

namespace CTxMemPool

/-- `mapTx` is a map from the ids of transactions to their entries. -/
structure WellKeyed (env : MempoolEnv) (pool : CTxMemPool) : Prop where
  nodup : pool.txids.Nodup
  hash : ∀ it ∈ pool.txids, env.txid (pool.entry it).tx = it

/-- Only links, totals and maps were changed. -/
def SameEntries (pool after : CTxMemPool) : Prop :=
  after.txids = pool.txids ∧ ∀ it, (after.entry it).static = (pool.entry it).static

namespace SameEntries

variable {env : MempoolEnv} {pool after : CTxMemPool}

theorem refl (pool : CTxMemPool) : SameEntries pool pool := ⟨rfl, fun _ => rfl⟩

theorem modify (h : SameEntries pool after) {it : Uint256}
    {change : CTxMemPoolEntry → CTxMemPoolEntry} (hchange : ∀ e, (change e).static = e.static) :
    SameEntries pool (after.modify it change) :=
  ⟨h.1, fun x => (view_modify hchange it x).trans (h.2 x)⟩

theorem foldl {α : Type} {round : CTxMemPool → α → CTxMemPool}
    (hround : ∀ current a, SameEntries pool current → SameEntries pool (round current a))
    {items : List α} :
    ∀ {after : CTxMemPool}, SameEntries pool after →
    SameEntries pool (items.foldl round after) := by
  induction items with
  | nil => exact fun h => h
  | cons item items ih => exact fun h => ih (hround _ item h)

theorem modifyAll (h : SameEntries pool after) {its : List Uint256}
    {change : CTxMemPoolEntry → CTxMemPoolEntry} (hchange : ∀ e, (change e).static = e.static) :
    SameEntries pool (after.modifyAll its change) :=
  foldl (fun _ _ hcurrent => hcurrent.modify hchange) h

theorem updateAncestorsOf (h : SameEntries pool after) (add : Bool) (it : Uint256)
    (setAncestors : List Uint256) :
    SameEntries pool (CTxMemPool.updateAncestorsOf env add after it setAncestors) := by
  refine modifyAll ?_ fun _ => rfl
  refine foldl (fun current parent hcurrent => ?_) h
  exact hcurrent.modify fun _ => rfl

theorem updateForRemove (its : List Uint256) (updateDescendants : Bool) :
    SameEntries pool (updateForRemoveFromMempool env pool its updateDescendants) := by
  have hfirst : SameEntries pool (if updateDescendants then
      its.foldl (updateDescendantsForRemoval env) pool else pool) := by
    split
    · refine foldl (fun current it hcurrent => ?_) (refl pool)
      exact hcurrent.modifyAll fun _ => rfl
    · exact refl pool
  refine foldl (fun current it hcurrent => ?_) (foldl (fun current it hcurrent => ?_) hfirst)
  · refine foldl (fun other child hother => ?_) hcurrent
    exact hother.modify fun _ => rfl
  · exact hcurrent.updateAncestorsOf _ _ _

theorem addNewTransaction (newit : Uint256) (setAncestors : List Uint256) :
    SameEntries pool (CTxMemPool.addNewTransaction env pool newit setAncestors) := by
  have hmapped : SameEntries pool { pool with
      mapNextTx := (pool.entry newit).tx.vin.foldl
        (fun map txin => insertNextTx map txin.prevout newit) pool.mapNextTx } := refl pool
  have hlinked := @foldl pool _ (fun current pit => current.updateParent newit pit true)
    (fun current pit hcurrent => hcurrent.modify fun _ => rfl)
    (((pool.entry newit).tx.vin.map (·.prevout.hash)).dedup.filter (· ∈ pool.txids)) _ hmapped
  have hcounted : SameEntries pool (updateEntryForAncestors env _ newit setAncestors) :=
    (@updateAncestorsOf env _ _ hlinked true newit setAncestors).modify fun _ => rfl
  exact hcounted

end SameEntries

/-! ## Removals -/

section Remove

variable {env : MempoolEnv} {pool : CTxMemPool} {its : List Uint256}

section

variable (its : List Uint256) (updateDescendants : Bool)

theorem removeStaged_txids :
    (removeStaged env pool its updateDescendants).txids = pool.txids.diff its := by
  unfold removeStaged
  rw [foldl_removeUnchecked]
  rw [(SameEntries.updateForRemove its updateDescendants).1]

theorem removeStaged_static (it : Uint256) :
    ((removeStaged env pool its updateDescendants).entry it).static = (pool.entry it).static := by
  rw [removeStaged_entry]
  exact (SameEntries.updateForRemove its updateDescendants).2 it

theorem removeStaged_shrunk : Shrunk pool (removeStaged env pool its updateDescendants) := by
  refine ⟨fun it hit => ?_, fun it _ => removeStaged_static its updateDescendants it⟩
  rw [removeStaged_txids] at hit
  exact diff_subset _ _ hit

end

theorem trimToSize_shrunk {usage : CTxMemPool → Nat}
    {before : CTxMemPoolEntry → CTxMemPoolEntry → Bool} {sizelimit rounds : Nat} :
    ∀ {pool : CTxMemPool}, pool.txids.Nodup →
        Shrunk pool (trimToSize env usage before sizelimit rounds pool) ∧
        (trimToSize env usage before sizelimit rounds pool).txids.Nodup := by
  induction rounds with
  | zero => exact fun {pool} hnodup => ⟨.refl pool, hnodup⟩
  | succ rounds ih =>
    intro pool hnodup
    unfold trimToSize
    split
    · cases pool.firstByScore before pool.txids with
      | none => exact ⟨.refl pool, hnodup⟩
      | some it =>
        have hless :
            (removeStaged env pool (pool.calculateDescendants it []) false).txids.Nodup := by
          rw [removeStaged_txids]
          exact hnodup.diff
        obtain ⟨hshrunk, hrest⟩ := ih hless
        exact ⟨(removeStaged_shrunk _ _).trans hshrunk, hrest⟩
    · exact ⟨.refl pool, hnodup⟩

theorem expire_shrunk (hnodup : pool.txids.Nodup) (time : Int) :
    Shrunk pool (expire env pool time) ∧ (expire env pool time).txids.Nodup := by
  refine ⟨removeStaged_shrunk _ _, ?_⟩
  unfold expire
  rw [removeStaged_txids]
  exact hnodup.diff

theorem WellKeyed.shrunk (h : WellKeyed env pool) {after : CTxMemPool} (hshrunk : Shrunk pool after)
    (hnodup : after.txids.Nodup) : WellKeyed env after := by
  refine ⟨hnodup, fun it hit => ?_⟩
  rw [hshrunk.tx hit]
  exact h.hash it (hshrunk.txids it hit)

end Remove

/-! ## Additions -/

section Add

variable {env : MempoolEnv} {pool : CTxMemPool}

/-- The mempool `after` holds new `entries` besides those of `pool`. -/
structure Grown (env : MempoolEnv) (pool : CTxMemPool) (entries : List CTxMemPoolEntry)
    (after : CTxMemPool) : Prop where
  txids : after.txids = pool.txids ++ entries.map fun entry => env.txid entry.tx
  new : ∀ entry ∈ entries, (after.entry (env.txid entry.tx)).static = entry.static
  old : ∀ it ∈ pool.txids, (after.entry it).static = (pool.entry it).static

theorem Grown.nil : Grown env pool [] pool :=
  ⟨(append_nil _).symm, fun _ h => absurd h not_mem_nil, fun _ _ => rfl⟩

variable {after : CTxMemPool} {m_to_remove : List Uint256} {additions : List Addition}

theorem Grown.trans {first last : List CTxMemPoolEntry} {middle : CTxMemPool}
    (h : Grown env pool first middle) (hlast : Grown env middle last after) :
    Grown env pool (first ++ last) after := by
  have hmiddle : ∀ it ∈ pool.txids, it ∈ middle.txids := fun it hit =>
    h.txids ▸ mem_append_left _ hit
  refine ⟨?_, fun entry hentry => ?_, fun it hit => (hlast.old it (hmiddle it hit)).trans
    (h.old it hit)⟩
  · rw [hlast.txids, h.txids, map_append, append_assoc]
  cases mem_append.mp hentry with
  | inl hfirst =>
    have hthere : env.txid entry.tx ∈ middle.txids :=
      h.txids ▸ mem_append_right _ (mem_map_of_mem hfirst)
    exact (hlast.old _ hthere).trans (h.new entry hfirst)
  | inr hentry => exact hlast.new entry hentry

theorem addEntry_grown {entry : CTxMemPoolEntry} (hnew : env.txid entry.tx ∉ pool.txids)
    (known : Option (List Uint256)) : Grown env pool [entry] (addEntry env pool entry known) := by
  have hsplice : splice env pool entry = { pool with
      txids := pool.txids ++ [env.txid entry.tx]
      entry := update pool.entry (env.txid entry.tx) entry } := if_neg hnew
  obtain ⟨htxids, hstatic⟩ : SameEntries (splice env pool entry) (addEntry env pool entry known) :=
    .addNewTransaction _ _
  refine ⟨?_, fun other hother => ?_, fun it hit => ?_⟩
  · rw [htxids, hsplice]
    rfl
  · rw [mem_singleton.mp hother, hstatic, hsplice]
    exact congrArg CTxMemPoolEntry.static (update_self _ _ _)
  · rw [hstatic, hsplice]
    exact congrArg CTxMemPoolEntry.static (update_of_ne (ne_of_mem_of_not_mem hit hnew) _ _)

theorem addEntries_grown {entries : List CTxMemPoolEntry} :
    ∀ {pool : CTxMemPool}, (entries.map fun entry => env.txid entry.tx).Nodup →
      (∀ entry ∈ entries, env.txid entry.tx ∉ pool.txids) →
      Grown env pool entries
        (entries.foldl (fun pool entry => addEntry env pool entry none) pool) := by
  induction entries with
  | nil => exact fun _ _ => .nil
  | cons entry entries ih =>
    intro pool hnodup hnew
    obtain ⟨hnotin, hnodup⟩ := nodup_cons.mp hnodup
    have hfirst := addEntry_grown (hnew entry mem_cons_self) none
    refine hfirst.trans (ih hnodup fun other hother hmem => ?_)
    rw [hfirst.txids, map_singleton, mem_append, mem_singleton] at hmem
    cases hmem with
    | inl hmem => exact hnew other (mem_cons_of_mem _ hother) hmem
    | inr heq => exact hnotin (mem_map.mpr ⟨other, hother, heq⟩)

/-- The transactions of a mempool when a change set was applied. -/
structure Applied (env : MempoolEnv) (pool : CTxMemPool) (m_to_remove : List Uint256)
    (additions : List Addition) (after : CTxMemPool) : Prop where
  nodup : after.txids.Nodup
  mem : ∀ it, it ∈ after.txids ↔ (it ∈ pool.txids ∧ it ∉ m_to_remove) ∨
    it ∈ additions.map fun addition => env.txid addition.tx
  old : ∀ it ∈ pool.txids, it ∉ m_to_remove → (after.entry it).static = (pool.entry it).static
  new : ∀ addition ∈ additions,
    (after.entry (env.txid addition.tx)).static = (stageAddition env pool addition).static

section

variable (hnodup : pool.txids.Nodup) (hdistinct : (additions.map fun a => env.txid a.tx).Nodup)
  (hnew : ∀ a ∈ additions, env.txid a.tx ∉ pool.txids)

include hnodup hdistinct hnew

/-- The staged entries, added to what the removals left, give the contents of a change set. -/
theorem Grown.applied
    (h : Grown env (removeStaged env pool m_to_remove false)
      (additions.map (stageAddition env pool)) after) :
    Applied env pool m_to_remove additions after := by
  have hmem : ∀ it, it ∈ (removeStaged env pool m_to_remove false).txids ↔
      it ∈ pool.txids ∧ it ∉ m_to_remove := by
    intro it
    rw [removeStaged_txids]
    exact hnodup.mem_sdiff_iff
  have htxids : after.txids = (removeStaged env pool m_to_remove false).txids ++
      additions.map fun a => env.txid a.tx := by
    rw [h.txids, List.map_map]
    exact congrArg _ (map_congr_left fun a _ => congrArg env.txid (stageAddition_tx a))
  refine ⟨?_, fun it => ?_, fun it hit hkept => ?_, fun a ha => ?_⟩
  · rw [htxids, nodup_append', removeStaged_txids]
    refine ⟨hnodup.diff, hdistinct, fun it hit hadded => ?_⟩
    obtain ⟨a, ha, rfl⟩ := mem_map.mp hadded
    exact hnew a ha (diff_subset _ _ hit)
  · rw [htxids, mem_append, hmem]
  · exact (h.old it ((hmem it).mpr ⟨hit, hkept⟩)).trans (removeStaged_static _ _ it)
  · have hstaged := h.new _ (mem_map_of_mem ha)
    rw [stageAddition_tx] at hstaged
    exact hstaged

theorem apply_applied (cached : Bool) :
    Applied env pool m_to_remove additions (apply env pool m_to_remove additions cached) := by
  refine Grown.applied hnodup hdistinct hnew ?_
  have hgone : ∀ a ∈ additions, env.txid a.tx ∉ (removeStaged env pool m_to_remove false).txids :=
    fun a ha hin => hnew a ha ((removeStaged_shrunk _ _).txids _ hin)
  cases additions with
  | nil => exact .nil
  | cons first rest =>
    obtain ⟨hnotin, hdistinct⟩ := nodup_cons.mp hdistinct
    have hnotThere : env.txid (stageAddition env pool first).tx ∉
        (removeStaged env pool m_to_remove false).txids := by
      rw [stageAddition_tx]
      exact hgone first mem_cons_self
    have hfirst := addEntry_grown hnotThere (some (assumeCalculateMemPoolAncestors env
        (if cached then pool else removeStaged env pool m_to_remove false)
        (stageAddition env pool first) true))
    refine hfirst.trans (addEntries_grown ?_ fun entry hentry hmem => ?_)
    · rw [List.map_map]
      exact (map_congr_left fun a _ => congrArg env.txid (stageAddition_tx a)) ▸ hdistinct
    obtain ⟨a, ha, rfl⟩ := mem_map.mp hentry
    rw [hfirst.txids, map_singleton, mem_append, mem_singleton, stageAddition_tx,
      stageAddition_tx] at hmem
    cases hmem with
    | inl hmem => exact hgone a (mem_cons_of_mem _ ha) hmem
    | inr heq => exact hnotin (mem_map.mpr ⟨a, ha, heq⟩)

end

section

variable (h : Applied env pool m_to_remove additions after)

include h

theorem Applied.tx_old {it : Uint256} (hit : it ∈ pool.txids) (hkept : it ∉ m_to_remove) :
    (after.entry it).tx = (pool.entry it).tx :=
  CTxMemPoolEntry.tx_of_static (h.old it hit hkept)

theorem Applied.tx_new {a : Addition} (ha : a ∈ additions) :
    (after.entry (env.txid a.tx)).tx = a.tx :=
  (CTxMemPoolEntry.tx_of_static (h.new a ha)).trans (stageAddition_tx a)

theorem Applied.wellKeyed (hpool : WellKeyed env pool) : WellKeyed env after := by
  refine ⟨h.nodup, fun it hit => ?_⟩
  cases (h.mem it).mp hit with
  | inl hold =>
    rw [h.tx_old hold.1 hold.2]
    exact hpool.hash it hold.1
  | inr hnew =>
    obtain ⟨_, ha, rfl⟩ := mem_map.mp hnew
    rw [h.tx_new ha]

end

end Add

end CTxMemPool

end BtcSharp
