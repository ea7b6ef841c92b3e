/-
# Adding entries

An entry of a change set comes without parents and children. When it is added its parents
are looked up in the mempool, and it is counted for its ancestors. Entries that spend from
it are not looked for, so in the graph that the entries keep it has no children.
-/

import BtcSharp.Mempool.Removal

namespace BtcSharp

open CTxMemPoolEntry Function List Math Relation

namespace CTxMemPoolEntry

/-- An entry as `StageAddition` makes it: it has no neighbours and is counted for itself. -/
structure Fresh (env : MempoolEnv) (entry : CTxMemPoolEntry) : Prop where
  parents : entry.m_parents = []
  children : entry.m_children = []
  noAssert : entry.NoAssert
  ancestors : ∀ q, (q = .fees → entry.Unsaturated) →
    entry.withAncestors.get q = entry.quantity env q
  descendants : ∀ q, q ≠ .sigOps → (q = .fees → entry.Unsaturated) →
    entry.withDescendants.get q = entry.quantity env q
  sigOps : entry.withDescendants.sigOps = 0

theorem fresh_new (env : MempoolEnv) (tx : CTransaction) (fee time : Int) (sigops_cost : Nat) :
    (new env tx fee time sigops_cost).Fresh env := by
  refine ⟨rfl, rfl, ⟨rfl, rfl⟩, fun q _ => ?_, fun q hq _ => ?_, rfl⟩
  · cases q <;> rfl
  cases q with
  | count => rfl
  | size => rfl
  | fees => rfl
  | sigOps => exact absurd rfl hq

variable {entry : CTxMemPoolEntry}

/-- While no sum is clamped, a fee difference is added to the fee and to both totals. -/
theorem updateModifiedFee_exact {fee_diff : Int}
    (h : (entry.updateModifiedFee fee_diff).Unsaturated) :
    entry.Unsaturated ∧
      (entry.updateModifiedFee fee_diff).m_modified_fee = entry.m_modified_fee + fee_diff ∧
      (entry.updateModifiedFee fee_diff).withAncestors.fees = entry.withAncestors.fees + fee_diff ∧
      (entry.updateModifiedFee fee_diff).withDescendants.fees = entry.withDescendants.fees +
      fee_diff := by
  obtain ⟨hancestors, hdescendants, hself⟩ := h
  simp only [updateModifiedFee, Bool.or_eq_false_iff, decide_eq_false_iff_not,
    not_not] at hancestors hdescendants hself
  exact ⟨⟨hancestors.1, hdescendants.1, hself.1⟩, hself.2, hancestors.2, hdescendants.2⟩

theorem Fresh.updateModifiedFee {env : MempoolEnv}
    (h : entry.Fresh env) (fee_diff : Int) : (entry.updateModifiedFee fee_diff).Fresh env := by
  refine ⟨h.parents, h.children, h.noAssert, ?_, ?_, h.sigOps⟩
  · intro q hsound
    cases q with
    | count => exact h.ancestors .count (by simp)
    | size => exact h.ancestors .size (by simp)
    | fees =>
      obtain ⟨hbefore, hfee, hancestors, -⟩ := updateModifiedFee_exact (hsound rfl)
      refine hancestors.trans (.trans ?_ hfee.symm)
      exact congrArg (· + fee_diff) (h.ancestors .fees fun _ => hbefore)
    | sigOps => exact h.ancestors .sigOps (by simp)
  · intro q hq hsound
    cases q with
    | count => exact h.descendants .count hq (by simp)
    | size => exact h.descendants .size hq (by simp)
    | fees =>
      obtain ⟨hbefore, hfee, -, hdescendants⟩ := updateModifiedFee_exact (hsound rfl)
      refine hdescendants.trans (.trans ?_ hfee.symm)
      exact congrArg (· + fee_diff) (h.descendants .fees hq fun _ => hbefore)
    | sigOps => exact absurd rfl hq

end CTxMemPoolEntry

namespace CTxMemPool

section Add

variable {env : MempoolEnv} {pool : CTxMemPool} {entry : CTxMemPoolEntry}

theorem stageAddition_fresh (addition : Addition) :
    (stageAddition env pool addition).Fresh env := by
  have hnew := fresh_new env addition.tx addition.fee addition.time addition.sigops_cost
  unfold stageAddition
  dsimp only
  split
  · exact hnew.updateModifiedFee _
  · exact hnew

theorem stageAddition_tx (addition : Addition) :
    (stageAddition env pool addition).tx = addition.tx := by
  unfold stageAddition
  dsimp only
  split <;> rfl

/-! ## What an addition does to the entries -/

/-- The parents of a new entry, in the order in which they were put into its set. -/
def parentsOf (pool : CTxMemPool) (tx : CTransaction) : List Uint256 :=
  ((tx.vin.map (·.prevout.hash)).dedup.filter (· ∈ pool.txids)).foldl
    (fun set it => set.insert it) []

theorem foldl_insert_spec (its : List Uint256) : ∀ {set : List Uint256}, set.Nodup →
      (its.foldl (fun set => set.insert) set).Nodup ∧
      ∀ it, it ∈ its.foldl (fun set => set.insert) set ↔ it ∈ set ∨ it ∈ its := by
  induction its with
  | nil => exact fun h => ⟨h, fun it => (or_iff_left not_mem_nil).symm⟩
  | cons head its ih =>
    intro set h
    obtain ⟨hnodup, hmem⟩ := ih h.insert
    refine ⟨hnodup, fun it => ?_⟩
    rw [foldl_cons, hmem, mem_insert_iff, mem_cons, or_comm (a := it = head), or_assoc]

theorem nodup_parentsOf (tx : CTransaction) : (pool.parentsOf tx).Nodup :=
  (foldl_insert_spec _ nodup_nil).1

theorem mem_parentsOf {tx : CTransaction} {parent : Uint256} :
    parent ∈ pool.parentsOf tx ↔ parent ∈ pool.txids ∧ tx.SpendsFrom parent := by
  unfold parentsOf CTransaction.SpendsFrom
  rw [(foldl_insert_spec _ nodup_nil).2]
  simp only [not_mem_nil, false_or, mem_filter, mem_dedup, mem_map,
    decide_eq_true_eq]
  exact and_comm

theorem foldl_updateParent (it : Uint256) (parents : List Uint256) :
    parents.foldl (fun pool parent => pool.updateParent it parent true) pool =
    pool.modify it fun e =>
        { e with m_parents := parents.foldl (fun set => set.insert) e.m_parents } := by
  induction parents generalizing pool with
  | nil =>
    show pool = { pool with entry := update pool.entry it (pool.entry it) }
    rw [update_eq_self]
  | cons parent parents ih =>
    rw [foldl_cons, ih]
    unfold modify updateParent modify
    simp

/-- `UpdateEntryForAncestors` counts each ancestor once. -/
theorem updateEntryForAncestors_eq (it : Uint256) (ancestors : List Uint256) :
    updateEntryForAncestors env pool it ancestors = pool.modify it fun e =>
      { e with withAncestors := e.withAncestors.update fun q =>
          (ancestors.map fun a => (pool.entry a).quantity env q).sum } := by
  have hcount :
    (ancestors.length : Int) = (ancestors.map fun a => (pool.entry a).quantity env .count).sum := by
    simp [quantity]
  unfold updateEntryForAncestors updateAncestorState
  rw [hcount]
  rfl

/-- The parents of a new entry learn of it, and its ancestors count it. -/
theorem updateAncestorsOf_true (it : Uint256) (ancestors : List Uint256) :
    updateAncestorsOf env true pool it ancestors =
    (pool.modifyAll (pool.entry it).m_parents fun e =>
        { e with m_children := e.m_children.insert it }).modifyAll ancestors
          (.countDescendant env 1 (pool.entry it)) := by
  rfl

/-- What `addNewTransaction` does to an entry other than the new one. -/
def countChild (env : MempoolEnv) (pool : CTxMemPool) (newit : Uint256) (new : CTxMemPoolEntry)
    (ancestors : List Uint256) (x : Uint256) : CTxMemPoolEntry :=
  { pool.entry x with
    m_children := if x ∈ pool.parentsOf new.tx then (pool.entry x).m_children.insert newit
      else (pool.entry x).m_children
    withDescendants := if x ∈ ancestors then (pool.entry x).withDescendants.update fun q =>
        if q = .sigOps then 0 else 1 * new.quantity env q
      else (pool.entry x).withDescendants }

/-- What `addNewTransaction` does, in one step. -/
theorem addNewTransaction_eq {newit : Uint256} {ancestors : List Uint256}
    (hnodup : ancestors.Nodup) (hself : newit ∉ ancestors)
      (hparents : (pool.entry newit).m_parents = [])
    (hspend : newit ∉ pool.parentsOf (pool.entry newit).tx) :
    addNewTransaction env pool newit ancestors = { pool with
        entry := update (countChild env pool newit (pool.entry newit) ancestors) newit
          { pool.entry newit with
            m_parents := pool.parentsOf (pool.entry newit).tx
            withAncestors := (pool.entry newit).withAncestors.update fun q =>
              (ancestors.map fun a => (pool.entry a).quantity env q).sum }
        mapNextTx := (pool.entry newit).tx.vin.foldl
          (fun map txin => insertNextTx map txin.prevout newit) pool.mapNextTx
        totalTxSize := pool.totalTxSize + (pool.entry newit).getTxSize env
        m_total_fee := pool.m_total_fee + (pool.entry newit).nFee } := by
  generalize hmap : (pool.entry newit).tx.vin.foldl
    (fun map txin => insertNextTx map txin.prevout newit) pool.mapNextTx = map
  let linked : CTxMemPool := { pool with
    mapNextTx := map
    entry := update pool.entry newit
      { pool.entry newit with m_parents := pool.parentsOf (pool.entry newit).tx } }
  have hlinked : addNewTransaction env pool newit ancestors =
      let updated := updateEntryForAncestors env (updateAncestorsOf env true linked newit ancestors)
        newit ancestors
      { updated with
        totalTxSize := updated.totalTxSize + (pool.entry newit).getTxSize env
        m_total_fee := updated.m_total_fee + (pool.entry newit).nFee } := by
    unfold addNewTransaction
    dsimp only
    rw [foldl_updateParent, hmap]
    unfold modify
    dsimp only
    rw [hparents]
    rfl
  have hnew : linked.entry newit =
      { pool.entry newit with m_parents := pool.parentsOf (pool.entry newit).tx } :=
    update_self _ _ _
  have hother : ∀ x, x ≠ newit → linked.entry x = pool.entry x := fun x hx =>
    update_of_ne hx _ _
  have hcounted : updateAncestorsOf env true linked newit ancestors = { linked with
        entry := update (countChild env pool newit (pool.entry newit) ancestors) newit
          (linked.entry newit) } := by
    rw [updateAncestorsOf_true, hnew, modifyAll_eq hnodup, modifyAll_eq (nodup_parentsOf _)]
    congr 1
    funext x
    by_cases hx : x = newit
    · subst hx
      rw [update_self, if_neg hself]
      exact (if_neg hspend).trans hnew
    rw [update_of_ne hx]
    simp only [hother x hx]
    unfold countChild countDescendant
    split <;> split <;> rfl
  have hquantity : ∀ a, (update (countChild env pool newit (pool.entry newit) ancestors)
      newit (linked.entry newit) a).quantity env = (pool.entry a).quantity env := by
    intro a
    apply quantity_of_static
    by_cases ha : a = newit
    · subst ha
      rw [update_self, hnew]
      rfl
    · rw [update_of_ne ha]
      rfl
  rw [hlinked, updateEntryForAncestors_eq, hcounted]
  simp only [hquantity, modify, update_self, update_idem]
  rw [hnew]

/-! ## Entries that may be added -/

/-- The entry is not in the mempool and spends nothing that an entry spends, nor itself. -/
structure Addable (env : MempoolEnv) (pool : CTxMemPool) (entry : CTxMemPoolEntry) : Prop where
  new : env.txid entry.tx ∉ pool.txids
  unspent : ∀ txin ∈ entry.tx.vin, txin.prevout ∉ pool.mapNextTx.map Prod.fst
  noLoop : ¬ entry.tx.SpendsFrom (env.txid entry.tx)

/-- A set of ancestors that a new entry has in a mempool. -/
def AncestorsOf (pool : CTxMemPool) (entry : CTxMemPoolEntry) (ancestors : List Uint256) : Prop :=
  ancestors.Nodup ∧ ∀ other, other ∈ ancestors ↔
    ∃ parent ∈ pool.txids, entry.tx.SpendsFrom parent ∧ ReflTransGen pool.Linked other parent

/-- What is there when an entry was added. -/
structure Added (env : MempoolEnv) (pool : CTxMemPool) (entry : CTxMemPoolEntry)
    (after : CTxMemPool) : Prop where
  txids : after.txids = pool.txids ++ [env.txid entry.tx]
  new : (after.entry (env.txid entry.tx)).static = entry.static
  static : ∀ it, it ≠ env.txid entry.tx → (after.entry it).static = (pool.entry it).static
  linked : ∀ parent child, after.Linked parent child ↔ pool.Linked parent child ∨
    child = env.txid entry.tx ∧ parent ∈ pool.txids ∧ entry.tx.SpendsFrom parent
  mapDeltas : after.mapDeltas = pool.mapDeltas

variable {after : CTxMemPool} {known : Option (List Uint256)}

theorem Added.mem_txids (h : Added env pool entry after) (it : Uint256) :
    it ∈ after.txids ↔ it ∈ pool.txids ∨ it = env.txid entry.tx := by
  rw [h.txids, mem_append, mem_singleton]

theorem Added.nodes (h : Added env pool entry after) :
    after.nodes = insert (env.txid entry.tx) pool.nodes := by
  ext it
  rw [mem_nodes, h.mem_txids, Finset.mem_insert, mem_nodes, or_comm]

theorem Addable.ne (h : Addable env pool entry) (it : Uint256) (hit : it ∈ pool.txids) :
    it ≠ env.txid entry.tx :=
  ne_of_mem_of_not_mem hit h.new

theorem Addable.notMem_nodes (h : Addable env pool entry) : env.txid entry.tx ∉ pool.nodes :=
  fun hin => h.new (mem_nodes.mp hin)

theorem foldl_insertNextTx (vin : List CTxIn) (newit : Uint256) :
    ∀ {map : List (COutPoint × Uint256)}, (map.map Prod.fst).Nodup →
      (∀ txin ∈ vin, ∀ it, (txin.prevout, it) ∈ map → it = newit) →
      let after := vin.foldl (fun map txin => insertNextTx map txin.prevout newit) map
      (after.map Prod.fst).Nodup ∧ ∀ prevout it, (prevout, it) ∈ after ↔
        (prevout, it) ∈ map ∨ it = newit ∧ ∃ txin ∈ vin, txin.prevout = prevout := by
  induction vin with
  | nil => exact fun hnodup _ => ⟨hnodup, fun prevout it => by simp⟩
  | cons txin vin ih =>
    intro map hnodup hfree
    have hmem : ∀ prevout it, (prevout, it) ∈ insertNextTx map txin.prevout newit ↔
        (prevout, it) ∈ map ∨ prevout = txin.prevout ∧ it = newit := by
      intro prevout it
      unfold insertNextTx
      split
      · next hthere =>
        obtain ⟨⟨-, other⟩, hother, rfl⟩ := mem_map.mp hthere
        have hsame := hfree txin mem_cons_self other hother
        refine (or_iff_left_of_imp ?_).symm
        rintro ⟨rfl, rfl⟩
        exact hsame ▸ hother
      · simp
    have hnodup' : ((insertNextTx map txin.prevout newit).map Prod.fst).Nodup := by
      unfold insertNextTx
      split
      · exact hnodup
      next hnot =>
      rw [map_append, map_singleton, ← concat_eq_append]
      exact hnodup.concat hnot
    obtain ⟨hresult, hiff⟩ := ih hnodup' (by
      intro other hother it hit
      rcases (hmem _ it).mp hit with hold | ⟨-, hnew⟩
      · exact hfree other (mem_cons_of_mem _ hother) it hold
      · exact hnew)
    refine ⟨hresult, fun prevout it => (hiff prevout it).trans ?_⟩
    rw [hmem]
    constructor
    · rintro ((hold | ⟨rfl, rfl⟩) | ⟨hnew, other, hother, heq⟩)
      · exact .inl hold
      · exact .inr ⟨rfl, txin, mem_cons_self, rfl⟩
      · exact .inr ⟨hnew, other, mem_cons_of_mem _ hother, heq⟩
    rintro (hold | ⟨hnew, other, hother, heq⟩)
    · exact .inl (.inl hold)
    rcases mem_cons.mp hother with rfl | hother
    · exact .inl (.inr ⟨heq.symm, hnew⟩)
    · exact .inr ⟨hnew, other, hother, heq⟩

/-- The mempool with one more entry that is linked to nothing. -/
def spliced (env : MempoolEnv) (pool : CTxMemPool) (entry : CTxMemPoolEntry) : CTxMemPool :=
  { pool with
    txids := pool.txids ++ [env.txid entry.tx]
    entry := Function.update pool.entry (env.txid entry.tx) entry }

/-- One more entry that has no children leaves the links in order. -/
theorem Links.extend {after : CTxMemPool} {new : Uint256} {P : Uint256 → Prop} (h : pool.Links)
    (hnew : new ∉ pool.txids) (htxids : after.txids = pool.txids ++ [new])
    (hparents : ∀ parent, P parent → parent ∈ pool.txids)
    (hlinked : ∀ parent child, after.Linked parent child ↔ pool.Linked parent child ∨
      child = new ∧ P parent)
    (hself : (after.entry new).m_parents.Nodup ∧ (after.entry new).m_children = [])
    (hother : ∀ it ∈ pool.txids, (after.entry it).m_parents = (pool.entry it).m_parents ∧
      (after.entry it).m_children.Nodup ∧ ∀ child, child ∈ (after.entry it).m_children ↔
        child ∈ (pool.entry it).m_children ∨ child = new ∧ P it) : after.Links := by
  have hmem : ∀ it, it ∈ after.txids ↔ it ∈ pool.txids ∨ it = new := fun it => by simp [htxids]
  refine ⟨?_, ?_, ?_, ?_, ?_, ?_⟩
  · rw [htxids, ← concat_eq_append]
    exact h.nodup.concat hnew
  · intro child hchild parent hparent
    refine (hmem parent).mpr (.inl ?_)
    rcases (hlinked parent child).mp ⟨hchild, hparent⟩ with hold | ⟨-, hparent⟩
    · exact (h.linked_mem hold).1
    · exact hparents parent hparent
  · intro child hchild
    rcases (hmem child).mp hchild with hchild | rfl
    · rw [(hother child hchild).1]
      exact h.parents_nodup child hchild
    · exact hself.1
  · intro parent hparent
    rcases (hmem parent).mp hparent with hparent | rfl
    · exact (hother parent hparent).2.1
    · exact hself.2 ▸ nodup_nil
  · intro parent hparent child
    rw [hlinked]
    rcases (hmem parent).mp hparent with hparent | rfl
    · rw [(hother parent hparent).2.2, h.children_iff parent hparent]
    rw [hself.2]
    refine ⟨fun hchild => absurd hchild not_mem_nil, ?_⟩
    rintro (hold | ⟨-, hparent⟩)
    · exact absurd (h.linked_mem hold).1 hnew
    · exact absurd (hparents _ hparent) hnew
  · intro it hpath
    rcases (transGen_sink hlinked (fun _ hlink => hnew (h.linked_mem hlink).1)
      fun hself => hnew (hparents _ hself)).mp hpath with hold | ⟨rfl, parent, hparent, hreach⟩
    · exact h.acyclic it hold
    · exact hnew (h.reach_mem (hparents parent hparent) hreach)

/-- Splicing in an entry without parents adds a node without edges. -/
theorem Links.splice (h : pool.Links) (hfresh : entry.Fresh env)
    (hnew : env.txid entry.tx ∉ pool.txids) :
    (spliced env pool entry).Links ∧ (spliced env pool entry).Linked = pool.Linked := by
  have hself : (spliced env pool entry).entry (env.txid entry.tx) = entry := update_self _ _ _
  have hother : ∀ it ∈ pool.txids, (spliced env pool entry).entry it = pool.entry it :=
    fun it hit =>
    update_of_ne (ne_of_mem_of_not_mem hit hnew) _ _
  have hlinked : (spliced env pool entry).Linked = pool.Linked := by
    funext parent child
    unfold Linked
    by_cases hchild : child = env.txid entry.tx
    · simp [spliced, hchild, hnew, hfresh.parents]
    · simp [spliced, hchild]
  refine ⟨h.extend (P := fun _ => False) hnew rfl nofun (fun _ _ => by simp [hlinked])
    ?_ ?_, hlinked⟩
  · rw [hself, hfresh.parents, hfresh.children]
    exact ⟨nodup_nil, rfl⟩
  · intro it hit
    rw [hother it hit]
    exact ⟨rfl, h.children_nodup it hit, fun child => by simp⟩

/-- The mempool with one more entry that has these ancestors. -/
def grown (env : MempoolEnv) (pool : CTxMemPool) (entry : CTxMemPoolEntry)
    (ancestors : List Uint256) : CTxMemPool :=
  { pool with
    txids := pool.txids ++ [env.txid entry.tx]
    entry := Function.update
      (countChild env pool (env.txid entry.tx) entry ancestors) (env.txid entry.tx)
      { entry with
        m_parents := pool.parentsOf entry.tx
        withAncestors := entry.withAncestors.update fun q =>
          (ancestors.map fun a => (pool.entry a).quantity env q).sum }
    mapNextTx := entry.tx.vin.foldl
      (fun map txin => insertNextTx map txin.prevout (env.txid entry.tx)) pool.mapNextTx
    totalTxSize := pool.totalTxSize + entry.getTxSize env
    m_total_fee := pool.m_total_fee + entry.nFee }

/-- What an addition does, in one step. -/
theorem addEntry_eq (h : pool.Links) (hfresh : entry.Fresh env) (haddable : Addable env pool entry)
    (hknown : ∀ ancestors ∈ known, pool.AncestorsOf entry ancestors) :
    ∃ ancestors, pool.AncestorsOf entry ancestors ∧
      addEntry env pool entry known = grown env pool entry ancestors := by
  obtain ⟨hlinks, hlinked⟩ := h.splice hfresh haddable.new
  have hsplice : splice env pool entry = spliced env pool entry := if_neg haddable.new
  obtain ⟨ancestors, hancestors, hadd⟩ : ∃ ancestors, pool.AncestorsOf entry ancestors ∧
      addEntry env pool entry known = addNewTransaction env (splice env pool entry)
        (env.txid entry.tx) ancestors := by
    cases known with
    | some ancestors => exact ⟨ancestors, hknown ancestors rfl, rfl⟩
    | none =>
      refine ⟨_, ?_, rfl⟩
      rw [hsplice]
      obtain ⟨hnodup, hmem⟩ := @Links.searchedAncestors env _ hlinks entry
      refine ⟨hnodup, fun other => (hmem other).trans ?_⟩
      rw [hlinked]
      constructor
      · rintro ⟨parent, hparent, hspends, hpath⟩
        rcases mem_append.mp hparent with hparent | hparent
        · exact ⟨parent, hparent, hspends, hpath⟩
        · exact absurd (mem_singleton.mp hparent ▸ hspends) haddable.noLoop
      · rintro ⟨parent, hparent, hspends, hpath⟩
        exact ⟨parent, mem_append_left _ hparent, hspends, hpath⟩
  refine ⟨ancestors, hancestors, hadd.trans ?_⟩
  rw [hsplice]
  have hne : ∀ a ∈ ancestors, a ≠ env.txid entry.tx := by
    intro a ha
    obtain ⟨parent, hparent, -, hpath⟩ := (hancestors.2 a).mp ha
    exact ne_of_mem_of_not_mem (h.reach_mem hparent hpath) haddable.new
  have hself : (spliced env pool entry).entry (env.txid entry.tx) = entry := update_self _ _ _
  have hother : ∀ it, it ≠ env.txid entry.tx → (spliced env pool entry).entry it = pool.entry it :=
    fun it hit => update_of_ne hit _ _
  have hparents : (spliced env pool entry).parentsOf entry.tx = pool.parentsOf entry.tx := by
    unfold parentsOf spliced
    refine congrArg _ (filter_congr ?_)
    intro parent hparent
    obtain ⟨txin, htxin, heq⟩ := mem_map.mp (mem_dedup.mp hparent)
    have hparentNe : parent ≠ env.txid entry.tx := by
      rintro rfl
      exact haddable.noLoop ⟨txin, htxin, heq⟩
    simp [hparentNe]
  have hcounts : ∀ new, update (countChild env (spliced env pool entry) (env.txid entry.tx) entry
      ancestors) (env.txid entry.tx) new = update
        (countChild env pool (env.txid entry.tx) entry ancestors) (env.txid entry.tx) new := by
    intro new
    funext x
    by_cases hx : x = env.txid entry.tx
    · rw [hx, update_self, update_self]
    rw [update_of_ne hx, update_of_ne hx]
    unfold countChild
    rw [hother x hx, hparents]
  have hsums : ∀ q, (ancestors.map fun a => ((spliced env pool entry).entry a).quantity env q) =
      ancestors.map fun a => (pool.entry a).quantity env q := fun q =>
    map_congr_left fun a ha => by rw [hother a (hne a ha)]
  rw [addNewTransaction_eq hancestors.1 (fun hmem => hne _ hmem rfl)
      (by rw [hself]; exact hfresh.parents)
      (by rw [hself]; exact fun hmem => haddable.noLoop (mem_parentsOf.mp hmem).2), hself, hparents]
  simp only [hsums]
  rw [hcounts, spliced, grown]

/-- The new entry is a node without children. -/
theorem Added.paths {after : CTxMemPool} (h : Added env pool entry after) (hlinks : pool.Links)
    (haddable : Addable env pool entry) {first last : Uint256} :
    TransGen after.Linked first last ↔ TransGen pool.Linked first last ∨
      last = env.txid entry.tx ∧ ∃ parent, (parent ∈ pool.txids ∧ entry.tx.SpendsFrom parent) ∧
        ReflTransGen pool.Linked first parent :=
  transGen_sink h.linked (fun _ hlinked => haddable.new (hlinks.linked_mem hlinked).1)
    fun hpred => haddable.new hpred.1

section Added

variable {ancestors : List Uint256} {after : CTxMemPool}
    (hafter : after = grown env pool entry ancestors)

include hafter

theorem added_self : after.entry (env.txid entry.tx) = { entry with
    m_parents := pool.parentsOf entry.tx
    withAncestors := entry.withAncestors.update fun q =>
      (ancestors.map fun a => (pool.entry a).quantity env q).sum } := by
  rw [hafter]
  exact update_self _ _ _

theorem added_other (it : Uint256) (hit : it ≠ env.txid entry.tx) :
    after.entry it = countChild env pool (env.txid entry.tx) entry ancestors it := by
  rw [hafter]
  exact update_of_ne hit _ _

variable (haddable : Addable env pool entry)
include haddable

theorem Addable.added : Added env pool entry after := by
  have hself := added_self hafter
  have hother := added_other hafter
  have htxids : after.txids = pool.txids ++ [env.txid entry.tx] := by rw [hafter, grown]
  refine ⟨htxids, ?_, ?_, ?_, ?_⟩
  · rw [hself]
    rfl
  · intro it hit
    rw [hother it hit]
    rfl
  · intro parent child
    unfold Linked
    rw [htxids, mem_append, mem_singleton]
    by_cases hchild : child = env.txid entry.tx
    · subst hchild
      rw [hself]
      constructor
      · rintro ⟨-, hparent⟩
        exact .inr ⟨rfl, mem_parentsOf.mp hparent⟩
      rintro (⟨hold, -⟩ | ⟨-, hparent⟩)
      · exact absurd hold haddable.new
      · exact ⟨.inr rfl, mem_parentsOf.mpr hparent⟩
    · rw [hother child hchild]
      constructor
      · rintro ⟨hmem, hparent⟩
        exact .inl ⟨hmem.resolve_right hchild, hparent⟩
      rintro (⟨hmem, hparent⟩ | ⟨heq, -⟩)
      · exact ⟨.inl hmem, hparent⟩
      · exact absurd heq hchild
  · rw [hafter, grown]

theorem Links.added (h : pool.Links) (hfresh : entry.Fresh env) : after.Links := by
  have hadded := haddable.added hafter
  refine h.extend haddable.new hadded.txids (fun _ => And.left) hadded.linked ?_ ?_
  · rw [added_self hafter]
    exact ⟨nodup_parentsOf _, hfresh.children⟩
  intro it hit
  rw [added_other hafter it (haddable.ne it hit), ← mem_parentsOf]
  refine ⟨rfl, ?_, fun child => ?_⟩
  all_goals
    unfold countChild
    split
  · exact (h.children_nodup it hit).insert
  · exact h.children_nodup it hit
  · next hnew => rw [mem_insert_iff, or_comm, and_iff_left hnew]
  · next hnot => exact (or_iff_left fun hnew => hnot hnew.2).symm

theorem Books.added (h : pool.Books env) : after.Books env := by
  have hadded := haddable.added hafter
  have hnextTx : after.mapNextTx = entry.tx.vin.foldl
      (fun map txin => insertNextTx map txin.prevout (env.txid entry.tx)) pool.mapNextTx := by
    rw [hafter, grown]
  have htx : ∀ it, it ≠ env.txid entry.tx →
    (after.entry it).tx = (pool.entry it).tx := fun it hit =>
    tx_of_static (hadded.static it hit)
  have hself : (after.entry (env.txid entry.tx)).tx = entry.tx :=
    tx_of_static hadded.new
  have hmem := hadded.mem_txids
  have hne := haddable.ne
  obtain ⟨hnodup, hiff⟩ := foldl_insertNextTx entry.tx.vin (env.txid entry.tx) h.nextTx_nodup
    fun txin htxin it hit =>
      absurd (mem_map.mpr ⟨_, hit, rfl⟩) (haddable.unspent txin htxin)
  have hnodes := hadded.nodes
  have hnotin := haddable.notMem_nodes
  refine ⟨?_, ?_, ?_, ?_, ?_⟩
  · intro it hit
    rcases (hmem it).mp hit with hit | rfl
    · rw [htx it (hne it hit)]
      exact h.hash it hit
    · rw [hself]
  · intro prevout it
    rw [hnextTx, hiff, hmem, h.nextTx]
    constructor
    · rintro (⟨hit, hspent⟩ | ⟨rfl, hspent⟩)
      · rw [htx it (hne it hit)]
        exact ⟨.inl hit, hspent⟩
      · rw [hself]
        exact ⟨.inr rfl, hspent⟩
    rintro ⟨hit | rfl, hspent⟩
    · rw [htx it (hne it hit)] at hspent
      exact .inl ⟨hit, hspent⟩
    · rw [hself] at hspent
      exact .inr ⟨rfl, hspent⟩
  · rw [hnextTx]
    exact hnodup
  · have htotal : after.totalTxSize = pool.totalTxSize + entry.getTxSize env := by
      rw [hafter, grown]
    rw [htotal, hnodes, Finset.sum_insert hnotin, h.totalTxSize, Int.add_comm,
      getTxSize_of_static hadded.new]
    refine congrArg (_ + ·) (Finset.sum_congr rfl fun it hit => ?_)
    rw [getTxSize_of_static (hadded.static it (hne it (mem_nodes.mp hit)))]
  · have htotal : after.m_total_fee = pool.m_total_fee + entry.nFee := by rw [hafter, grown]
    rw [htotal, hnodes, Finset.sum_insert hnotin, h.totalFee, Int.add_comm,
      nFee_of_static hadded.new]
    refine congrArg (_ + ·) (Finset.sum_congr rfl fun it hit => ?_)
    rw [nFee_of_static (hadded.static it (hne it (mem_nodes.mp hit)))]

theorem unsaturated_of_added (hunsaturated : after.Unsaturated) :
    pool.Unsaturated ∧ entry.Unsaturated := by
  have hmem := (haddable.added hafter).mem_txids
  refine ⟨⟨?_, fun it hit => ?_⟩, ?_⟩
  · have hflag := hunsaturated.1
    rw [hafter] at hflag
    exact hflag
  · have hflags := hunsaturated.2 it ((hmem it).mpr (.inl hit))
    rw [added_other hafter it (haddable.ne it hit)] at hflags
    exact ⟨hflags.1, PackageState.saturated_ite_update hflags.2.1, hflags.2.2⟩
  · have hflags := hunsaturated.2 _ ((hmem _).mpr (.inr rfl))
    rw [added_self hafter] at hflags
    exact ⟨PackageState.saturated_update hflags.1, hflags.2.1, hflags.2.2⟩

/-- An addition leaves exact totals. -/
theorem Exact.added (h : pool.Exact env (TransGen pool.Linked)) (hlinks : pool.Links)
    (hfresh : entry.Fresh env) (hancestors : pool.AncestorsOf entry ancestors) :
      after.Exact env (TransGen after.Linked) := by
  have hadded := haddable.added hafter
  have hself := added_self hafter
  have hother := added_other hafter
  have hmem := hadded.mem_txids
  have hne := haddable.ne
  have hsound : ∀ q, after.Sound q → pool.Sound q ∧ (q = .fees → entry.Unsaturated) :=
    fun q h => ⟨fun heq => (unsaturated_of_added hafter haddable (h heq)).1,
      fun heq => (unsaturated_of_added hafter haddable (h heq)).2⟩
  have hnodes := hadded.nodes
  have hnotin := haddable.notMem_nodes
  have hweight : ∀ q, ∀ it ∈ pool.txids, after.weight env q it = pool.weight env q it :=
    fun q it hit => congrFun (quantity_of_static (hadded.static it (hne it hit)) env) q
  have hnew : ∀ q, after.weight env q (env.txid entry.tx) = entry.quantity env q := fun q =>
    congrFun (quantity_of_static hadded.new env) q
  have hpaths :=
    fun first last => @Added.paths env pool entry after hadded hlinks haddable first last
  have hnone : ∀ it, ¬ TransGen after.Linked (env.txid entry.tx) it := by
    intro it hpath
    rcases (hpaths _ _).mp hpath with hold | ⟨-, parent, ⟨hparent, -⟩, hreach⟩
    · exact haddable.new (hlinks.path_mem hold).1
    · exact haddable.new (hlinks.reach_mem hparent hreach)
  have hfound : ∀ it, it ∈ ancestors ↔ TransGen after.Linked it (env.txid entry.tx) := by
    intro it
    rw [hancestors.2, hpaths]
    constructor
    · rintro ⟨parent, hparent, hspends, hreach⟩
      exact .inr ⟨rfl, parent, ⟨hparent, hspends⟩, hreach⟩
    rintro (hold | ⟨-, parent, ⟨hparent, hspends⟩, hreach⟩)
    · exact absurd (hlinks.path_mem hold).2 haddable.new
    · exact ⟨parent, hparent, hspends, hreach⟩
  have hold : ∀ first last, last ∈ pool.txids →
      (TransGen after.Linked first last ↔ TransGen pool.Linked first last) :=
      fun first last hlast =>
    (hpaths first last).trans (or_iff_left fun hnew => hne last hlast hnew.1)
  have hancestorsMem : ∀ a ∈ ancestors, a ∈ pool.txids := fun a ha => by
    obtain ⟨parent, hparent, -, hreach⟩ := (hancestors.2 a).mp ha
    exact hlinks.reach_mem hparent hreach
  refine ⟨?_, ?_, ?_⟩
  · intro it hit q hafterSound
    obtain ⟨hpool, hentry⟩ := hsound q hafterSound
    rw [hnodes, relTotal_insert hnotin, if_neg (hnone it), Int.add_zero]
    rcases (hmem it).mp hit with hit | rfl
    · rw [hother it (hne it hit)]
      refine (h.ancestors it hit q hpool).trans (relTotal_congr (fun a _ => ?_) ?_ fun a ha => ?_)
      · exact (hold a it hit).symm
      · exact (hweight q it hit).symm
      · exact (hweight q a (mem_nodes.mp ha)).symm
    have hflag := fun heq => ((hafterSound heq).2 _ hit).1
    rw [hself] at hflag ⊢
    have hsum :
      (ancestors.map (after.weight env q)) = ancestors.map fun a => (pool.entry a).quantity env q :=
      map_congr_left fun a ha => hweight q a (hancestorsMem a ha)
    rw [relTotal_eq_list hancestors.1 fun a => ?_, hnew, hsum, ← hfresh.ancestors q hentry]
    · exact PackageState.get_update hflag
    · rw [hfound, mem_nodes]
      exact (and_iff_right_of_imp fun hpath => hancestorsMem a ((hfound a).mpr hpath)).symm
  · intro it hit q hq hafterSound
    obtain ⟨hpool, hentry⟩ := hsound q hafterSound
    have hflip : ∀ it, flip (TransGen after.Linked) (env.txid entry.tx) it ↔ it ∈ ancestors :=
      fun it => (hfound it).symm
    rw [hnodes, relTotal_insert hnotin]
    rcases (hmem it).mp hit with hit | rfl
    · have hrest : relTotal pool.nodes (flip (TransGen after.Linked)) (after.weight env q) it =
          (pool.entry it).withDescendants.get q := by
        refine (relTotal_congr (fun a ha => ?_) ?_ fun a ha => ?_).trans
          (h.descendants it hit q hq hpool).symm
        · exact hold it a (mem_nodes.mp ha)
        · exact hweight q it hit
        · exact hweight q a (mem_nodes.mp ha)
      have hflag := fun heq => ((hafterSound heq).2 it ((hmem it).mpr (.inl hit))).2.1
      rw [hother it (hne it hit)] at hflag ⊢
      rw [hrest, hnew]
      unfold countChild at hflag ⊢
      by_cases hancestor : it ∈ ancestors
      · rw [if_pos hancestor] at hflag
        rw [if_pos hancestor, if_pos ((hflip it).mpr hancestor),
          PackageState.get_update hflag, if_neg hq, Int.one_mul]
      · rw [if_neg hancestor, if_neg fun hpath => hancestor ((hflip it).mp hpath), Int.add_zero]
    · have hnobody : ∀ a, a ∈ ([] : List Uint256) ↔
          a ∈ pool.nodes ∧ flip (TransGen after.Linked) a (env.txid entry.tx) := fun a =>
        ⟨fun ha => absurd ha not_mem_nil, fun ha => absurd ha.2 (hnone a)⟩
      rw [if_neg fun hpath => hnone _ ((hfound _).mp ((hflip _).mp hpath)), Int.add_zero,
        relTotal_eq_list nodup_nil hnobody, hnew, hself, map_nil, sum_nil,
        Int.add_zero]
      exact hfresh.descendants q hq hentry
  · intro it hit
    rcases (hmem it).mp hit with hit | rfl
    · rw [hother it (hne it hit)]
      unfold countChild
      dsimp only
      split
      · exact (Int.add_zero _).trans (h.sigOps it hit)
      · exact h.sigOps it hit
    · rw [hself]
      exact hfresh.sigOps

/-- No assertion fails in an addition. -/
theorem NoAssert.added (h : pool.NoAssert) (hfresh : entry.Fresh env)
    {counts : Uint256 → Uint256 → Prop} (hexact : after.Exact env counts)
    (hflags : after.Unsaturated) : after.NoAssert := by
  have hmem := (haddable.added hafter).mem_txids
  refine ⟨?_, fun it hit => ?_⟩
  · rw [hafter]
    exact h.1
  have hancestors := hexact.positive_ancestors hit
  have hdescendants := hexact.positive_descendants hit
  have hflag := hflags.2 it hit
  rcases (hmem it).mp hit with hit | rfl
  · rw [added_other hafter it (haddable.ne it hit)] at hdescendants hflag ⊢
    exact ⟨(h.2 it hit).1,
      PackageState.assertFailed_ite_update (h.2 it hit).2 hflag.2.1 hdescendants⟩
  · rw [added_self hafter] at hancestors hflag ⊢
    exact ⟨PackageState.assertFailed_update hfresh.noAssert.1 hflag.1 hancestors,
      hfresh.noAssert.2⟩

end Added

/-- Adding an entry leaves a mempool in order. -/
theorem Kept.addEntry (h : pool.Kept env (TransGen pool.Linked)) (hfresh : entry.Fresh env)
    (haddable : Addable env pool entry)
    (hknown : ∀ ancestors ∈ known, pool.AncestorsOf entry ancestors) :
    let after := CTxMemPool.addEntry env pool entry known
    after.Kept env (TransGen after.Linked) ∧ Added env pool entry after := by
  intro after
  obtain ⟨ancestors, hancestors, hafter⟩ := addEntry_eq h.links hfresh haddable hknown
  have hexact := h.exact.added hafter haddable h.links hfresh hancestors
  refine ⟨⟨h.links.added hafter haddable hfresh, h.books.added hafter haddable, hexact,
    fun hflags => ?_⟩, haddable.added hafter⟩
  have hbefore := (unsaturated_of_added hafter haddable hflags).1
  exact (h.noAssert hbefore).added hafter haddable hfresh hexact hflags

end Add

end CTxMemPool

end BtcSharp
