/-
# Exact totals

What it means for the totals that the entries cache to be exact for a relation between
entries: each is the sum over the entry and those that the relation counts for it. And
what a loop over entries does to each of them, when one round changes an entry without
looking at what earlier rounds have changed.
-/

import BtcSharp.Math.Totals
import BtcSharp.Mempool.Links

namespace BtcSharp

open List Math Relation

/-! ## Entries -/

namespace CTxMemPoolEntry

/-- The part of an entry that its totals are sums of, and that never changes but for the
modified fee. -/
def static (entry : CTxMemPoolEntry) : CTransaction × Int × Int × Nat × Int :=
  (entry.tx, entry.nFee, entry.nTime, entry.sigOpCost, entry.m_modified_fee)

section

variable {entry other : CTxMemPoolEntry} (h : entry.static = other.static)

include h

theorem tx_of_static : entry.tx = other.tx := congrArg Prod.fst h

theorem nFee_of_static : entry.nFee = other.nFee := congrArg (·.2.1) h

theorem sigOpCost_of_static : entry.sigOpCost = other.sigOpCost := congrArg (·.2.2.2.1) h

theorem modifiedFee_of_static : entry.m_modified_fee = other.m_modified_fee :=
  congrArg (·.2.2.2.2) h

theorem getTxSize_of_static (env : MempoolEnv) : entry.getTxSize env = other.getTxSize env := by
  unfold getTxSize
  rw [tx_of_static h, sigOpCost_of_static h]

theorem quantity_of_static (env : MempoolEnv) : entry.quantity env = other.quantity env := by
  funext q
  cases q with
  | count => rfl
  | size => exact congrArg Nat.cast (getTxSize_of_static h env)
  | fees => exact modifiedFee_of_static h
  | sigOps => exact congrArg Nat.cast (sigOpCost_of_static h)

end

variable (env : MempoolEnv)

/-- Another entry is counted so many times more among the ancestors. -/
def countAncestor (times : Int) (other entry : CTxMemPoolEntry) : CTxMemPoolEntry :=
  { entry with withAncestors :=
      entry.withAncestors.update fun q => times * other.quantity env q }

/-- Another entry is counted so many times more among the descendants. -/
def countDescendant (times : Int) (other entry : CTxMemPoolEntry) : CTxMemPoolEntry :=
  { entry with withDescendants := entry.withDescendants.update fun q =>
      if q = .sigOps then 0 else times * other.quantity env q }

theorem updateAncestorState_eq (times : Int) (other entry : CTxMemPoolEntry) :
    entry.updateAncestorState (times * other.getTxSize env) (times * other.m_modified_fee) times
      (times * other.sigOpCost) = countAncestor env times other entry := by
  unfold updateAncestorState countAncestor
  congr 2
  funext q
  cases q with
  | count => exact (Int.mul_one times).symm
  | size => rfl
  | fees => rfl
  | sigOps => rfl

theorem updateDescendantState_eq (times : Int) (other entry : CTxMemPoolEntry) :
    entry.updateDescendantState (times * other.getTxSize env) (times * other.m_modified_fee) times =
      countDescendant env times other entry := by
  unfold updateDescendantState countDescendant
  congr 2
  funext q
  cases q with
  | count => exact (Int.mul_one times).symm
  | size => rfl
  | fees => rfl
  | sigOps => rfl

end CTxMemPoolEntry

namespace CTxMemPool

/-! ## Loops over entries -/

section Loops

variable {pool : CTxMemPool}

theorem modifyAll_frame (its : List Uint256) (change : CTxMemPoolEntry → CTxMemPoolEntry) :
    pool.modifyAll its change = { pool with entry := (pool.modifyAll its change).entry } := by
  induction its generalizing pool with
  | nil => rfl
  | cons it its ih => exact ih

/-- Each entry of a set is changed once. -/
theorem modifyAll_entry {its : List Uint256} (hnodup : its.Nodup)
    (change : CTxMemPoolEntry → CTxMemPoolEntry) (it : Uint256) :
    (pool.modifyAll its change).entry it =
      if it ∈ its then change (pool.entry it) else pool.entry it := by
  induction its generalizing pool with
  | nil => rfl
  | cons head its ih =>
    obtain ⟨hnot, hnodup⟩ := nodup_cons.mp hnodup
    have hstep : (pool.modifyAll (head :: its) change).entry it =
        ((pool.modify head change).modifyAll its change).entry it := rfl
    rw [hstep, ih hnodup]
    by_cases heq : it = head
    · subst heq
      rw [if_neg hnot, if_pos mem_cons_self]
      exact Function.update_self _ _ _
    have hother : (pool.modify head change).entry it = pool.entry it :=
      Function.update_of_ne heq _ _
    rw [hother]
    simp [heq]

theorem modifyAll_eq {its : List Uint256} (hnodup : its.Nodup) (change : CTxMemPoolEntry →
    CTxMemPoolEntry) : pool.modifyAll its change = { pool with
      entry := fun it => if it ∈ its then change (pool.entry it) else pool.entry it } := by
  rw [modifyAll_frame]
  congr 1
  funext it
  exact modifyAll_entry hnodup change it

/-- What a round does to an entry decides what the loop does to it. -/
theorem foldl_entry {keeps : CTxMemPool → Prop} {round : CTxMemPool → Uint256 → CTxMemPool}
    {effect : Uint256 → Uint256 → CTxMemPoolEntry → CTxMemPoolEntry} {its : List Uint256}
    (hround : ∀ it ∈ its, ∀ pool, keeps pool → keeps (round pool it) ∧
      ∀ x, (round pool it).entry x = effect it x (pool.entry x)) :
    ∀ {pool : CTxMemPool}, keeps pool → keeps (its.foldl round pool) ∧
        ∀ x, (its.foldl round pool).entry x =
        its.foldl (fun entry it => effect it x entry) (pool.entry x) := by
  induction its with
  | nil => exact fun h => ⟨h, fun _ => rfl⟩
  | cons it its ih =>
    intro pool h
    obtain ⟨hkeeps, hentry⟩ := hround it mem_cons_self pool h
    obtain ⟨hrest, heffect⟩ := ih (fun other hother =>
      hround other (mem_cons_of_mem _ hother)) hkeeps
    refine ⟨hrest, fun x => ?_⟩
    rw [foldl_cons, foldl_cons, heffect x, hentry x]

end Loops

/-! ## Exactness -/

section Exact

variable (env : MempoolEnv)

/-- The entries as a finite set. -/
def nodes (pool : CTxMemPool) : Finset Uint256 := pool.txids.toFinset

/-- What an entry adds to a total. -/
def weight (pool : CTxMemPool) (q : Quantity) (it : Uint256) : Int := (pool.entry it).quantity env q

/-- No fee sum was clamped, and every number fitted its type. -/
def Unsaturated (pool : CTxMemPool) : Prop :=
  pool.saturated = false ∧ ∀ it ∈ pool.txids, (pool.entry it).Unsaturated

/-- No total of this quantity was clamped: only sums of fees ever are here. -/
def Sound (pool : CTxMemPool) (q : Quantity) : Prop := q = .fees → pool.Unsaturated

/-- The cached totals are exact, where the relation says which entries count as ancestors
of which. -/
structure Exact (pool : CTxMemPool) (counts : Uint256 → Uint256 → Prop) : Prop where
  ancestors : ∀ it ∈ pool.txids, ∀ q, pool.Sound q →
    (pool.entry it).withAncestors.get q = relTotal pool.nodes counts (pool.weight env q) it
  descendants : ∀ it ∈ pool.txids, ∀ q, q ≠ .sigOps → pool.Sound q →
    (pool.entry it).withDescendants.get q =
      relTotal pool.nodes (flip counts) (pool.weight env q) it
  sigOps : ∀ it ∈ pool.txids, (pool.entry it).withDescendants.sigOps = 0

/-- No assertion failed. -/
def NoAssert (pool : CTxMemPool) : Prop :=
  pool.assertFailed = false ∧ ∀ it ∈ pool.txids, (pool.entry it).NoAssert

/-- The maps and totals of the mempool itself are those of its entries. -/
structure Books (pool : CTxMemPool) : Prop where
  hash : ∀ it ∈ pool.txids, env.txid (pool.entry it).tx = it
  nextTx : ∀ prevout it, (prevout, it) ∈ pool.mapNextTx ↔
    it ∈ pool.txids ∧ ∃ txin ∈ (pool.entry it).tx.vin, txin.prevout = prevout
  nextTx_nodup : (pool.mapNextTx.map Prod.fst).Nodup
  totalTxSize : pool.totalTxSize = ∑ it ∈ pool.nodes, ((pool.entry it).getTxSize env : Int)
  totalFee : pool.m_total_fee = ∑ it ∈ pool.nodes, (pool.entry it).nFee

/-- A mempool whose graph, maps and totals are in order. -/
structure Kept (pool : CTxMemPool) (counts : Uint256 → Uint256 → Prop) : Prop where
  links : pool.Links
  books : pool.Books env
  exact : pool.Exact env counts
  noAssert : pool.Unsaturated → pool.NoAssert

variable {env} {pool : CTxMemPool} {counts : Uint256 → Uint256 → Prop}

theorem mem_nodes {it : Uint256} : it ∈ pool.nodes ↔ it ∈ pool.txids := mem_toFinset

theorem weight_congr {after : CTxMemPool}
    (h : ∀ it, (after.entry it).static = (pool.entry it).static) :
    after.weight env = pool.weight env :=
  funext fun q => funext fun it => congrFun (CTxMemPoolEntry.quantity_of_static (h it) env) q

theorem weight_nonneg {q : Quantity} (hq : q ≠ .fees) (it : Uint256) : 0 ≤ pool.weight env q it :=
  CTxMemPoolEntry.quantity_nonneg env _ hq

/-- A total over any relation is what the assertions ask for. -/
theorem relTotal_pos (nodes : Finset Uint256) (counts : Uint256 → Uint256 → Prop) (it : Uint256) :
    0 < relTotal nodes counts (pool.weight env .size) it ∧
    0 < relTotal nodes counts (pool.weight env .count) it ∧
    0 ≤ relTotal nodes counts (pool.weight env .sigOps) it := by
  have hle : ∀ q, q ≠ .fees → pool.weight env q it ≤ relTotal nodes counts (pool.weight env q) it :=
    fun q hq => le_relTotal fun a _ => weight_nonneg hq a
  refine ⟨?_, ?_, ?_⟩
  · have hsize : (0 : Int) < pool.weight env .size it :=
      Int.natCast_pos.mpr (CTxMemPoolEntry.getTxSize_pos env _)
    exact Int.lt_of_lt_of_le hsize (hle .size (by decide))
  · exact Int.lt_of_lt_of_le Int.one_pos (hle .count (by decide))
  · exact Int.le_trans (weight_nonneg (by decide) it) (hle .sigOps (by decide))

theorem sound_of_ne {q : Quantity} (hq : q ≠ .fees) : pool.Sound q := fun heq => absurd heq hq

theorem Exact.positive_ancestors (h : pool.Exact env counts) {it : Uint256}
    (hit : it ∈ pool.txids) : (pool.entry it).withAncestors.Positive := by
  have hpos := @relTotal_pos env pool pool.nodes counts it
  rw [← h.ancestors it hit .size (sound_of_ne (by decide)),
    ← h.ancestors it hit .count (sound_of_ne (by decide)),
    ← h.ancestors it hit .sigOps (sound_of_ne (by decide))] at hpos
  exact hpos

theorem Exact.positive_descendants (h : pool.Exact env counts) {it : Uint256}
    (hit : it ∈ pool.txids) : (pool.entry it).withDescendants.Positive := by
  obtain ⟨hsize, hcount, -⟩ := @relTotal_pos env pool pool.nodes (flip counts) it
  rw [← h.descendants it hit .size (by decide) (sound_of_ne (by decide))] at hsize
  rw [← h.descendants it hit .count (by decide) (sound_of_ne (by decide))] at hcount
  exact ⟨hsize, hcount, (h.sigOps it hit).ge⟩

end Exact

end CTxMemPool

end BtcSharp
