/-
# The graph of a mempool

The sets of parents and children that the entries keep form a graph. Where these sets
belong together and the graph has no cycle, the searches for ancestors and descendants
find exactly what paths of the graph lead to, whatever limits they were given.
-/

import BtcSharp.Mempool.TxMempool

namespace BtcSharp

open List Math Relation

/-- An input of the transaction spends an output of the transaction with this id. -/
def CTransaction.SpendsFrom (tx : CTransaction) (hash : Uint256) : Prop :=
  ∃ txin ∈ tx.vin, txin.prevout.hash = hash

instance (tx : CTransaction) (hash : Uint256) : Decidable (tx.SpendsFrom hash) :=
  inferInstanceAs (Decidable (∃ txin ∈ tx.vin, txin.prevout.hash = hash))

namespace CTxMemPool

/-- The entry `parent` is in the set of parents that the entry `child` keeps. -/
def Linked (pool : CTxMemPool) (parent child : Uint256) : Prop :=
  child ∈ pool.txids ∧ parent ∈ (pool.entry child).m_parents

/-- The parents and children that the entries keep belong together. -/
structure Links (pool : CTxMemPool) : Prop where
  nodup : pool.txids.Nodup
  parents_mem : ∀ child ∈ pool.txids, ∀ parent ∈ (pool.entry child).m_parents, parent ∈ pool.txids
  parents_nodup : ∀ child ∈ pool.txids, (pool.entry child).m_parents.Nodup
  children_nodup : ∀ parent ∈ pool.txids, (pool.entry parent).m_children.Nodup
  children_iff : ∀ parent ∈ pool.txids, ∀ child,
    child ∈ (pool.entry parent).m_children ↔ pool.Linked parent child
  acyclic : ∀ it, ¬ TransGen pool.Linked it it

/-! ## The search for ancestors -/

section Ancestors

variable {env : MempoolEnv} {pool : CTxMemPool} {fits : MemPoolLimits → Bool}
  {err : MemPoolLimits → LimitError} {ancestors parents : List Uint256} {entry_size : Int}
  {fuel : Nat}

theorem except_bind_ok {ε α β : Type} {first : Except ε α} {rest : α → Except ε β} {result : β}
    (h : (first >>= rest) = .ok result) : ∃ value, first = .ok value ∧ rest value = .ok result := by
  cases first with
  | error err => cases h
  | ok value => exact ⟨value, rfl, h⟩

variable {limits : Option MemPoolLimits} {entry_count : Nat}

theorem stageParents_none : ∀ {staged : List Uint256},
      stageParents none entry_count ancestors parents staged =
      .ok (stageNew ancestors staged parents) := by
  induction parents with
  | nil => exact rfl
  | cons parent parents ih => exact ih

theorem ancestorsLoopBy_none : ∀ {staged ancestors : List Uint256} {totalSize : Int},
      ancestorsLoopBy env id pool entry_size entry_count none fuel staged ancestors totalSize =
        .ok (search (fun it => (pool.entry it).m_parents) fuel staged ancestors) := by
  induction fuel with
  | zero => exact rfl
  | succ fuel ih =>
    intro staged ancestors totalSize
    cases staged with
    | nil => exact rfl
    | cons stageit staged =>
      simp only [ancestorsLoopBy, id, stageParents_none]
      exact ih

/-- The parents that are looked up are the transactions in the mempool that are spent. -/
theorem searchParents_ok {vin : List CTxIn} :
    ∀ {staged result : List Uint256},
      searchParents pool limits entry_count vin staged = .ok result →
      (staged.Nodup → result.Nodup) ∧ ∀ parent, parent ∈ result ↔ parent ∈ staged ∨
        parent ∈ pool.txids ∧ ∃ txin ∈ vin, txin.prevout.hash = parent := by
  induction vin with
  | nil =>
    intro staged result h
    cases h
    exact ⟨id, fun parent => by simp⟩
  | cons txin vin ih =>
    intro staged result h
    unfold searchParents at h
    by_cases hmem : txin.prevout.hash ∈ pool.txids
    · rw [if_pos hmem] at h
      obtain ⟨-, -, h⟩ := except_bind_ok h
      obtain ⟨hnodup, hiff⟩ := ih h
      refine ⟨fun hstaged => hnodup hstaged.insert, fun parent => ?_⟩
      have hfirst : parent ∈ pool.txids ∧ txin.prevout.hash = parent ↔ parent = txin.prevout.hash :=
        ⟨fun h => h.2.symm, fun h => ⟨h ▸ hmem, h.symm⟩⟩
      rw [hiff, mem_insert_iff, exists_mem_cons_iff, and_or_left, hfirst, or_assoc, or_left_comm]
    · rw [if_neg hmem] at h
      obtain ⟨hnodup, hiff⟩ := ih h
      refine ⟨hnodup, fun parent => ?_⟩
      have hfirst : ¬ (parent ∈ pool.txids ∧ txin.prevout.hash = parent) :=
        fun h => hmem (h.2 ▸ h.1)
      rw [hiff, exists_mem_cons_iff, and_or_left, or_iff_right hfirst]

theorem searchParents_none {vin : List CTxIn} :
    ∀ {staged : List Uint256}, ∃ result,
      searchParents pool none entry_count vin staged = .ok result := by
  induction vin with
  | nil => exact ⟨_, rfl⟩
  | cons txin vin ih =>
    intro staged
    unfold searchParents
    split <;> exact ih

end Ancestors

section Search

variable {env : MempoolEnv} {pool : CTxMemPool} {first last : Uint256} {its staged : List Uint256}

theorem searchInv_parents {next : Uint256 → List Uint256} (hnodup : staged.Nodup)
    (hstaged : ∀ it ∈ staged, it ∈ pool.txids) : SearchInv next pool.txids staged [] :=
  ⟨hnodup, nodup_nil, fun _ _ => not_mem_nil, hstaged,
    nofun, nofun⟩

/-- Without limits the search does not fail. -/
theorem assumeCalculateMemPoolAncestors_eq {entry : CTxMemPoolEntry} {fSearchForParents : Bool}
    (hstaged : stagedParents pool entry none fSearchForParents = .ok staged) :
    assumeCalculateMemPoolAncestors env pool entry fSearchForParents =
      search (fun it => (pool.entry it).m_parents) pool.txids.length staged [] := by
  have hfound : calculateMemPoolAncestors env pool entry none fSearchForParents =
      calculateAncestorsAndCheckLimits env pool (entry.getTxSize env) 1 staged none := by
    unfold calculateMemPoolAncestors
    rw [hstaged]
    rfl
  rw [assumeCalculateMemPoolAncestors, hfound, calculateAncestorsAndCheckLimits,
    ancestorsLoopBy_none]

/-- A set of entries that contains the children of its members. -/
def ClosedUnderChildren (pool : CTxMemPool) (its : List Uint256) : Prop :=
  ∀ it ∈ its, ∀ child, pool.Linked it child → child ∈ its

theorem ClosedUnderChildren.path_mem (h : pool.ClosedUnderChildren its) (hfirst : first ∈ its)
    (hpath : TransGen pool.Linked first last) : last ∈ its := by
  induction hpath with
  | single hstep => exact h first hfirst _ hstep
  | tail _ hstep ih => exact h _ ih _ hstep

variable (h : pool.Links)
include h

theorem Links.linked_mem {parent child : Uint256} (hlinked : pool.Linked parent child) :
    parent ∈ pool.txids ∧ child ∈ pool.txids :=
  ⟨h.parents_mem child hlinked.1 parent hlinked.2, hlinked.1⟩

theorem Links.path_mem (hpath : TransGen pool.Linked first last) :
    first ∈ pool.txids ∧ last ∈ pool.txids := by
  constructor
  · obtain ⟨next, hstep, -⟩ := TransGen.head'_iff.mp hpath
    exact (h.linked_mem hstep).1
  · obtain ⟨next, -, hstep⟩ := TransGen.tail'_iff.mp hpath
    exact (h.linked_mem hstep).2

theorem Links.reach_mem (hlast : last ∈ pool.txids)
    (hpath : ReflTransGen pool.Linked first last) : first ∈ pool.txids := by
  rcases reflTransGen_iff_eq_or_transGen.mp hpath with rfl | hpath
  · exact hlast
  · exact (h.path_mem hpath).1

section Order

variable {order : List Uint256 → List Uint256} (horder : ∀ its, (order its).Perm its)
include horder

theorem Links.order_mem :
    ∀ child ∈ pool.txids, ∀ parent ∈ order (pool.entry child).m_parents, parent ∈ pool.txids :=
  fun child hchild parent hparent => h.parents_mem child hchild parent
    ((horder _).mem_iff.mp hparent)

/-- Parents lead to ancestors, in whatever order they are taken. -/
theorem Links.order_reach {it start : Uint256} (hstart : start ∈ pool.txids) :
    ReflTransGen (fun child parent => parent ∈ order (pool.entry child).m_parents) start it ↔
      ReflTransGen pool.Linked it start := by
  refine (reflTransGen_next_iff (h.order_mem horder) (fun child hchild parent => ?_) hstart).trans
    reflTransGen_swap
  exact (horder _).mem_iff.trans (and_iff_right hchild).symm

end Order

/-- A search finds all ancestors. -/
theorem Links.search_parents (hnodup : staged.Nodup) (hstaged : ∀ it ∈ staged, it ∈ pool.txids) :
    (search (fun it => (pool.entry it).m_parents) pool.txids.length staged []).Nodup ∧
      ∀ it, it ∈ search (fun it => (pool.entry it).m_parents) pool.txids.length staged [] ↔
        ∃ parent ∈ staged, ReflTransGen pool.Linked it parent := by
  obtain ⟨hresult, hmem⟩ := search_spec h.parents_mem (searchInv_parents hnodup hstaged)
    (Nat.le_add_right pool.txids.length _)
  refine ⟨hresult, fun it => ?_⟩
  rw [hmem, or_iff_right not_mem_nil]
  exact exists_congr fun parent => and_congr_right fun hparent =>
    h.order_reach (fun list => .refl (id list)) (hstaged parent hparent)

/-- The same for the parents that are looked up for some inputs. -/
theorem Links.search_searched {vin : List CTxIn}
    (hstaged : searchParents pool none entry_count vin [] = .ok staged) :
    (search (fun it => (pool.entry it).m_parents) pool.txids.length staged []).Nodup ∧
      ∀ it, it ∈ search (fun it => (pool.entry it).m_parents) pool.txids.length staged [] ↔
        ∃ parent ∈ pool.txids, (∃ txin ∈ vin, txin.prevout.hash = parent) ∧
        ReflTransGen pool.Linked it parent := by
  obtain ⟨hnodup, hmem⟩ := searchParents_ok hstaged
  simp only [not_mem_nil, false_or] at hmem
  obtain ⟨hresult, hiff⟩ := h.search_parents (hnodup nodup_nil) (fun it hit => ((hmem it).mp hit).1)
  refine ⟨hresult, fun it => (hiff it).trans (exists_congr fun parent => ?_)⟩
  rw [hmem, and_assoc]

/-- The ancestors of an entry, through the parents that it keeps. -/
theorem Links.ancestors {it : Uint256} (hit : it ∈ pool.txids) :
    (assumeCalculateMemPoolAncestors env pool (pool.entry it) false).Nodup ∧
      ∀ other, other ∈ assumeCalculateMemPoolAncestors env pool (pool.entry it) false ↔
        TransGen pool.Linked other it := by
  obtain ⟨hnodup, hiff⟩ := h.search_parents (h.parents_nodup it hit) (h.parents_mem it hit)
  rw [@assumeCalculateMemPoolAncestors_eq env pool _ (pool.entry it) false rfl]
  refine ⟨hnodup, fun other => ?_⟩
  rw [hiff, TransGen.tail'_iff]
  constructor
  · rintro ⟨parent, hparent, hpath⟩
    exact ⟨parent, hpath, hit, hparent⟩
  · rintro ⟨parent, hpath, -, hparent⟩
    exact ⟨parent, hparent, hpath⟩

/-- The ancestors of an entry, through the transactions it spends. -/
theorem Links.searchedAncestors (entry : CTxMemPoolEntry) :
    (assumeCalculateMemPoolAncestors env pool entry true).Nodup ∧
      ∀ other, other ∈ assumeCalculateMemPoolAncestors env pool entry true ↔
        ∃ parent ∈ pool.txids, entry.tx.SpendsFrom parent ∧
        ReflTransGen pool.Linked other parent := by
  obtain ⟨_, hstaged⟩ := @searchParents_none pool 1 entry.tx.vin []
  rw [@assumeCalculateMemPoolAncestors_eq env pool _ entry true hstaged]
  exact h.search_searched hstaged

/-! ## The search for descendants -/

theorem Links.children_mem :
    ∀ it ∈ pool.txids, ∀ child ∈ (pool.entry it).m_children, child ∈ pool.txids :=
  fun it hit child hchild => ((h.children_iff it hit child).mp hchild).1

/-- Adding the descendants of an entry to a set that contains the children of its
members. -/
theorem Links.calculateDescendants {it : Uint256} (hit : it ∈ pool.txids)
    (hnodup : its.Nodup) (hits : ∀ other ∈ its, other ∈ pool.txids)
    (hclosed : pool.ClosedUnderChildren its) :
    (pool.calculateDescendants it its).Nodup ∧
      pool.ClosedUnderChildren (pool.calculateDescendants it its) ∧
      ∀ other, other ∈ pool.calculateDescendants it its ↔ other ∈ its ∨
      ReflTransGen pool.Linked it other := by
  suffices hspec : (pool.calculateDescendants it its).Nodup ∧
      ∀ other, other ∈ pool.calculateDescendants it its ↔ other ∈ its ∨
      ReflTransGen pool.Linked it other by
    refine ⟨hspec.1, fun other hother child hlinked => ?_, hspec.2⟩
    rw [hspec.2] at hother ⊢
    exact hother.imp (fun hold => hclosed other hold child hlinked) fun hpath => hpath.tail hlinked
  unfold CTxMemPool.calculateDescendants
  by_cases hmem : it ∈ its
  · rw [if_pos hmem, search_nil]
    refine ⟨hnodup, fun other => (or_iff_left_of_imp fun hpath => ?_).symm⟩
    rcases reflTransGen_iff_eq_or_transGen.mp hpath with rfl | hpath
    · exact hmem
    · exact hclosed.path_mem hmem hpath
  have hinv : SearchInv (fun it => (pool.entry it).m_children) pool.txids [it] its :=
    ⟨nodup_singleton it, hnodup, fun _ h => mem_singleton.mp h ▸ hmem,
      fun _ h => mem_singleton.mp h ▸ hit, hits, fun other hother child hchild =>
        .inl (hclosed other hother child
          ((h.children_iff other (hits other hother) child).mp hchild))⟩
  obtain ⟨hresult, hiff⟩ := search_spec h.children_mem hinv (Nat.le_add_right pool.txids.length _)
  rw [if_neg hmem]
  refine ⟨hresult, fun other => ?_⟩
  rw [hiff]
  simp only [mem_singleton, exists_eq_left]
  exact or_congr_right (reflTransGen_next_iff h.children_mem h.children_iff hit)

/-- The descendants of several entries with these entries. The set grows by the descendants of one
entry after the other. -/
theorem Links.calculateAllDescendants (hits : ∀ it ∈ its, it ∈ pool.txids) :
    (pool.calculateAllDescendants its).Nodup ∧
      pool.ClosedUnderChildren (pool.calculateAllDescendants its) ∧
      ∀ other, other ∈ pool.calculateAllDescendants its ↔
      ∃ it ∈ its, ReflTransGen pool.Linked it other := by
  suffices hfold : ∀ {set : List Uint256}, set.Nodup → (∀ other ∈ set, other ∈ pool.txids) →
      pool.ClosedUnderChildren set →
      let result := its.foldl (fun set it => pool.calculateDescendants it set) set
      result.Nodup ∧ pool.ClosedUnderChildren result ∧ ∀ other, other ∈ result ↔
        other ∈ set ∨ ∃ it ∈ its, ReflTransGen pool.Linked it other by
    have hall := @hfold [] nodup_nil nofun
      nofun
    simp only [not_mem_nil, false_or] at hall
    exact hall
  induction its with
  | nil =>
    intro set hnodup _ hclosed
    exact ⟨hnodup, hclosed, fun other => by simp⟩
  | cons it its ih =>
    intro set hnodup hset hclosed
    have hit := hits it mem_cons_self
    obtain ⟨hnodup', hclosed', hiff'⟩ := h.calculateDescendants hit hnodup hset hclosed
    have hset' : ∀ other ∈ pool.calculateDescendants it set, other ∈ pool.txids := by
      intro other hother
      rcases (hiff' other).mp hother with hold | hpath
      · exact hset other hold
      rcases reflTransGen_iff_eq_or_transGen.mp hpath with rfl | hpath
      · exact hit
      · exact (h.path_mem hpath).2
    obtain ⟨hresult, hclosedResult, hiff⟩ := ih (fun other hother =>
      hits other (mem_cons_of_mem _ hother)) hnodup' hset' hclosed'
    refine ⟨hresult, hclosedResult, fun other => (hiff other).trans ?_⟩
    rw [hiff' other, or_assoc]
    simp

end Search

end CTxMemPool

end BtcSharp
