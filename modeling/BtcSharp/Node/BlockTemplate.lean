/-
# Block templates are assembled validly

The loop of `addPackageTxs` keeps that what was chosen is closed under ancestors and in order,
that the block has the totals of what was chosen, and that every candidate is evaluated with at
least what is left of its package: an entry of the index with its full totals, and an entry of
`mapModifiedTx` with totals that were made smaller by ancestors in the block only, by each of
them once at most. An entry that failed and comes back starts from its full totals.
-/

import BtcSharp.Mempool.Consistency
import BtcSharp.Node.Miner

namespace BtcSharp

open CTxMemPool List Math Relation

/-- The total that a modified entry keeps of a quantity. -/
def CTxMemPoolModifiedEntry.get (e : CTxMemPoolModifiedEntry) : Quantity → Int
  | .count => 0
  | .size => e.nSizeWithAncestors
  | .fees => e.nModFeesWithAncestors
  | .sigOps => e.nSigOpCostWithAncestors

namespace BlockAssembler

variable {env : MinerEnv} {pool : CTxMemPool} {chosen package : List Uint256} {it desc : Uint256}
  {q : Quantity}

/-- What the block is limited in. -/
def Limited (q : Quantity) : Prop := q = .size ∨ q = .sigOps

theorem Limited.ne_fees (hq : Limited q) : q ≠ .fees := by
  rcases hq with rfl | rfl <;> decide

theorem new_get (hq : Limited q) : (CTxMemPoolModifiedEntry.new pool it).get q =
    (pool.entry it).withAncestors.get q := by
  rcases hq with rfl | rfl <;> rfl

theorem updateForParentInclusion_get (hq : Limited q) (e : CTxMemPoolModifiedEntry) :
    (e.updateForParentInclusion env.mempool (pool.entry it)).get q =
      e.get q - pool.weight env.mempool q it := by
  rcases hq with rfl | rfl <;> rfl

variable {a b : Uint256} {block : BlockAssembler} {s : PackageSelection}
    {options : BlockAssemblerOptions}

/-! ## What is left of a package -/

/-- The total over an entry and those of its ancestors that are not in the block. -/
noncomputable def remaining (env : MinerEnv) (pool : CTxMemPool) (chosen : List Uint256)
    (q : Quantity) (it : Uint256) : Int :=
  relTotal (pool.nodes \ chosen.toFinset) (TransGen pool.Spends) (pool.weight env.mempool q) it

theorem withAncestors_eq (horder : InOrder env.mempool [] pool) (hit : it ∈ pool.txids)
    (hq : q ≠ .fees) : (pool.entry it).withAncestors.get q =
      relTotal pool.nodes (TransGen pool.Spends) (pool.weight env.mempool q) it := by
  rw [horder.kept.exact.ancestors it hit q (sound_of_ne hq), horder.linked_eq]

theorem remaining_congr {other : List Uint256} (h : ∀ a, a ∈ chosen ↔ a ∈ other) :
    remaining env pool chosen = remaining env pool other := by
  have heq : chosen.toFinset = other.toFinset := by
    ext a
    rw [mem_toFinset, mem_toFinset, h]
  unfold remaining
  rw [heq]

theorem remaining_le (horder : InOrder env.mempool [] pool) (hit : it ∈ pool.txids)
    (hq : q ≠ .fees) : remaining env pool chosen q it ≤ (pool.entry it).withAncestors.get q := by
  rw [withAncestors_eq horder hit hq]
  exact relTotal_mono_le (fun a ha hpath => ⟨(Finset.mem_sdiff.mp ha).1, hpath⟩) rfl
    (fun _ _ _ => rfl) (weight_nonneg hq) (weight_nonneg hq)

open Classical in
/-- An entry goes into the block. -/
theorem remaining_cons (hit : it ∈ pool.txids) (hnot : it ∉ chosen) (x : Uint256) :
    remaining env pool (it :: chosen) q x = remaining env pool chosen q x -
      if TransGen pool.Spends it x then pool.weight env.mempool q it else 0 := by
  have hnodes : pool.nodes \ (it :: chosen).toFinset = (pool.nodes \ chosen.toFinset) \ {it} := by
    rw [toFinset_cons, Finset.insert_eq, Finset.union_comm, Finset.sdiff_union_distrib,
      Finset.sdiff_sdiff_left']
  have hsub := Finset.singleton_subset_iff.mpr (Finset.mem_sdiff.mpr
      ⟨mem_nodes.mpr hit, fun hmem => hnot (mem_toFinset.mp hmem)⟩)
  unfold remaining
  rw [hnodes, relTotal_sdiff _ hsub, Finset.sum_filter, Finset.sum_singleton]

/-! ## The shadow index -/

/-- Every entry of `mapModifiedTx` is there once, with at least what a bound says. -/
structure Covers (bound : Quantity → Uint256 → Int) (mapModifiedTx : List CTxMemPoolModifiedEntry) :
    Prop where
  nodup : (mapModifiedTx.map (·.iter)).Nodup
  le : ∀ e ∈ mapModifiedTx, ∀ q, Limited q → bound q e.iter ≤ e.get q

section Shadow

variable {bound : Quantity → Uint256 → Int} {mapModifiedTx : List CTxMemPoolModifiedEntry}

theorem Covers.filter (h : Covers bound mapModifiedTx) (keep : CTxMemPoolModifiedEntry → Bool) :
    Covers bound (mapModifiedTx.filter keep) :=
  ⟨h.nodup.sublist (filter_sublist.map _), fun e he => h.le e (mem_of_mem_filter he)⟩

theorem updateModified_keys : (updateModified env pool it mapModifiedTx desc).map (·.iter) =
    if desc ∈ mapModifiedTx.map (·.iter) then mapModifiedTx.map (·.iter)
    else mapModifiedTx.map (·.iter) ++ [desc] := by
  unfold updateModified
  rw [List.map_map]
  have hiter : ((·.iter) ∘ fun e : CTxMemPoolModifiedEntry =>
      if e.iter = desc then e.updateForParentInclusion env.mempool (pool.entry it) else e) =
      (·.iter) := by
    funext e
    show (if _ then _ else _ : CTxMemPoolModifiedEntry).iter = e.iter
    split <;> rfl
  rw [hiter]
  split
  · rfl
  · rw [map_append]
    rfl

variable {x : Uint256}

theorem mem_updateModified_keys : x ∈ (updateModified env pool it mapModifiedTx desc).map (·.iter) ↔
      x ∈ mapModifiedTx.map (·.iter) ∨ x = desc := by
  rw [updateModified_keys]
  split
  case isTrue hmem => exact ⟨.inl, fun h => h.elim id fun heq => heq ▸ hmem⟩
  case isFalse => rw [mem_append, mem_singleton]

variable (env it) in
/-- A descendant loses an ancestor. An entry that is made for it starts from its full totals. -/
theorem Covers.updateModified (h : Covers bound mapModifiedTx)
    (hfull : ∀ q, Limited q → bound q desc ≤ (pool.entry desc).withAncestors.get q) :
    Covers (fun q x => if x = desc then bound q x - pool.weight env.mempool q it else bound q x)
      (updateModified env pool it mapModifiedTx desc) := by
  constructor
  · rw [updateModified_keys]
    split
    case isTrue => exact h.nodup
    case isFalse hnew =>
      exact nodup_append.mpr ⟨h.nodup, nodup_singleton _,
        fun x hx y hy => mem_singleton.mp hy ▸ ne_of_mem_of_not_mem hx hnew⟩
  intro e he q hq
  obtain ⟨old, hold, rfl⟩ := mem_map.mp he
  have hbound : bound q old.iter ≤ old.get q := by
    split at hold
    case isTrue => exact h.le old hold q hq
    case isFalse =>
      cases mem_append.mp hold with
      | inl hthere => exact h.le old hthere q hq
      | inr hnew =>
        rw [mem_singleton.mp hnew, new_get hq]
        exact hfull q hq
  by_cases heq : old.iter = desc
  · rw [if_pos heq, updateForParentInclusion_get hq]
    show (if old.iter = desc then _ else _) ≤ _
    rw [if_pos heq]
    exact Int.sub_le_sub_right hbound _
  rw [if_neg heq]
  rw [if_neg heq]
  exact hbound

theorem mem_foldl_updateModified_keys (descs : List Uint256) :
    x ∈ (descs.foldl (updateModified env pool it) mapModifiedTx).map (·.iter) ↔
      x ∈ mapModifiedTx.map (·.iter) ∨ x ∈ descs := by
  induction descs generalizing mapModifiedTx with
  | nil => exact ⟨.inl, fun h => h.resolve_right not_mem_nil⟩
  | cons desc descs ih =>
    rw [foldl_cons, ih, mem_updateModified_keys, mem_cons, or_assoc]

variable (env it) in
/-- All descendants of an entry lose it, each of them once. -/
theorem Covers.foldl_updateModified {descs : List Uint256} (h : Covers bound mapModifiedTx)
    (hnodup : descs.Nodup)
    (hfull : ∀ desc ∈ descs, ∀ q, Limited q →
      bound q desc ≤ (pool.entry desc).withAncestors.get q) :
    Covers (fun q x => if x ∈ descs then bound q x - pool.weight env.mempool q it else bound q x)
      (descs.foldl (BlockAssembler.updateModified env pool it) mapModifiedTx) := by
  induction descs generalizing bound mapModifiedTx with
  | nil => simpa using h
  | cons desc descs ih =>
    obtain ⟨hnot, hnodup⟩ := nodup_cons.mp hnodup
    have hne : ∀ x ∈ descs, x ≠ desc := fun x hx => ne_of_mem_of_not_mem hx hnot
    have hstep := ih (h.updateModified env it (hfull desc mem_cons_self)) hnodup (by
      intro x hx q hq
      rw [if_neg (hne x hx)]
      exact hfull x (mem_cons_of_mem _ hx) q hq)
    refine ⟨hstep.nodup, fun e he q hq => ?_⟩
    have hle := hstep.le e he q hq
    by_cases heq : e.iter = desc
    · simpa [heq, hnot] using hle
    · simpa [heq] using hle

variable {added : List Uint256} (horder : InOrder env.mempool [] pool)
include horder

theorem mem_descendants_outside (hit : it ∈ pool.txids) (hadded : it ∈ added) :
    x ∈ (pool.calculateDescendants it []).filter (· ∉ added) ↔ TransGen pool.Spends it x ∧
    x ∉ added := by
  rw [mem_filter, (horder.kept.links.nodup_descendants hit).2, horder.linked_eq,
    decide_eq_true_iff]
  constructor
  · intro h
    refine ⟨(reflTransGen_iff_eq_or_transGen.mp h.1).resolve_left fun heq => ?_, h.2⟩
    exact h.2 (heq ▸ hadded)
  · exact fun h => ⟨h.1.to_reflTransGen, h.2⟩

/-- An entry of a package is in the block, and its descendants outside of the package lose it. -/
theorem Covers.addDescendants (h : Covers (remaining env pool chosen) mapModifiedTx)
    (hit : it ∈ pool.txids) (hadded : it ∈ added) (hnot : it ∉ chosen) :
    Covers (remaining env pool (it :: chosen))
        (((pool.calculateDescendants it []).filter (· ∉ added)).foldl
        (BlockAssembler.updateModified env pool it) mapModifiedTx) := by
  have hnodup := (horder.kept.links.nodup_descendants hit).1.filter fun x => decide (x ∉ added)
  have hcovers := h.foldl_updateModified env it hnodup (by
    intro desc hdesc q hq
    obtain ⟨hpath, -⟩ := (mem_descendants_outside horder hit hadded).mp hdesc
    exact remaining_le horder (path_mem_of_spends hpath).2 hq.ne_fees)
  refine ⟨hcovers.nodup, fun e he q hq => Int.le_trans ?_ (hcovers.le e he q hq)⟩
  rw [remaining_cons hit hnot]
  have hnonneg := @weight_nonneg env.mempool pool q hq.ne_fees it
  by_cases hpath : TransGen pool.Spends it e.iter
  · rw [if_pos hpath]
    split
    · exact Int.le_refl _
    · exact Int.sub_le_self _ hnonneg
  · rw [if_neg hpath, Int.sub_zero,
      if_neg fun hmem => hpath ((mem_descendants_outside horder hit hadded).mp hmem).1]

theorem mem_updatePackagesForAdded_keys (hmem : ∀ a ∈ added, a ∈ pool.txids) :
    x ∈ (updatePackagesForAdded env pool added mapModifiedTx).map (·.iter) ↔
      x ∈ mapModifiedTx.map (·.iter) ∨ ∃ a ∈ added, TransGen pool.Spends a x ∧ x ∉ added := by
  have hgo : ∀ todo : List Uint256, (∀ a ∈ todo, a ∈ added) → ∀ mapModifiedTx,
      x ∈ (todo.foldl (fun mapModifiedTx it =>
        ((pool.calculateDescendants it []).filter (· ∉ added)).foldl (updateModified env pool it)
          mapModifiedTx) mapModifiedTx).map (·.iter) ↔
        x ∈ mapModifiedTx.map (·.iter) ∨ ∃ a ∈ todo, TransGen pool.Spends a x ∧ x ∉ added := by
    intro todo
    induction todo with
    | nil => simp
    | cons it todo ih =>
      intro htodo mapModifiedTx
      have hit := htodo it mem_cons_self
      rw [foldl_cons, ih fun a ha => htodo a (mem_cons_of_mem _ ha),
        mem_foldl_updateModified_keys, mem_descendants_outside horder (hmem it hit) hit, or_assoc,
        exists_mem_cons_iff]
  exact hgo added (fun _ h => h) mapModifiedTx

/-- A package is in the block. -/
theorem Covers.updatePackagesForAdded (h : Covers (remaining env pool chosen) mapModifiedTx)
    (hmem : ∀ a ∈ added, a ∈ pool.txids) (hnodup : added.Nodup) (hnot : ∀ a ∈ added, a ∉ chosen) :
    Covers (remaining env pool (chosen ++ added))
      (updatePackagesForAdded env pool added mapModifiedTx) := by
  have hgo : ∀ done : List Uint256, done.Nodup → (∀ a ∈ done, a ∈ added) →
      Covers (remaining env pool (chosen ++ done)) (done.foldl (fun mapModifiedTx it =>
        ((pool.calculateDescendants it []).filter (· ∉ added)).foldl
          (BlockAssembler.updateModified env pool it) mapModifiedTx) mapModifiedTx) := by
    intro done
    induction done using reverseRecOn with
    | nil => exact fun _ _ => (append_nil chosen).symm ▸ h
    | append_singleton done it ih =>
      intro hnodup hdone
      obtain ⟨hnodup, -, hlast⟩ := nodup_append.mp hnodup
      have hit := hdone it mem_concat_self
      have hnew : it ∉ chosen ++ done := by
        rw [mem_append]
        exact fun hin => hin.elim (hnot it hit) fun hold => hlast it hold it mem_cons_self rfl
      have hstep := (ih hnodup fun a ha => hdone a (mem_append_left _ ha)).addDescendants horder
        (hmem it hit) hit hnew
      rw [foldl_append, ← append_assoc,
        remaining_congr fun a => (perm_append_singleton it _).mem_iff]
      exact hstep
  exact hgo added hnodup fun _ h => h

end Shadow

/-! ## The block -/

theorem hashOf_eq (horder : InOrder env.mempool [] pool) (hit : it ∈ pool.txids) :
    hashOf env pool it = it := horder.kept.books.hash it hit

/-- The template has exactly what was chosen, and its totals. -/
structure Assembled (env : MinerEnv) (pool : CTxMemPool) (chosen : List Uint256)
    (block : BlockAssembler) : Prop where
  vtx : block.vtx = chosen.map fun it => (pool.entry it).tx
  vTxFees : block.vTxFees = chosen.map fun it => (pool.entry it).nFee
  vTxSigOpsCost : block.vTxSigOpsCost = chosen.map fun it => (pool.entry it).sigOpCost
  nBlockTx : block.nBlockTx = chosen.length
  nBlockWeight : block.nBlockWeight = env.options.block_reserved_weight +
    (chosen.map fun it => getTransactionWeight (pool.entry it).tx).sum
  nBlockSigOpsCost : block.nBlockSigOpsCost = env.options.coinbase_output_max_additional_sigops +
    (chosen.map fun it => (pool.entry it).sigOpCost).sum
  nFees : block.nFees = (chosen.map fun it => (pool.entry it).nFee).sum
  inBlock : ∀ it, it ∈ block.inBlock ↔ it ∈ chosen

section

variable (h : Assembled env pool chosen block) (horder : InOrder env.mempool [] pool)

include h horder

theorem Assembled.addToBlock (hit : it ∈ pool.txids) :
    Assembled env pool (chosen ++ [it]) (addToBlock env pool block it) where
  vtx := by rw [map_append, ← h.vtx]; rfl
  vTxFees := by rw [map_append, ← h.vTxFees]; rfl
  vTxSigOpsCost := by rw [map_append, ← h.vTxSigOpsCost]; rfl
  nBlockTx := by rw [length_append, ← h.nBlockTx]; rfl
  nBlockWeight := by
    rw [map_append, sum_append, ← Nat.add_assoc, ← h.nBlockWeight]
    rfl
  nBlockSigOpsCost := by
    rw [map_append, sum_append, ← Nat.add_assoc, ← h.nBlockSigOpsCost]
    rfl
  nFees := by
    rw [map_append, sum_append, ← h.nFees, map_singleton, sum_singleton]
    rfl
  inBlock := by
    intro other
    show other ∈ block.inBlock.insert (hashOf env pool it) ↔ _
    rw [mem_insert_iff, h.inBlock, hashOf_eq horder hit, mem_append, mem_singleton, or_comm]

theorem Assembled.foldl_addToBlock (hmem : ∀ it ∈ package, it ∈ pool.txids) :
    Assembled env pool (chosen ++ package)
      (package.foldl (BlockAssembler.addToBlock env pool) block) := by
  induction package generalizing chosen block with
  | nil => exact (append_nil chosen).symm ▸ h
  | cons it package ih =>
    have hstep := ih (h.addToBlock horder (hmem it mem_cons_self)) fun a ha => hmem a
      (mem_cons_of_mem _ ha)
    rwa [append_assoc] at hstep

end

/-! ## What is chosen -/

/-- Distinct entries that are final, each of them after its ancestors. -/
structure Selected (env : MinerEnv) (pool : CTxMemPool) (chosen : List Uint256) : Prop where
  nodup : chosen.Nodup
  mem : ∀ it ∈ chosen, it ∈ pool.txids
  closed : ∀ it ∈ chosen, ∀ a, TransGen pool.Spends a it → a ∈ chosen
  order : chosen.Pairwise fun first second => ¬ TransGen pool.Spends second first
  final : ∀ it ∈ chosen, isFinalTx (pool.entry it).tx env.nHeight env.m_lock_time_cutoff = true

theorem selected_nil : Selected env pool [] where
  nodup := nodup_nil
  mem := nofun
  closed := nofun
  order := .nil
  final := nofun

/-- New entries that can be chosen together. -/
structure Package (pool : CTxMemPool) (chosen package : List Uint256) : Prop where
  nodup : package.Nodup
  mem : ∀ it ∈ package, it ∈ pool.txids
  new : ∀ it ∈ package, it ∉ chosen
  closed : ∀ it ∈ package, ∀ a, TransGen pool.Spends a it → a ∈ chosen ∨ a ∈ package

theorem Package.perm {sorted : List Uint256} (h : Package pool chosen package)
    (hperm : sorted.Perm package) : Package pool chosen sorted where
  nodup := hperm.nodup_iff.mpr h.nodup
  mem := fun it hit => h.mem it (hperm.mem_iff.mp hit)
  new := fun it hit => h.new it (hperm.mem_iff.mp hit)
  closed := fun it hit a hpath =>
    (h.closed it (hperm.mem_iff.mp hit) a hpath).imp_right hperm.mem_iff.mpr

/-- An ancestor has fewer ancestors. -/
theorem count_lt (horder : InOrder env.mempool [] pool) (hpath : TransGen pool.Spends a b) :
    (pool.entry a).withAncestors.count < (pool.entry b).withAncestors.count := by
  classical
  obtain ⟨ha, hb⟩ := path_mem_of_spends hpath
  have hacyclic : ¬ TransGen pool.Spends a a := horder.linked_eq ▸ horder.kept.links.acyclic a
  have hle := relTotal_le_sum (Finset.mem_filter.mpr ⟨mem_nodes.mpr ha, hpath⟩) hacyclic
    (fun x hx hxa => Finset.mem_filter.mpr ⟨hx, hxa.trans hpath⟩)
    (@weight_nonneg env.mempool pool .count (by decide))
  have hcount : ∀ it ∈ pool.txids, (pool.entry it).withAncestors.count =
      relTotal pool.nodes (TransGen pool.Spends) (pool.weight env.mempool .count) it :=
    fun it hit => @withAncestors_eq env pool it .count horder hit (by decide)
  rw [hcount a ha, hcount b hb]
  exact Int.lt_of_le_of_lt hle (Int.lt_add_of_pos_left _ Int.one_pos)

theorem notAfter_total (a b : Uint256) : notAfter env pool a b ∨ notAfter env pool b a := by
  have hbytes := le_total (Uint256.bytes (hashOf env pool a)) (Uint256.bytes (hashOf env pool b))
  rcases lt_trichotomy (pool.entry a).withAncestors.count (pool.entry b).withAncestors.count with
    hlt | heq | hgt
  · exact .inl (.inl hlt)
  · exact hbytes.imp (fun h => .inr ⟨heq, h⟩) fun h => .inr ⟨heq.symm, h⟩
  · exact .inr (.inl hgt)

theorem notAfter_trans {c : Uint256} (hab : notAfter env pool a b) (hbc : notAfter env pool b c) :
    notAfter env pool a c := by
  rcases hab with hab | ⟨hab, hle⟩
  · exact .inl (hbc.elim (Int.lt_trans hab) fun h => h.1 ▸ hab)
  · exact hbc.imp (fun h => hab ▸ h) fun h => ⟨hab.trans h.1, hle.trans h.2⟩

theorem sortForBlock_pairwise (package : List Uint256) :
    (sortForBlock env pool package).Pairwise (notAfter env pool) :=
  haveI : Std.Total (notAfter env pool) := ⟨notAfter_total⟩
  haveI : IsTrans Uint256 (notAfter env pool) := ⟨fun _ _ _ => notAfter_trans⟩
  pairwise_insertionSort _ package

/-- A package in its order comes after what was chosen. -/
theorem Selected.append (h : Selected env pool chosen) (horder : InOrder env.mempool [] pool)
    (hpackage : Package pool chosen package) (hsorted : package.Pairwise (notAfter env pool))
    (hfinal : testPackageTransactions env pool package = true) :
    Selected env pool (chosen ++ package) where
  nodup := nodup_append.mpr ⟨h.nodup, hpackage.nodup,
    fun a ha b hb => (ne_of_mem_of_not_mem ha (hpackage.new b hb))⟩
  mem := fun it hit => (mem_append.mp hit).elim (h.mem it) (hpackage.mem it)
  final := fun it hit => (mem_append.mp hit).elim (h.final it) (all_eq_true.mp hfinal it)
  closed := fun it hit a hpath => mem_append.mpr <| (mem_append.mp hit).elim
    (fun hold => .inl (h.closed it hold a hpath)) fun hnew => hpackage.closed it hnew a hpath
  order := by
    refine pairwise_append.mpr ⟨h.order, hsorted.imp fun hle hpath => ?_, ?_⟩
    · have hless := count_lt horder hpath
      rcases hle with hgt | ⟨heq, -⟩
      · exact absurd hless (Int.not_lt.mpr (Int.le_of_lt hgt))
      · exact absurd hless (heq ▸ Int.lt_irrefl _)
    · exact fun first hfirst second hsecond hpath =>
        hpackage.new second hsecond (h.closed first hfirst second hpath)

/-- An entry with those of its ancestors that are not in the block. -/
def packageOf (env : MinerEnv) (pool : CTxMemPool) (block : BlockAssembler) (it : Uint256) :
    List Uint256 :=
  (onlyUnconfirmed env pool block
    (pool.assumeCalculateMemPoolAncestors env.mempool (pool.entry it) false)).insert it

section PackageOf

variable (horder : InOrder env.mempool [] pool) (hassembled : Assembled env pool chosen block)

include horder hassembled

section

variable (hit : it ∈ pool.txids)

include hit

theorem mem_onlyUnconfirmed : a ∈ onlyUnconfirmed env pool block
      (pool.assumeCalculateMemPoolAncestors env.mempool (pool.entry it) false) ↔
      TransGen pool.Spends a it ∧ a ∉ chosen := by
  rw [onlyUnconfirmed, mem_filter, (horder.kept.links.ancestors hit).2, horder.linked_eq,
    decide_eq_true_iff]
  refine and_congr_right fun hpath => ?_
  rw [hashOf_eq horder (path_mem_of_spends hpath).1, hassembled.inBlock]

theorem packageOf_eq :
    packageOf env pool block it = it :: onlyUnconfirmed env pool block
      (pool.assumeCalculateMemPoolAncestors env.mempool (pool.entry it) false) := by
  apply insert_of_not_mem
  rw [mem_onlyUnconfirmed horder hassembled hit]
  exact fun h => (horder.linked_eq ▸ horder.kept.links.acyclic it) h.1

theorem packageOf_package (hnot : it ∉ chosen) :
    Package pool chosen (packageOf env pool block it) := by
  have hmem : ∀ a, a ∈ packageOf env pool block it ↔ a = it ∨ TransGen pool.Spends a it ∧
      a ∉ chosen := by
    intro a
    rw [packageOf, mem_insert_iff, mem_onlyUnconfirmed horder hassembled hit]
  constructor
  · exact ((horder.kept.links.ancestors hit).1.filter _).insert
  · intro a ha
    rcases (hmem a).mp ha with rfl | ⟨hpath, -⟩
    · exact hit
    · exact (path_mem_of_spends hpath).1
  · intro a ha
    rcases (hmem a).mp ha with rfl | ⟨-, hnew⟩
    · exact hnot
    · exact hnew
  · intro a ha b hpath
    by_cases hold : b ∈ chosen
    · exact .inl hold
    rcases (hmem a).mp ha with rfl | ⟨hrest, -⟩
    · exact .inr ((hmem b).mpr (.inr ⟨hpath, hold⟩))
    · exact .inr ((hmem b).mpr (.inr ⟨hpath.trans hrest, hold⟩))

/-- The package adds up to what is left. -/
theorem packageOf_sum (q : Quantity) :
    ((packageOf env pool block it).map (pool.weight env.mempool q)).sum = remaining env pool
      chosen q it := by
  rw [packageOf_eq horder hassembled hit]
  refine (relTotal_eq_list ((horder.kept.links.ancestors hit).1.filter _) fun a => ?_).symm
  rw [← onlyUnconfirmed, mem_onlyUnconfirmed horder hassembled hit, Finset.mem_sdiff,
    mem_nodes, mem_toFinset]
  exact ⟨fun h => ⟨⟨(path_mem_of_spends h.1).1, h.2⟩, h.1⟩, fun h => ⟨h.2, h.1.2⟩⟩

end

end PackageOf

/-- The block is below its limits. -/
def WithinLimits (env : MinerEnv) (block : BlockAssembler) : Prop :=
  block.nBlockWeight < env.options.nBlockMaxWeight ∧ block.nBlockSigOpsCost < MAX_BLOCK_SIGOPS_COST

theorem weight_le_size (it : Uint256) :
    getTransactionWeight (pool.entry it).tx ≤ WITNESS_SCALE_FACTOR * pool.weight env.mempool
      .size it := by
  show (_ : Int) ≤ WITNESS_SCALE_FACTOR * ((pool.entry it).getTxSize env.mempool : Nat)
  unfold CTxMemPoolEntry.getTxSize getVirtualTransactionSize WITNESS_SCALE_FACTOR
  omega

theorem sum_weight_le (package : List Uint256) :
    ((package.map fun it => getTransactionWeight (pool.entry it).tx).sum : Int) ≤
      WITNESS_SCALE_FACTOR * (package.map (pool.weight env.mempool .size)).sum := by
  induction package with
  | nil => exact Int.le_refl 0
  | cons it package ih =>
    have hfirst := @weight_le_size env pool it
    rw [map_cons, map_cons, sum_cons, sum_cons, Int.mul_add]
    exact Int.add_le_add hfirst ih

theorem sum_sigOps (package : List Uint256) :
      ((package.map fun it => (pool.entry it).sigOpCost).sum : Int) =
      (package.map (pool.weight env.mempool .sigOps)).sum := by
  induction package with
  | nil => rfl
  | cons it package ih =>
    rw [map_cons, sum_cons, Int.natCast_add, ih]
    rfl

/-- A package that was tested with at least its totals fits. -/
theorem withinLimits_append {after : BlockAssembler} (h : Assembled env pool chosen block)
    (hafter : Assembled env pool (chosen ++ package) after) {packageSize packageSigOpsCost : Int}
    (htest : testPackage env block packageSize packageSigOpsCost = true)
    (hsize : (package.map (pool.weight env.mempool .size)).sum ≤ packageSize)
    (hsigOps : (package.map (pool.weight env.mempool .sigOps)).sum ≤ packageSigOpsCost) :
    WithinLimits env after := by
  obtain ⟨hweight, hcost⟩ := (Bool.and_eq_true_iff.mp htest).imp of_decide_eq_true of_decide_eq_true
  have hsum := @sum_weight_le env pool package
  have hcosts := @sum_sigOps env pool package
  have hnBlockWeight : after.nBlockWeight = block.nBlockWeight +
      (package.map fun it => getTransactionWeight (pool.entry it).tx).sum := by
    rw [hafter.nBlockWeight, h.nBlockWeight, map_append, sum_append, Nat.add_assoc]
  have hnBlockSigOpsCost : after.nBlockSigOpsCost = block.nBlockSigOpsCost +
      (package.map fun it => (pool.entry it).sigOpCost).sum := by
    rw [hafter.nBlockSigOpsCost, h.nBlockSigOpsCost, map_append, sum_append, Nat.add_assoc]
  unfold WITNESS_SCALE_FACTOR at hweight hsum
  constructor <;> omega

/-! ## The loop -/

/-- What holds between rounds. -/
structure Assembling (env : MinerEnv) (pool : CTxMemPool) (chosen : List Uint256)
    (s : PackageSelection) : Prop where
  assembled : Assembled env pool chosen s.block
  selected : Selected env pool chosen
  fits : chosen ≠ [] → WithinLimits env s.block
  covers : Covers (remaining env pool chosen) s.mapModifiedTx
  keys : ∀ it ∈ s.mapModifiedTx.map (·.iter), it ∈ pool.txids ∧ it ∉ chosen
  mi : ∀ it ∈ s.mi, it ∈ pool.txids
  mi_length : s.mi.length ≤ pool.txids.length
  noAssert : s.assertFailed = false

/-- The rounds that are left: what one that adds to the block can put back is counted in what
it adds. -/
def roundsLeft (pool : CTxMemPool) (s : PackageSelection) : Nat :=
  (pool.txids.length - s.block.nBlockTx) * (2 * pool.txids.length + 1) + s.mi.length +
    s.mapModifiedTx.length

/-- A candidate that a round can evaluate. -/
inductive Offered (env : MinerEnv) (pool : CTxMemPool) (s : PackageSelection) : Candidate → Prop
  | modified (e : CTxMemPoolModifiedEntry) (he : e ∈ s.mapModifiedTx) :
    Offered env pool s ⟨e, true, s.mi⟩
  | index (it : Uint256) (rest : List Uint256) (hmi : s.mi = it :: rest)
      (hstale : isStale env pool s it = false) : Offered env pool s ⟨.new pool it, false, rest⟩

theorem firstModified_mem {es : List CTxMemPoolModifiedEntry} {e : CTxMemPoolModifiedEntry}
    (h : firstModified env es = some e) : e ∈ es := by
  induction es with
  | nil => cases h
  | cons first es ih =>
    rw [firstModified] at h
    split at h
    case h_1 => exact Option.some.inj h ▸ mem_cons_self
    case h_2 other hother =>
      split at h
      · exact mem_cons_of_mem _ (ih (hother.trans h))
      · exact Option.some.inj h ▸ mem_cons_self

theorem chooseCandidate_offered {candidate : Candidate}
    (h : chooseCandidate env pool s = some candidate)
    (hstale : ∀ it rest, s.mi = it :: rest → isStale env pool s it = false) :
    Offered env pool s candidate := by
  unfold chooseCandidate at h
  split at h
  case h_1 => cases h
  case h_2 modit hmi hfirst =>
    cases h
    exact hmi ▸ .modified modit (firstModified_mem hfirst)
  case h_3 it rest hmi hfirst =>
    cases h
    exact .index it rest hmi (hstale it rest hmi)
  case h_4 it rest modit hmi hfirst =>
    split at h
    · cases h
      exact hmi ▸ .modified modit (firstModified_mem hfirst)
    · cases h
      exact .index it rest hmi (hstale it rest hmi)

/-- A round skips an entry of the index, stops, or evaluates a candidate. -/
theorem addPackageRound_cases (s : PackageSelection) :
    (∃ it rest, s.mi = it :: rest ∧ addPackageRound env pool s = .again { s with mi := rest }) ∨
      addPackageRound env pool s = .stop s ∨
      ∃ candidate, Offered env pool s candidate ∧
        addPackageRound env pool s = evaluate env pool s candidate := by
  by_cases hmove : ∃ it rest, s.mi = it :: rest ∧ isStale env pool s it = true
  · obtain ⟨it, rest, hmi, hstale⟩ := hmove
    refine .inl ⟨it, rest, hmi, ?_⟩
    rw [addPackageRound, hmi]
    exact if_pos hstale
  have hfresh : ∀ it rest, s.mi = it :: rest → isStale env pool s it = false :=
    fun it rest hmi => Bool.eq_false_iff.mpr fun hstale => hmove ⟨it, rest, hmi, hstale⟩
  right
  unfold addPackageRound
  cases hc : chooseCandidate env pool s with
  | none =>
    left
    split
    · next it rest hmi => exact if_neg (Bool.eq_false_iff.mp (hfresh it rest hmi))
    · rfl
  | some candidate =>
    refine .inr ⟨candidate, chooseCandidate_offered hc hfresh, ?_⟩
    split
    · next it rest hmi => exact if_neg (Bool.eq_false_iff.mp (hfresh it rest hmi))
    · rfl

/-- The state in which a candidate is evaluated. -/
def offer (env : MinerEnv) (pool : CTxMemPool) (s : PackageSelection) (candidate : Candidate) :
    PackageSelection :=
  { s with
    mi := candidate.mi
    assertFailed :=
      s.assertFailed || decide (hashOf env pool candidate.entry.iter ∈ s.block.inBlock) }

/-- What comes of a candidate. -/
inductive Evaluated (env : MinerEnv) (pool : CTxMemPool) (s : PackageSelection)
    (candidate : Candidate) : Round PackageSelection → Prop
  | cheap : Evaluated env pool s candidate (.stop (offer env pool s candidate))
  | last (nConsecutiveFailed : Nat) : Evaluated env pool s candidate
      (.stop { dropFailed env pool (offer env pool s candidate) candidate with nConsecutiveFailed })
  | failed (nConsecutiveFailed : Nat) : Evaluated env pool s candidate
      (.again { dropFailed env pool (offer env pool s candidate)
        candidate with nConsecutiveFailed })
  | added
      (hfits : testPackage env s.block candidate.entry.nSizeWithAncestors
        candidate.entry.nSigOpCostWithAncestors = true)
      (hfinal : testPackageTransactions env pool
        (packageOf env pool s.block candidate.entry.iter) = true) :
      Evaluated env pool s candidate (.again (addPackage env pool (offer env pool s candidate)
        candidate (packageOf env pool s.block candidate.entry.iter)))

theorem evaluate_evaluated (s : PackageSelection) (candidate : Candidate) :
    Evaluated env pool s candidate (evaluate env pool s candidate) := by
  show Evaluated env pool s candidate (if _ then .stop (offer env pool s candidate)
    else if !testPackage env s.block _ _ then
      countFailure env (dropFailed env pool (offer env pool s candidate) candidate)
    else if !testPackageTransactions env pool (packageOf env pool s.block candidate.entry.iter) then
      .again (dropFailed env pool (offer env pool s candidate) candidate)
    else .again (addPackage env pool (offer env pool s candidate) candidate
      (packageOf env pool s.block candidate.entry.iter)))
  split
  case isTrue => exact .cheap
  case isFalse =>
    split
    case isTrue =>
      show Evaluated env pool s candidate (if _ then _ else _)
      split
      · exact .last _
      · exact .failed _
    case isFalse hfits =>
      split
      case isTrue => exact .failed _
      case isFalse hfinal => exact .added (by simpa using hfits) (by simpa using hfinal)

/-! ## There are enough rounds -/

section Keep

variable {candidate : Candidate}

theorem roundsLeft_dropFailed (hoffered : Offered env pool s candidate) (nConsecutiveFailed : Nat) :
    roundsLeft pool
      { dropFailed env pool (offer env pool s candidate) candidate with nConsecutiveFailed } <
      roundsLeft pool s := by
  cases hoffered with
  | modified e he =>
    have hless : (s.mapModifiedTx.filter (·.iter ≠ e.iter)).length < s.mapModifiedTx.length :=
      length_filter_lt_length_iff_exists.mpr ⟨e, he, by simp⟩
    exact Nat.add_lt_add_left hless _
  | index it rest hmi =>
    show _ + rest.length + _ < _ + s.mi.length + _
    rw [hmi]
    exact Nat.add_lt_add_right (Nat.lt_succ_self _) _

section

variable (h : Assembling env pool chosen s)

include h

theorem Assembling.entry_mem (hoffered : Offered env pool s candidate) :
    candidate.entry.iter ∈ pool.txids := by
  cases hoffered with
  | modified e he => exact (h.keys e.iter (mem_map_of_mem he)).1
  | index it rest hmi => exact h.mi it (hmi ▸ mem_cons_self)

theorem Assembling.mapModifiedTx_length : s.mapModifiedTx.length ≤ pool.txids.length := by
  rw [← length_map (·.iter)]
  exact (h.covers.nodup.subperm fun it hit => (h.keys it hit).1).length_le

theorem Assembling.nBlockTx_le : s.block.nBlockTx ≤ pool.txids.length := by
  rw [h.assembled.nBlockTx]
  exact (h.selected.nodup.subperm h.selected.mem).length_le

theorem Assembling.dropFailed (candidate : Candidate) (nConsecutiveFailed : Nat) :
    Assembling env pool chosen { dropFailed env pool s candidate with nConsecutiveFailed } := by
  unfold BlockAssembler.dropFailed
  split
  · exact { h with
      covers := h.covers.filter _
      keys := fun it hit => h.keys it ((filter_sublist.map _).subset hit) }
  · exact { h with }

end

/-- A block that has more transactions has fewer rounds to come. -/
theorem roundsLeft_lt {after : List Uint256} {t : PackageSelection}
    (hafter : Assembling env pool after t) (hless : s.block.nBlockTx < t.block.nBlockTx) :
    roundsLeft pool t < roundsLeft pool s := by
  have hmap := hafter.mapModifiedTx_length
  have hmi := hafter.mi_length
  have htx := hafter.nBlockTx_le
  unfold roundsLeft
  generalize pool.txids.length = n at *
  have hmul : (n - t.block.nBlockTx) * (2 * n + 1) + (2 * n + 1) ≤ (n - s.block.nBlockTx) *
  (2 * n + 1) := by
    rw [← Nat.succ_mul]
    exact Nat.mul_le_mul_right _ (by omega)
  omega

/-- What a round leads to is valid, and closer to the end if the loop goes on. -/
def Proceeds (env : MinerEnv) (pool : CTxMemPool) (s : PackageSelection) :
    Round PackageSelection → Prop
  | .again next =>
    (∃ after, Assembling env pool after next) ∧ roundsLeft pool next < roundsLeft pool s
  | .stop last => ∃ after, Assembling env pool after last

/-! ## Every round keeps the template valid -/

theorem not_chosen_of_isStale (horder : InOrder env.mempool [] pool)
    (h : Assembled env pool chosen s.block) (hit : it ∈ pool.txids)
    (hstale : isStale env pool s it = false) : it ∉ chosen := by
  unfold isStale at hstale
  rw [hashOf_eq horder hit] at hstale
  simp only [Bool.or_eq_false_iff, decide_eq_false_iff_not] at hstale
  exact fun hold => hstale.1.2 ((h.inBlock it).mpr hold)

variable (h : Assembling env pool chosen s) (horder : InOrder env.mempool [] pool)

include h horder

/-- A candidate is new, and its totals are at least what is left of its package. -/
theorem Assembling.offered (hoffered : Offered env pool s candidate) :
    candidate.entry.iter ∉ chosen ∧ ∀ q, Limited q →
      remaining env pool chosen q candidate.entry.iter ≤ candidate.entry.get q := by
  have hmem := h.entry_mem hoffered
  cases hoffered with
  | modified e he => exact ⟨(h.keys e.iter (mem_map_of_mem he)).2, h.covers.le e he⟩
  | index it rest hmi hstale =>
    refine ⟨not_chosen_of_isStale horder h.assembled hmem hstale, fun q hq => ?_⟩
    rw [new_get hq]
    exact remaining_le horder hmem hq.ne_fees

theorem Assembling.offer (hoffered : Offered env pool s candidate) :
    Assembling env pool chosen (offer env pool s candidate) := by
  have hmi : candidate.mi <:+ s.mi := by
    cases hoffered with
    | modified => exact suffix_rfl
    | index it rest hfirst => exact hfirst ▸ suffix_cons it rest
  have hnotIn : hashOf env pool candidate.entry.iter ∉ s.block.inBlock := by
    rw [hashOf_eq horder (h.entry_mem hoffered), h.assembled.inBlock]
    exact (h.offered horder hoffered).1
  exact { h with
    mi := fun it hit => h.mi it (hmi.mem hit)
    mi_length := Nat.le_trans hmi.length_le h.mi_length
    noAssert := Bool.or_eq_false_iff.mpr ⟨h.noAssert, decide_eq_false hnotIn⟩ }

/-- A package that fits is added. -/
theorem Assembling.addPackage (hpackage : Package pool chosen package)
    (hfits : testPackage env s.block candidate.entry.nSizeWithAncestors
      candidate.entry.nSigOpCostWithAncestors = true)
    (hcovered : ∀ q, Limited q →
      (package.map (pool.weight env.mempool q)).sum ≤ candidate.entry.get q)
    (hfinal : testPackageTransactions env pool package = true) :
    Assembling env pool (chosen ++ sortForBlock env pool package)
      (addPackage env pool s candidate package) := by
  have hperm : (sortForBlock env pool package).Perm package := perm_insertionSort _ package
  have hsorted := hpackage.perm hperm
  have hsum : ∀ q, ((sortForBlock env pool package).map (pool.weight env.mempool q)).sum =
      (package.map (pool.weight env.mempool q)).sum := fun q => (hperm.map _).sum_eq
  have hassembled := h.assembled.foldl_addToBlock horder hsorted.mem
  have hfinalSorted := all_eq_true.mpr fun it hit => all_eq_true.mp hfinal it (hperm.mem_iff.mp hit)
  constructor
  · exact { hassembled with }
  · exact h.selected.append horder hsorted (sortForBlock_pairwise package) hfinalSorted
  · intro _
    have hlimits := withinLimits_append h.assembled hassembled hfits
      ((hsum .size).trans_le (hcovered .size (.inl rfl)))
      ((hsum .sigOps).trans_le (hcovered .sigOps (.inr rfl)))
    exact hlimits
  · rw [remaining_congr fun a => (hperm.append_left chosen).mem_iff]
    exact (h.covers.filter _).updatePackagesForAdded horder hpackage.mem hpackage.nodup hpackage.new
  · intro it hit
    rcases (mem_updatePackagesForAdded_keys horder hpackage.mem).mp hit with hold | ⟨a,
      ha, hpath, hnot⟩
    · obtain ⟨e, he, rfl⟩ := mem_map.mp hold
      obtain ⟨hthere, hout⟩ := mem_filter.mp he
      obtain ⟨hmem, hnot⟩ := h.keys e.iter (mem_map_of_mem hthere)
      have hout : e.iter ∉ sortForBlock env pool package := of_decide_eq_true hout
      exact ⟨hmem, fun hin => (mem_append.mp hin).elim hnot hout⟩
    refine ⟨(path_mem_of_spends hpath).2, fun hin => ?_⟩
    rcases mem_append.mp hin with hold | hnew
    · exact hpackage.new a ha (h.selected.closed it hold a hpath)
    · exact hnot (hperm.mem_iff.mp hnew)
  · exact h.mi
  · exact h.mi_length
  · exact h.noAssert

theorem Assembling.evaluate (hoffered : Offered env pool s candidate)
    {round : Round PackageSelection}
    (hround : Evaluated env pool s candidate round) : Proceeds env pool s round := by
  have hoffer := h.offer horder hoffered
  cases hround with
  | cheap => exact ⟨chosen, hoffer⟩
  | last nConsecutiveFailed => exact ⟨chosen, hoffer.dropFailed candidate nConsecutiveFailed⟩
  | failed nConsecutiveFailed =>
    exact ⟨⟨chosen, hoffer.dropFailed candidate nConsecutiveFailed⟩,
      roundsLeft_dropFailed hoffered nConsecutiveFailed⟩
  | added hfits hfinal =>
    have hit := h.entry_mem hoffered
    obtain ⟨hnot, hcovered⟩ := h.offered horder hoffered
    have hafter := hoffer.addPackage horder (packageOf_package horder h.assembled hit hnot) hfits
      (fun q hq => (packageOf_sum horder h.assembled hit q).trans_le (hcovered q hq)) hfinal
    refine ⟨⟨_, hafter⟩, roundsLeft_lt hafter ?_⟩
    rw [hafter.assembled.nBlockTx, h.assembled.nBlockTx, length_append, sortForBlock,
      length_insertionSort, packageOf_eq horder h.assembled hit]
    exact Nat.lt_add_of_pos_right (Nat.succ_pos _)

theorem Assembling.round : Proceeds env pool s (addPackageRound env pool s) := by
  rcases addPackageRound_cases s with ⟨_, rest, hmi, hround⟩ | hround | ⟨candidate,
    hoffered, hround⟩
  · rw [hround]
    have hlength : s.mi.length = rest.length + 1 := by rw [hmi, length_cons]
    constructor
    · exact ⟨chosen, { h with
        mi := fun other hother => h.mi other (hmi ▸ mem_cons_of_mem _ hother)
        mi_length := Nat.le_trans (hlength ▸ Nat.le_succ _) h.mi_length }⟩
    show _ + rest.length + _ < _ + s.mi.length + _
    rw [hlength]
    exact Nat.add_lt_add_right (Nat.lt_succ_self _) _
  · rw [hround]
    exact ⟨chosen, h⟩
  · rw [hround]
    exact h.evaluate horder hoffered (evaluate_evaluated s candidate)

end Keep

/-! ## The template -/

theorem assembling_start : Assembling env pool []
    { block := resetBlock env, mi := ancestorScoreIndex env pool } where
  assembled := ⟨rfl, rfl, rfl, rfl, rfl, rfl, rfl, fun _ => .rfl⟩
  selected := selected_nil
  fits := absurd rfl
  covers := ⟨nodup_nil, nofun⟩
  keys := nofun
  mi := fun _ hit => (mem_insertionSort _).mp hit
  mi_length := (length_insertionSort _ _).le
  noAssert := rfl

theorem roundsLeft_start :
      roundsLeft pool { block := resetBlock env, mi := ancestorScoreIndex env pool } <
      (pool.txids.length + 1) * (2 * pool.txids.length + 1) := by
  show (pool.txids.length - 0) * _ + (ancestorScoreIndex env pool).length + 0 < _
  rw [ancestorScoreIndex, length_insertionSort, Nat.sub_zero, Nat.add_mul pool.txids.length 1]
  omega

/-- A block template as it should be. With nothing selected, what is reserved for the coinbase
transaction may fill the block. -/
structure ValidTemplate (env : MinerEnv) (pool : CTxMemPool) (chosen : List Uint256)
    (block : BlockAssembler) : Prop where
  selected : Selected env pool chosen
  assembled : Assembled env pool chosen block
  below : chosen ≠ [] → WithinLimits env block
  reserved : block.nBlockWeight ≤ env.options.nBlockMaxWeight ∧
    block.nBlockSigOpsCost ≤ MAX_BLOCK_SIGOPS_COST

theorem clampOptions_reserved {clamped : BlockAssemblerOptions}
    (h : clampOptions options = some clamped) :
    clamped.block_reserved_weight ≤ clamped.nBlockMaxWeight ∧
      clamped.coinbase_output_max_additional_sigops ≤ MAX_BLOCK_SIGOPS_COST := by
  unfold clampOptions at h
  split at h
  case isTrue hok =>
    cases h
    exact ⟨Nat.le_max_left _ _, hok.2.2⟩
  case isFalse => cases h

theorem Assembling.valid (h : Assembling env pool chosen s)
    (hclamp : clampOptions options = some env.options) : ValidTemplate env pool chosen s.block := by
  refine ⟨h.selected, h.assembled, h.fits, ?_⟩
  by_cases hnone : chosen = []
  · have hweight := h.assembled.nBlockWeight
    have hcost := h.assembled.nBlockSigOpsCost
    rw [hnone] at hweight hcost
    rw [hweight, hcost]
    exact clampOptions_reserved hclamp
  · exact ⟨Nat.le_of_lt (h.fits hnone).1, Nat.le_of_lt (h.fits hnone).2⟩

/-- Options by which the coinbase transaction takes the whole block. -/
def fullOptions : BlockAssemblerOptions := ⟨8000, fun _ => 0, 8000, 400⟩

def sampleMiner (options : BlockAssemblerOptions) : MinerEnv where
  mempool := sampleEnv
  options := options
  nHeight := 100
  m_lock_time_cutoff := 0
  byAncestorFee a b := decide (b.nModFeesWithAncestors * a.nSizeWithAncestors <
    a.nModFeesWithAncestors * b.nSizeWithAncestors)

/-- Options that leave room for transactions. -/
def ordinaryOptions : BlockAssemblerOptions := ⟨4000000, fun _ => 0, 8000, 400⟩

end BlockAssembler

end BtcSharp
