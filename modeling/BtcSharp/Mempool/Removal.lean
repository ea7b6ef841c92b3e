/-
# Removing entries

`RemoveStaged` in both of its modes. Without an update of the descendants the entries
removed must contain their children, and with it they must contain their parents. Then no
path between two entries that stay went through one that was removed, and the totals
that are left are exact again.
-/

import BtcSharp.Mempool.Exact

namespace BtcSharp

open CTxMemPoolEntry Function List Math PackageState Relation

namespace CTxMemPoolEntry

variable (env : MempoolEnv)

/-- An entry is removed of which this one is a descendant. -/
def forgetAncestor (removed : CTxMemPoolEntry) (isDescendant : Bool) (entry : CTxMemPoolEntry) :
    CTxMemPoolEntry :=
  if isDescendant then countAncestor env (-1) removed entry else entry

theorem foldl_forgetAncestor (removed : Uint256 → CTxMemPoolEntry) (isDescendant : Uint256 → Bool)
    (its : List Uint256) (entry : CTxMemPoolEntry) :
    its.foldl (fun entry it => forgetAncestor env (removed it) (isDescendant it) entry) entry =
      { entry with withAncestors := ((its.filter isDescendant).map fun it q =>
          -1 * (removed it).quantity env q).foldl .update entry.withAncestors } := by
  induction its generalizing entry with
  | nil => rfl
  | cons it its ih =>
    rw [foldl_cons, ih]
    cases hdescendant : isDescendant it with
    | true => simp [hdescendant, forgetAncestor, countAncestor]
    | false => simp [hdescendant, forgetAncestor]

theorem updateAncestorState_neg (other entry : CTxMemPoolEntry) :
    entry.updateAncestorState (-other.getTxSize env) (-other.m_modified_fee) (-1)
      (-other.sigOpCost) = countAncestor env (-1) other entry := by
  rw [← updateAncestorState_eq]
  simp

/-- An entry is removed of which this one is an ancestor or a parent. -/
def forgetDescendant (it : Uint256) (removed : CTxMemPoolEntry) (isParent isAncestor : Bool)
    (entry : CTxMemPoolEntry) : CTxMemPoolEntry :=
  let entry := if isParent then { entry with m_children := entry.m_children.erase it } else entry
  if isAncestor then countDescendant env (-1) removed entry else entry

theorem foldl_forgetDescendant (removed : Uint256 → CTxMemPoolEntry)
    (isParent isAncestor : Uint256 → Bool) (its : List Uint256) (entry : CTxMemPoolEntry) :
    its.foldl (fun entry it => forgetDescendant env it (removed it) (isParent it) (isAncestor it)
      entry) entry = { entry with
        m_children := entry.m_children.diff (its.filter isParent)
        withDescendants := ((its.filter isAncestor).map fun it q => if q = .sigOps then 0 else
          -1 * (removed it).quantity env q).foldl .update entry.withDescendants } := by
  induction its generalizing entry with
  | nil => simp
  | cons it its ih =>
    rw [foldl_cons, ih]
    cases hparent : isParent it with
    | true | false =>
      cases hancestor : isAncestor it with
      | true => simp [hparent, hancestor, forgetDescendant, countDescendant]
      | false => simp [hparent, hancestor, forgetDescendant]

/-- An entry is removed of which this one is a child. -/
def forgetParent (it : Uint256) (isChild : Bool) (entry : CTxMemPoolEntry) : CTxMemPoolEntry :=
  if isChild then { entry with m_parents := entry.m_parents.erase it } else entry

theorem foldl_forgetParent (isChild : Uint256 → Bool) (its : List Uint256)
    (entry : CTxMemPoolEntry) :
    its.foldl (fun entry it => forgetParent it (isChild it) entry) entry =
      { entry with m_parents := entry.m_parents.diff (its.filter isChild) } := by
  induction its generalizing entry with
  | nil => simp
  | cons it its ih =>
    rw [foldl_cons, ih]
    cases hchild : isChild it with
    | true | false => simp [hchild, forgetParent]

end CTxMemPoolEntry

namespace CTxMemPool

/-- Only entries were changed, and a part of each entry was not. -/
def Keeps {β : Type} (view : CTxMemPoolEntry → β) (pool after : CTxMemPool) : Prop :=
  after = { pool with entry := after.entry } ∧ ∀ x, view (after.entry x) = view (pool.entry x)

section Keeps

variable {β : Type} {view : CTxMemPoolEntry → β} {pool after : CTxMemPool}

theorem Keeps.refl (view : CTxMemPoolEntry → β) (pool : CTxMemPool) : Keeps view pool pool :=
  ⟨rfl, fun _ => rfl⟩

theorem Keeps.txids (h : Keeps view pool after) : after.txids = pool.txids := by
  rw [h.1]

variable {change : CTxMemPoolEntry → CTxMemPoolEntry}

theorem view_modify (hchange : ∀ e, view (change e) = view e) (it x : Uint256) :
    view ((after.modify it change).entry x) = view (after.entry x) := by
  by_cases heq : x = it
  · subst heq
    exact (congrArg view (update_self _ _ _)).trans (hchange _)
  · exact congrArg view (update_of_ne heq _ _)

theorem Keeps.modify (h : Keeps view pool after) {it : Uint256}
    (hchange : ∀ e, view (change e) = view e) : Keeps view pool (after.modify it change) := by
  refine ⟨?_, fun x => ?_⟩
  · have hframe : after.modify it change = { after with entry := (after.modify it change).entry } :=
      rfl
    rw [hframe, h.1]
  exact (view_modify hchange it x).trans (h.2 x)

theorem Keeps.modifyAll (hchange : ∀ e, view (change e) = view e) {its : List Uint256} :
    ∀ {after : CTxMemPool}, Keeps view pool after →
    Keeps view pool (after.modifyAll its change) := by
  induction its with
  | nil => exact fun h => h
  | cons it its ih => exact fun h => ih (h.modify hchange)

end Keeps

section Loops

variable {env : MempoolEnv} {pool after : CTxMemPool} {its : List Uint256} {it : Uint256}

section

variable (h : pool.Links) (hit : it ∈ pool.txids)

include h hit

theorem Links.nodup_descendants :
    (pool.calculateDescendants it []).Nodup ∧
      ∀ x, x ∈ pool.calculateDescendants it [] ↔ ReflTransGen pool.Linked it x := by
  obtain ⟨hnodup, -, hiff⟩ := h.calculateDescendants hit nodup_nil nofun
    nofun
  refine ⟨hnodup, fun x => ?_⟩
  rw [hiff]
  exact or_iff_right not_mem_nil

/-- The descendants without the entry itself. -/
theorem Links.strict_descendants :
    ((pool.calculateDescendants it []).erase it).Nodup ∧
      ∀ x, x ∈ (pool.calculateDescendants it []).erase it ↔ TransGen pool.Linked it x := by
  obtain ⟨hnodup, hmem⟩ := h.nodup_descendants hit
  refine ⟨hnodup.erase it, fun x => ?_⟩
  rw [hnodup.mem_erase_iff, hmem]
  constructor
  · rintro ⟨hne, hreach⟩
    exact (reflTransGen_iff_eq_or_transGen.mp hreach).resolve_left hne
  intro hpath
  refine ⟨?_, hpath.to_reflTransGen⟩
  rintro rfl
  exact h.acyclic x hpath

/-- A round of the first loop of `UpdateForRemoveFromMempool`. -/
theorem Links.updateDescendants_round
    (hkeeps : Keeps (fun e => (e.static, e.m_parents, e.m_children)) pool after) :
    Keeps (fun e => (e.static, e.m_parents, e.m_children)) pool
      (updateDescendantsForRemoval env after it) ∧
    ∀ x, (updateDescendantsForRemoval env after it).entry x = CTxMemPoolEntry.forgetAncestor env
        (pool.entry it)
        (decide (x ∈ (pool.calculateDescendants it []).erase it)) (after.entry x) := by
  have hchildren : (fun it => (after.entry it).m_children) = fun it => (pool.entry it).m_children :=
    funext fun x => congrArg (·.2.2) (hkeeps.2 x)
  have hsame : after.calculateDescendants it [] = pool.calculateDescendants it [] := by
    unfold CTxMemPool.calculateDescendants
    rw [hchildren, hkeeps.txids]
  have hnodup := (h.strict_descendants hit).1
  have hquantity := quantity_of_static (congrArg Prod.fst (hkeeps.2 it)) env
  unfold updateDescendantsForRemoval
  refine ⟨?_, fun x => ?_⟩
  · apply Keeps.modifyAll _ hkeeps
    exact fun _ => rfl
  simp [hsame, modifyAll_entry hnodup, updateAncestorState_neg, forgetAncestor,
    countAncestor, hquantity]

/-- A round of the second loop of `UpdateForRemoveFromMempool`. The children are severed in one loop
over the parents. -/
theorem Links.updateAncestors_round
    (hkeeps : Keeps (fun e => (e.static, e.m_parents)) pool after) :
    Keeps (fun e => (e.static, e.m_parents)) pool (updateAncestorsForRemoval env after it) ∧
    ∀ x, (updateAncestorsForRemoval env after it).entry x =
      CTxMemPoolEntry.forgetDescendant env it (pool.entry it)
        (decide (x ∈ (pool.entry it).m_parents))
        (decide (x ∈ assumeCalculateMemPoolAncestors env pool (pool.entry it) false))
        (after.entry x) := by
  have hparents : (fun it => (after.entry it).m_parents) = fun it => (pool.entry it).m_parents :=
    funext fun x => congrArg Prod.snd (hkeeps.2 x)
  have hsame : assumeCalculateMemPoolAncestors env after (after.entry it) false =
      assumeCalculateMemPoolAncestors env pool (pool.entry it) false := by
    rw [assumeCalculateMemPoolAncestors_eq rfl, assumeCalculateMemPoolAncestors_eq rfl, hparents,
      hkeeps.txids, congrFun hparents it]
  have hquantity := quantity_of_static (congrArg Prod.fst (hkeeps.2 it)) env
  have hround :
    updateAncestorsForRemoval env after it = (after.modifyAll (pool.entry it).m_parents fun e =>
        { e with m_children := e.m_children.erase it }).modifyAll
          (assumeCalculateMemPoolAncestors env pool (pool.entry it) false)
            (.countDescendant env (-1) (pool.entry it)) := by
    unfold updateAncestorsForRemoval updateAncestorsOf
    rw [hsame]
    simp only [updateDescendantState_eq]
    rw [congrFun hparents it]
    unfold countDescendant
    rw [hquantity]
    rfl
  rw [hround]
  refine ⟨?_, fun x => ?_⟩
  · apply Keeps.modifyAll
    · exact fun _ => rfl
    · apply Keeps.modifyAll _ hkeeps
      exact fun _ => rfl
  rw [modifyAll_entry (@Links.ancestors env pool h it hit).1,
    modifyAll_entry (h.parents_nodup it hit)]
  simp [forgetDescendant]

end

/-- A round of the third loop of `UpdateForRemoveFromMempool`. -/
theorem updateChildren_round (hnodup : (pool.entry it).m_children.Nodup)
    (hkeeps : Keeps CTxMemPoolEntry.m_children pool after) :
    Keeps CTxMemPoolEntry.m_children pool (after.updateChildrenForRemoval it) ∧
    ∀ x, (after.updateChildrenForRemoval it).entry x =
      CTxMemPoolEntry.forgetParent it (decide (x ∈ (pool.entry it).m_children))
        (after.entry x) := by
  have hround :
    after.updateChildrenForRemoval it = after.modifyAll (pool.entry it).m_children fun e =>
      { e with m_parents := e.m_parents.erase it } := by
    unfold updateChildrenForRemoval
    rw [hkeeps.2 it]
    rfl
  rw [hround]
  refine ⟨?_, fun x => ?_⟩
  · apply Keeps.modifyAll _ hkeeps
    exact fun _ => rfl
  simp [modifyAll_entry hnodup, forgetParent]

/-- `UpdateForRemoveFromMempool` changes entries only, and each as follows. -/
theorem Links.updateForRemove (h : pool.Links) (hits : ∀ it ∈ its, it ∈ pool.txids)
    (updateDescendants : Bool) :
    let after := updateForRemoveFromMempool env pool its updateDescendants
    after = { pool with entry := after.entry } ∧ ∀ x, after.entry x = { pool.entry x with
      m_parents := (pool.entry x).m_parents.diff (its.filter fun it =>
        x ∈ (pool.entry it).m_children.diff (its.filter fun d => it ∈ (pool.entry d).m_parents))
      m_children :=
        (pool.entry x).m_children.diff (its.filter fun it => x ∈ (pool.entry it).m_parents)
      withAncestors := (((if updateDescendants then its else []).filter fun it =>
        x ∈ (pool.calculateDescendants it []).erase it).map fun it q =>
          -1 * (pool.entry it).quantity env q).foldl .update (pool.entry x).withAncestors
      withDescendants := ((its.filter fun it =>
        x ∈ assumeCalculateMemPoolAncestors env pool (pool.entry it) false).map fun it q =>
          if q = .sigOps then 0 else -1 * (pool.entry it).quantity env q).foldl
            .update (pool.entry x).withDescendants } := by
  intro after
  obtain ⟨pool₁, hpool₁, hkeeps₁, hentry₁⟩ : ∃ pool₁,
      (if updateDescendants then its.foldl (updateDescendantsForRemoval env) pool else pool) =
      pool₁ ∧
      Keeps (fun e => (e.static, e.m_parents, e.m_children)) pool pool₁ ∧
      ∀ x, pool₁.entry x = { pool.entry x with
        withAncestors := (((if updateDescendants then its else []).filter fun it =>
          x ∈ (pool.calculateDescendants it []).erase it).map fun it q =>
            -1 * (pool.entry it).quantity env q).foldl .update (pool.entry x).withAncestors } := by
    refine ⟨_, rfl, ?_⟩
    cases updateDescendants with
    | false => exact ⟨.refl _ pool, fun _ => rfl⟩
    | true =>
      obtain ⟨hkeeps, hentry⟩ := @foldl_entry _ (updateDescendantsForRemoval env)
        (fun it x => .forgetAncestor env (pool.entry it)
          (decide (x ∈ (pool.calculateDescendants it []).erase it))) its
        (fun it hit _ => h.updateDescendants_round (hits it hit)) _ (Keeps.refl _ pool)
      refine ⟨hkeeps, fun x => (hentry x).trans ?_⟩
      exact foldl_forgetAncestor env pool.entry _ its _
  obtain ⟨hkeeps₂, hentry₂⟩ := @foldl_entry (Keeps (fun e => (e.static, e.m_parents)) pool)
    (updateAncestorsForRemoval env) (fun it x => .forgetDescendant env it
      (pool.entry it) (decide (x ∈ (pool.entry it).m_parents))
      (decide (x ∈ assumeCalculateMemPoolAncestors env pool (pool.entry it) false))) its
    (fun it hit _ => h.updateAncestors_round (hits it hit)) _
    ⟨hkeeps₁.1, fun x => congrArg (fun view => (view.1, view.2.1)) (hkeeps₁.2 x)⟩
  have hafter₂ := fun x => (hentry₂ x).trans (foldl_forgetDescendant env pool.entry _ _ its _)
  generalize hpool₂ : its.foldl (updateAncestorsForRemoval env) pool₁ = pool₂ at hkeeps₂ hafter₂
  have hchildren₂ : ∀ x, (pool₂.entry x).m_children = (pool.entry x).m_children.diff
      (its.filter fun it => x ∈ (pool.entry it).m_parents) := by
    intro x
    rw [hafter₂ x, hentry₁ x]
  obtain ⟨hkeeps₃, hentry₃⟩ := @foldl_entry (Keeps m_children pool₂)
    updateChildrenForRemoval (fun it x => .forgetParent it
      (decide (x ∈ (pool₂.entry it).m_children))) its (fun it hit _ => updateChildren_round (by
      rw [hchildren₂ it]
      exact (h.children_nodup it (hits it hit)).diff)) _ (.refl _ pool₂)
  have hafter : after = its.foldl updateChildrenForRemoval pool₂ := by
    rw [← hpool₂, ← hpool₁]
    rfl
  rw [hafter]
  refine ⟨?_, fun x => ?_⟩
  · rw [hkeeps₃.1, hkeeps₂.1]
  rw [hentry₃ x, foldl_forgetParent]
  simp only [hchildren₂]
  rw [hafter₂ x, hentry₁ x]

end Loops

/-- `removeUnchecked` of several entries. -/
theorem foldl_removeUnchecked (env : MempoolEnv) (its : List Uint256) (pool : CTxMemPool) :
    its.foldl (removeUnchecked env) pool = { pool with
        txids := pool.txids.diff its
        mapNextTx := pool.mapNextTx.filter fun pair =>
          ∀ it ∈ its, pair.1 ∉ (pool.entry it).tx.vin.map (·.prevout)
        totalTxSize :=
          pool.totalTxSize - (its.map fun it => ((pool.entry it).getTxSize env : Int)).sum
        m_total_fee := pool.m_total_fee - (its.map fun it => (pool.entry it).nFee).sum
        assertFailed := pool.assertFailed || its.any fun it =>
          (pool.entry it).withAncestors.assertFailed || (pool.entry it).withDescendants.assertFailed
        saturated := pool.saturated || its.any fun it => (pool.entry it).withAncestors.saturated ||
          (pool.entry it).withDescendants.saturated || (pool.entry it).saturated } := by
  induction its generalizing pool with
  | nil => simp
  | cons it its ih =>
    rw [foldl_cons, ih]
    have hfilter : (pool.mapNextTx.filter fun pair =>
          pair.1 ∉ (pool.entry it).tx.vin.map (·.prevout)).filter (fun pair =>
          ∀ other ∈ its, pair.1 ∉ (pool.entry other).tx.vin.map (·.prevout)) =
        pool.mapNextTx.filter fun pair =>
          ∀ other ∈ it :: its, pair.1 ∉ (pool.entry other).tx.vin.map (·.prevout) := by
      rw [filter_filter]
      apply filter_congr
      intro pair _
      rw [Bool.eq_iff_iff, Bool.and_eq_true, decide_eq_true_eq, decide_eq_true_eq,
        decide_eq_true_eq, forall_mem_cons, and_comm]
    unfold removeUnchecked
    simp only [hfilter, any_cons, map_cons, sum_cons, diff_cons, Int.sub_sub, Bool.or_assoc]

/-- What is left when entries were removed. -/
structure Removed (pool : CTxMemPool) (its : List Uint256) (after : CTxMemPool) : Prop where
  txids : ∀ it, it ∈ after.txids ↔ it ∈ pool.txids ∧ it ∉ its
  static : ∀ it, (after.entry it).static = (pool.entry it).static
  linked : ∀ parent child, after.Linked parent child ↔
    pool.Linked parent child ∧ parent ∉ its ∧ child ∉ its
  mapDeltas : after.mapDeltas = pool.mapDeltas

section Remove

variable {env : MempoolEnv} {pool : CTxMemPool} {its : List Uint256}

theorem removeStaged_entry (updateDescendants : Bool) :
      (removeStaged env pool its updateDescendants).entry =
      (updateForRemoveFromMempool env pool its updateDescendants).entry := by
  unfold removeStaged
  rw [foldl_removeUnchecked]

theorem subset_nodes (hits : ∀ it ∈ its, it ∈ pool.txids) : its.toFinset ⊆ pool.nodes :=
  fun it hit => mem_nodes.mpr (hits it (mem_toFinset.mp hit))

theorem Removed.nodes {after : CTxMemPool} (h : Removed pool its after) :
    after.nodes = pool.nodes \ its.toFinset := by
  ext it
  rw [mem_nodes, h.txids, Finset.mem_sdiff, mem_nodes, mem_toFinset]

/-- The entries that are left form the rest of the graph. -/
theorem Links.removed (h : pool.Links) (hits : ∀ it ∈ its, it ∈ pool.txids)
    (updateDescendants : Bool) : (removeStaged env pool its updateDescendants).Links ∧
      Removed pool its (removeStaged env pool its updateDescendants) := by
  obtain ⟨hframe, hentry⟩ := @Links.updateForRemove env pool its h hits updateDescendants
  unfold removeStaged
  rw [foldl_removeUnchecked]
  generalize updateForRemoveFromMempool env pool its updateDescendants = mid at hframe hentry
  have htxids : mid.txids = pool.txids := by rw [hframe]
  have hdeltas : mid.mapDeltas = pool.mapDeltas := by rw [hframe]
  simp only [htxids, hdeltas]
  have hmem : ∀ it, it ∈ pool.txids.diff its ↔ it ∈ pool.txids ∧ it ∉ its := fun it =>
    h.nodup.mem_sdiff_iff
  have hparents : ∀ child ∈ pool.txids, child ∉ its →
        ∀ parent, parent ∈ (mid.entry child).m_parents ↔
        parent ∈ (pool.entry child).m_parents ∧ parent ∉ its := by
    intro child hchild hnot parent
    rw [hentry child]
    rw [(h.parents_nodup child hchild).mem_sdiff_iff]
    refine and_congr_right fun hparent => not_congr ?_
    rw [mem_filter, decide_eq_true_eq]
    refine and_iff_left_of_imp fun hmem => ?_
    rw [(h.children_nodup parent (hits parent hmem)).mem_sdiff_iff, mem_filter]
    exact ⟨(h.children_iff parent (hits parent hmem) child).mpr ⟨hchild, hparent⟩,
      fun hfilter => hnot hfilter.1⟩
  have hchildren : ∀ parent ∈ pool.txids, ∀ child, child ∈ (mid.entry parent).m_children ↔
      child ∈ (pool.entry parent).m_children ∧ child ∉ its := by
    intro parent hparent child
    rw [hentry parent]
    rw [(h.children_nodup parent hparent).mem_sdiff_iff]
    refine and_congr_right fun hchild => not_congr ?_
    rw [mem_filter, decide_eq_true_eq]
    exact and_iff_left_of_imp fun _ => ((h.children_iff parent hparent child).mp hchild).2
  have hlinked : ∀ parent child, (child ∈ pool.txids.diff its ∧
        parent ∈ (mid.entry child).m_parents) ↔
        pool.Linked parent child ∧ parent ∉ its ∧ child ∉ its := by
    intro parent child
    rw [hmem]
    constructor
    · rintro ⟨⟨hchild, hnot⟩, hparent⟩
      obtain ⟨hparent, hnotParent⟩ := (hparents child hchild hnot parent).mp hparent
      exact ⟨⟨hchild, hparent⟩, hnotParent, hnot⟩
    · rintro ⟨⟨hchild, hparent⟩, hnotParent, hnot⟩
      exact ⟨⟨hchild, hnot⟩, (hparents child hchild hnot parent).mpr ⟨hparent, hnotParent⟩⟩
  refine ⟨⟨h.nodup.diff, ?_, ?_, ?_, ?_, ?_⟩, hmem, ?_, hlinked, rfl⟩
  · intro child hchild parent hparent
    obtain ⟨hold, hnot, -⟩ := (hlinked parent child).mp ⟨hchild, hparent⟩
    exact (hmem parent).mpr ⟨(h.linked_mem hold).1, hnot⟩
  · intro child hchild
    simp only [hentry child]
    exact (h.parents_nodup child ((hmem child).mp hchild).1).diff
  · intro parent hparent
    simp only [hentry parent]
    exact (h.children_nodup parent ((hmem parent).mp hparent).1).diff
  · intro parent hparent child
    obtain ⟨hparent, hnot⟩ := (hmem parent).mp hparent
    refine (hchildren parent hparent child).trans (.trans ?_ (hlinked parent child).symm)
    rw [h.children_iff parent hparent]
    exact and_congr_right fun _ => (and_iff_right hnot).symm
  · intro it hpath
    exact h.acyclic it (.mono (fun parent child hstep =>
      ((hlinked parent child).mp hstep).1) it it hpath)
  · intro it
    simp only [hentry it]
    rfl

/-- Removing entries keeps the books. -/
theorem Books.removed (h : pool.Books env) (hlinks : pool.Links) (hnodup : its.Nodup)
    (hits : ∀ it ∈ its, it ∈ pool.txids) (updateDescendants : Bool) :
    (removeStaged env pool its updateDescendants).Books env := by
  obtain ⟨-, hremoved⟩ := @Links.removed env pool its hlinks hits updateDescendants
  obtain ⟨hframe, -⟩ := @Links.updateForRemove env pool its hlinks hits updateDescendants
  have hnodes := hremoved.nodes
  have hsubset := subset_nodes hits
  have hsum : ∀ (before : Int) (f : Uint256 → Int), before = ∑ it ∈ pool.nodes, f it →
      before - (its.map f).sum = ∑ it ∈ pool.nodes \ its.toFinset, f it := by
    intro before f hbefore
    rw [hbefore, ← Finset.sum_sdiff hsubset, ← sum_toFinset f hnodup, Int.add_sub_cancel]
  unfold removeStaged at hremoved hnodes ⊢
  rw [foldl_removeUnchecked] at hremoved hnodes ⊢
  generalize updateForRemoveFromMempool env pool its updateDescendants = mid
    at hframe hremoved hnodes
  have hstatic : ∀ it, (mid.entry it).static = (pool.entry it).static := hremoved.static
  refine ⟨?_, ?_, ?_, ?_, ?_⟩
  · intro it hit
    simp only [tx_of_static (hstatic _)]
    exact h.hash it ((hremoved.txids it).mp hit).1
  · intro prevout it
    rw [hremoved.txids]
    simp only [mem_filter, decide_eq_true_eq, tx_of_static (hstatic _)]
    rw [and_right_comm, ← h.nextTx, hframe]
    refine and_congr_right fun hmem => ⟨?_, ?_⟩
    · intro hfree hit
      obtain ⟨-, txin, htxin, heq⟩ := (h.nextTx prevout it).mp hmem
      exact hfree it hit (mem_map.mpr ⟨txin, htxin, heq⟩)
    intro hnot other hother hspent
    obtain ⟨txin, htxin, heq⟩ := mem_map.mp hspent
    have hotherMem := (h.nextTx prevout other).mpr ⟨hits other hother, txin, htxin, heq⟩
    have hsame : it = other :=
      congrArg Prod.snd (inj_on_of_nodup_map h.nextTx_nodup hmem hotherMem rfl)
    exact hnot (hsame ▸ hother)
  · rw [hframe]
    exact h.nextTx_nodup.sublist (filter_sublist.map _)
  · rw [hnodes]
    simp only [getTxSize_of_static (hstatic _)]
    rw [← hsum _ _ h.totalTxSize, hframe]
  · rw [hnodes]
    simp only [nFee_of_static (hstatic _)]
    rw [← hsum _ _ h.totalFee, hframe]

/-- Which entries may be removed in which mode: with their children, or with their parents
and an update of the descendants. -/
def Removable (pool : CTxMemPool) (its : List Uint256) (updateDescendants : Bool) : Prop :=
  its.Nodup ∧ (∀ it ∈ its, it ∈ pool.txids) ∧
    if updateDescendants then ∀ it ∈ its, ∀ parent, pool.Linked parent it → parent ∈ its
    else pool.ClosedUnderChildren its

/-- Between entries that stay there are the same paths as before. -/
theorem Removed.paths {after : CTxMemPool} {updateDescendants : Bool}
    (h : Removed pool its after) (hremovable : pool.Removable its updateDescendants)
    {first last : Uint256} (hfirst : first ∉ its) (hlast : last ∉ its) :
    TransGen after.Linked first last ↔ TransGen pool.Linked first last := by
  have hlinked : after.Linked = fun parent child =>
      pool.Linked parent child ∧ parent ∉ its ∧ child ∉ its :=
    funext fun parent => funext fun child => propext (h.linked parent child)
  rw [hlinked]
  cases updateDescendants with
  | false =>
    exact (transGen_iff_avoid_of_succ (fun a b ha => hremovable.2.2 a ha b) hlast).symm
  | true =>
    exact (transGen_iff_avoid_of_pred (fun a b hb => hremovable.2.2 b hb a) hfirst).symm

open Classical in
/-- The sums that are taken off in a removal. -/
theorem sum_forget {weight : Uint256 → Int} {counts : Uint256 → Prop} {counted : List Uint256}
    (hnodup : counted.Nodup) (hmem : ∀ a, a ∈ counted ↔ a ∈ its ∧ counts a) :
    (counted.map fun it => -1 * weight it).sum = -∑ a ∈ its.toFinset with counts a, weight a := by
  have hneg : (counted.map fun it => -1 * weight it) = (counted.map weight).map Neg.neg := by
    simp
  rw [hneg, ← sum_neg, sum_map_eq_sum_filter hnodup fun a => (hmem a).trans
    (and_congr_left' mem_toFinset.symm)]

variable {updateDescendants : Bool}

/-- A sum that was clamped in an entry leaves a trace in the mempool, even when the entry is
removed. -/
theorem Links.removed_unsaturated (h : pool.Links) (hits : ∀ it ∈ its, it ∈ pool.txids)
    (hafter : (removeStaged env pool its updateDescendants).Unsaturated) :
    pool.Unsaturated ∧ ∀ x ∈ pool.txids,
      ((removeStaged env pool its updateDescendants).entry x).Unsaturated := by
  obtain ⟨hframe, hentry⟩ := @Links.updateForRemove env pool its h hits updateDescendants
  have hflag := hafter.1
  unfold removeStaged at hflag
  rw [foldl_removeUnchecked, hframe] at hflag
  simp only [← removeStaged_entry, Bool.or_eq_false_iff, any_eq_false,
    Bool.not_eq_true] at hflag
  have hentries :
      ∀ x ∈ pool.txids, ((removeStaged env pool its updateDescendants).entry x).Unsaturated := by
    intro x hx
    by_cases hmem : x ∈ its
    · obtain ⟨⟨hancestors, hdescendants⟩, hself⟩ := hflag.2 x hmem
      exact ⟨hancestors, hdescendants, hself⟩
    · exact hafter.2 x
        (((@Links.removed env pool its h hits updateDescendants).2.txids x).mpr ⟨hx, hmem⟩)
  refine ⟨⟨hflag.1, fun x hx => ?_⟩, hentries⟩
  have hx := hentries x hx
  rw [removeStaged_entry, hentry x] at hx
  exact ⟨saturated_foldl_update hx.1, saturated_foldl_update hx.2.1, hx.2.2⟩

/-- A total is exact for what is left of the ancestors or descendants. -/
def ExactLeft (env : MempoolEnv) (pool : CTxMemPool) (its : List Uint256) (counts : Uint256 →
    Uint256 → Prop) (x : Uint256) (state : PackageState) (q : Quantity) : Prop :=
  (q = .fees → pool.Unsaturated ∧ state.saturated = false) →
    state.get q = relTotal (pool.nodes \ its.toFinset) counts (pool.weight env q) x

section

variable (h : pool.Exact env (TransGen pool.Linked)) (hlinks : pool.Links)
  (hremovable : pool.Removable its updateDescendants) {x : Uint256} {state : PackageState}

include h hlinks hremovable

/-- What is left of the totals with descendants. -/
theorem Exact.removed_descendants (hx : x ∈ pool.txids)
    (hstate : state = ((removeStaged env pool its updateDescendants).entry x).withDescendants) :
    ((pool.entry x).withDescendants.assertFailed = false → state.saturated = false →
      state.assertFailed = false) ∧ state.sigOps = 0 ∧
      ∀ q, q ≠ .sigOps → ExactLeft env pool its (flip (TransGen pool.Linked)) x state q := by
  obtain ⟨hnodup, hits, -⟩ := hremovable
  have hsubset := subset_nodes hits
  rw [removeStaged_entry, (@Links.updateForRemove env pool its hlinks hits _).2 x] at hstate
  dsimp only at hstate
  have htotal : ∀ q, q ≠ .sigOps →
      ExactLeft env pool its (flip (TransGen pool.Linked)) x state q := by
    intro q hq hsound
    rw [hstate] at hsound ⊢
    rw [relTotal_sdiff _ hsubset, ← h.descendants x hx q hq fun heq => (hsound heq).1,
      get_foldl_update fun heq => (hsound heq).2, List.map_map]
    simp only [comp_def, hq, if_false]
    rw [sum_forget (hnodup.filter _) fun a => ?_]
    · rfl
    · rw [mem_filter, decide_eq_true_eq]
      exact and_congr_right fun ha => (@Links.ancestors env pool hlinks a (hits a ha)).2 x
  have hsigOps : state.get .sigOps = 0 := by
    rw [hstate, get_foldl_update (by simp)]
    simp [comp_def, PackageState.get, h.sigOps x hx]
  refine ⟨fun hassert hflag => ?_, hsigOps, htotal⟩
  rw [hstate] at hflag ⊢
  apply foldl_update_assert_of_nonpos hassert hflag
  · rw [← hstate]
    obtain ⟨hsize, hcount, -⟩ := @relTotal_pos env pool (pool.nodes \ its.toFinset)
      (flip (TransGen pool.Linked)) x
    rw [← htotal .size (by decide) (by simp)] at hsize
    rw [← htotal .count (by decide) (by simp)] at hcount
    exact ⟨hsize, hcount, hsigOps.ge⟩
  intro modify hmodify q hq
  obtain ⟨it, -, rfl⟩ := mem_map.mp hmodify
  have hnonneg := quantity_nonneg env (pool.entry it) hq
  show (if q = .sigOps then 0 else -1 * (pool.entry it).quantity env q) ≤ 0
  split
  · exact Int.le_refl 0
  · omega

/-- What is left of the totals with ancestors. In the mode without an update they are left
alone, and were exact for what stays. -/
theorem Exact.removed_ancestors (hx : x ∈ pool.txids)
    (hstate : state = ((removeStaged env pool its updateDescendants).entry x).withAncestors) :
    ((pool.entry x).withAncestors.assertFailed = false → state.saturated = false →
      state.assertFailed = false) ∧
    (x ∉ its → ∀ q, ExactLeft env pool its (TransGen pool.Linked) x state q) := by
  classical
  obtain ⟨hnodup, hits, hclosed⟩ := hremovable
  have hsubset := subset_nodes hits
  rw [removeStaged_entry, (@Links.updateForRemove env pool its hlinks hits _).2 x] at hstate
  dsimp only at hstate
  cases updateDescendants with
  | false =>
    have hsame : state = (pool.entry x).withAncestors := hstate
    rw [hsame]
    refine ⟨fun hassert _ => hassert, fun hnot q hsound => ?_⟩
    rw [h.ancestors x hx q fun heq => (hsound heq).1, relTotal_sdiff _ hsubset]
    have hnone : its.toFinset.filter (fun a => TransGen pool.Linked a x) = ∅ := by
      apply Finset.filter_eq_empty_iff.mpr
      exact fun a ha hpath =>
        hnot (ClosedUnderChildren.path_mem hclosed (mem_toFinset.mp ha) hpath)
    rw [hnone, Finset.sum_empty, Int.sub_zero]
  | true =>
    rw [if_pos rfl] at hstate
    have htotal : ∀ q, ExactLeft env pool its (TransGen pool.Linked) x state q := by
      intro q hsound
      rw [hstate] at hsound ⊢
      rw [relTotal_sdiff _ hsubset, ← h.ancestors x hx q fun heq => (hsound heq).1,
        get_foldl_update fun heq => (hsound heq).2, List.map_map]
      simp only [comp_def]
      rw [sum_forget (hnodup.filter _) fun a => ?_]
      · rfl
      · rw [mem_filter, decide_eq_true_eq]
        exact and_congr_right fun ha => (hlinks.strict_descendants (hits a ha)).2 x
    refine ⟨fun hassert hflag => ?_, fun _ => htotal⟩
    rw [hstate] at hflag ⊢
    apply foldl_update_assert_of_nonpos hassert hflag
    · rw [← hstate]
      have hpos := @relTotal_pos env pool (pool.nodes \ its.toFinset) (TransGen pool.Linked) x
      rw [← htotal .size (by simp), ← htotal .count (by simp), ← htotal .sigOps (by simp)] at hpos
      exact hpos
    intro modify hmodify q hq
    obtain ⟨it, -, rfl⟩ := mem_map.mp hmodify
    have hnonneg := quantity_nonneg env (pool.entry it) hq
    show -1 * (pool.entry it).quantity env q ≤ 0
    omega

/-- Removing entries leaves exact totals. -/
theorem Exact.removed (hassert : pool.Unsaturated → pool.NoAssert) :
    let after := removeStaged env pool its updateDescendants
    after.Exact env (TransGen after.Linked) ∧ (after.Unsaturated → after.NoAssert) := by
  intro after
  have hits := hremovable.2.1
  have hremoved := (@Links.removed env pool its hlinks hits updateDescendants).2
  have hancestors := fun x hx => h.removed_ancestors hlinks hremovable (x := x) hx rfl
  have hdescendants := fun x hx => h.removed_descendants hlinks hremovable (x := x) hx rfl
  have hnodes : after.nodes = _ := hremoved.nodes
  have hweight : after.weight env = pool.weight env := weight_congr hremoved.static
  refine ⟨⟨?_, ?_, ?_⟩, fun hflags => ?_⟩
  · intro x hx q hsound
    obtain ⟨hmem, hnot⟩ := (hremoved.txids x).mp hx
    rw [(hancestors x hmem).2 hnot q fun heq => ?_, hnodes, hweight]
    · refine relTotal_congr (fun a ha => (hremoved.paths hremovable ?_ hnot).symm) rfl
        fun _ _ => rfl
      exact fun h => (Finset.mem_sdiff.mp ha).2 (mem_toFinset.mpr h)
    · obtain ⟨hbefore, hentries⟩ := hlinks.removed_unsaturated hits (hsound heq)
      exact ⟨hbefore, (hentries x hmem).1⟩
  · intro x hx q hq hsound
    obtain ⟨hmem, hnot⟩ := (hremoved.txids x).mp hx
    rw [(hdescendants x hmem).2.2 q hq fun heq => ?_, hnodes, hweight]
    · refine relTotal_congr (fun a ha => (hremoved.paths hremovable hnot ?_).symm) rfl
        fun _ _ => rfl
      exact fun h => (Finset.mem_sdiff.mp ha).2 (mem_toFinset.mpr h)
    · obtain ⟨hbefore, hentries⟩ := hlinks.removed_unsaturated hits (hsound heq)
      exact ⟨hbefore, (hentries x hmem).2.1⟩
  · exact fun x hx => (hdescendants x ((hremoved.txids x).mp hx).1).2.1
  · obtain ⟨hbefore, hentries⟩ := hlinks.removed_unsaturated hits hflags
    have hbeforeAssert := hassert hbefore
    have hentry : ∀ x ∈ pool.txids, (after.entry x).NoAssert := fun x hx =>
      ⟨(hancestors x hx).1 (hbeforeAssert.2 x hx).1 (hentries x hx).1,
        (hdescendants x hx).1 (hbeforeAssert.2 x hx).2 (hentries x hx).2.1⟩
    refine ⟨?_, fun x hx => hentry x ((hremoved.txids x).mp hx).1⟩
    obtain ⟨hframe, -⟩ := @Links.updateForRemove env pool its hlinks hits updateDescendants
    show (removeStaged env pool its updateDescendants).assertFailed = false
    unfold removeStaged
    rw [foldl_removeUnchecked, hframe]
    simp only [← removeStaged_entry, hbeforeAssert.1, Bool.false_or, any_eq_false, Bool.or_eq_true,
      not_or, Bool.not_eq_true]
    exact fun x hx => hentry x (hits x hx)

end

/-- `RemoveStaged` leaves a mempool in order. -/
theorem Kept.removeStaged (h : pool.Kept env (TransGen pool.Linked))
    (hremovable : pool.Removable its updateDescendants) :
    let after := CTxMemPool.removeStaged env pool its updateDescendants
    after.Kept env (TransGen after.Linked) ∧ Removed pool its after := by
  intro after
  obtain ⟨hnodup, hits, -⟩ := id hremovable
  obtain ⟨hlinks, hremoved⟩ := @Links.removed env pool its h.links hits updateDescendants
  obtain ⟨hexact, hnoAssert⟩ := h.exact.removed h.links hremovable h.noAssert
  exact ⟨⟨hlinks, h.books.removed h.links hnodup hits _, hexact, hnoAssert⟩, hremoved⟩

end Remove

end CTxMemPool

end BtcSharp
