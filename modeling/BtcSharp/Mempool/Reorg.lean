/-
# The end of a reorganisation

`UpdateTransactionsFromBlock` goes through the transactions that came back from blocks,
the last one first. Each is linked to the other entries that spend from it and is counted
for its descendants among them. What was found for one transaction is kept for those that
it descends from; this is right because all that came back and descends from a
transaction is gone through before it.
-/

import BtcSharp.Mempool.Operations

namespace BtcSharp

open CTxMemPoolEntry Function List Math Relation

namespace CTxMemPool

section Paths

variable {env : MempoolEnv} {pool : CTxMemPool} {readded done : List Uint256}

/-- Which entries count as ancestors when some of the transactions that came back were gone
through. -/
def Counted (pool : CTxMemPool) (readded done : List Uint256) (ancestor descendant : Uint256) :
    Prop :=
  TransGen pool.Spends ancestor descendant ∧
    (ancestor ∈ readded → descendant ∉ readded → ancestor ∈ done)

/-- Which entries are linked then. -/
def LinkedAfter (pool : CTxMemPool) (readded done : List Uint256) (parent child : Uint256) : Prop :=
  pool.Spends parent child ∧ (parent ∈ readded → child ∉ readded → parent ∈ done)

theorem InOrder.linkedAfter_nil (h : InOrder env readded pool) :
    pool.Linked = pool.LinkedAfter readded [] := by
  funext parent child
  apply propext
  rw [h.linked]
  refine and_congr_right fun _ => ⟨fun hnot hparent hchild => absurd ⟨hparent, hchild⟩ hnot, ?_⟩
  exact fun himp hboth => absurd (himp hboth.1 hboth.2) not_mem_nil

/-- What was gone through contains all that came back and spends from it. -/
def DoneClosed (pool : CTxMemPool) (readded done : List Uint256) : Prop :=
  ∀ parent ∈ done, ∀ child ∈ readded, pool.Spends parent child → child ∈ done

variable {first last : Uint256}

section

variable (h : InOrder env readded pool)

include h

section

variable (hdone : pool.DoneClosed readded done) (hfirst : first ∈ readded → first ∈ done)

include hdone hfirst

theorem InOrder.path_done
    (hpath : TransGen pool.Spends first last) (hlast : last ∈ readded) : last ∈ done := by
  induction hpath with
  | single hstep => exact hdone _ (hfirst (h.closed _ _ hstep hlast)) _ hlast hstep
  | tail _ hstep ih =>
    have hmiddle := h.closed _ _ hstep hlast
    exact hdone _ (ih hmiddle) _ hlast hstep

/-- From an entry that was gone through, or did not come back, all paths are linked. -/
theorem InOrder.linkedAfter_paths :
    TransGen (pool.LinkedAfter readded done) first last ↔ TransGen pool.Spends first last := by
  constructor
  · exact fun hpath => .mono (fun _ _ => .left) first last hpath
  intro hpath
  induction hpath with
  | single hstep => exact .single ⟨hstep, fun hmem _ => hfirst hmem⟩
  | tail hbefore hstep ih =>
    exact ih.tail ⟨hstep, fun hmem _ => h.path_done hdone hfirst hbefore hmem⟩

end

/-- A path to an entry that came back is linked. -/
theorem InOrder.linkedAfter_path (hpath : TransGen pool.Spends first last)
    (hlast : last ∈ readded) : TransGen (pool.LinkedAfter readded done) first last := by
  induction hpath with
  | single hstep => exact .single ⟨hstep, fun _ => absurd hlast⟩
  | tail _ hstep ih =>
    exact (ih (h.closed _ _ hstep hlast)).tail ⟨hstep, fun _ => absurd hlast⟩

theorem InOrder.spends_acyclic (it : Uint256) : ¬ TransGen pool.Spends it it := by
  intro hpath
  apply h.kept.links.acyclic it
  rw [h.linkedAfter_nil]
  by_cases hmem : it ∈ readded
  · exact h.linkedAfter_path hpath hmem
  · rw [h.linkedAfter_paths (fun _ hparent => absurd hparent not_mem_nil)
      fun hin => absurd hin hmem]
    exact hpath

/-- Before the first one is gone through, paths are counted that are linked. -/
theorem InOrder.counted_nil : TransGen pool.Linked = pool.Counted readded [] := by
  funext first last
  apply propext
  rw [h.linkedAfter_nil]
  by_cases hfirst : first ∈ readded
  · constructor
    · intro hpath
      refine ⟨.mono (fun _ _ => .left) first last hpath, fun _ hlast => ?_⟩
      refine absurd ?_ hlast
      induction hpath with
      | single hstep =>
        by_contra hnot
        exact absurd (hstep.2 hfirst hnot) not_mem_nil
      | tail _ hstep ih =>
        by_contra hnot
        exact absurd (hstep.2 (Decidable.not_imp_self.mp ih) hnot) not_mem_nil
    · rintro ⟨hpath, hcounted⟩
      apply h.linkedAfter_path hpath
      by_contra hnot
      exact absurd (hcounted hfirst hnot) not_mem_nil
  · rw [h.linkedAfter_paths (fun _ hparent => absurd hparent not_mem_nil)
      fun hin => absurd hin hfirst]
    exact (and_iff_left fun hin => absurd hin hfirst).symm

end

end Paths

/-! ## Linking the children of one transaction -/

section Link

variable {env : MempoolEnv} {pool : CTxMemPool} {hash : Uint256} {children : List Uint256}

/-- What linking children does to an entry. -/
def linkedEntry (pool : CTxMemPool) (hash : Uint256) (children : List Uint256) (x : Uint256) :
    CTxMemPoolEntry :=
  if x = hash then
    { pool.entry x with
      m_children := children.foldl (fun set it => set.insert it) (pool.entry x).m_children }
  else if x ∈ children then
    { pool.entry x with m_parents := (pool.entry x).m_parents.insert hash }
  else pool.entry x

theorem foldl_linkChild (hself : hash ∉ children) (hnodup : children.Nodup) :
    children.foldl (fun pool => pool.linkChild hash) pool =
      { pool with entry := pool.linkedEntry hash children } := by
  induction children generalizing pool with
  | nil =>
    have hentry : pool.linkedEntry hash [] = pool.entry := by
      funext x
      unfold linkedEntry
      split
      · rfl
      · exact if_neg not_mem_nil
    rw [hentry]
    rfl
  | cons child children ih =>
    rw [mem_cons, not_or] at hself
    obtain ⟨hne, hself⟩ := hself
    obtain ⟨hnot, hnodup⟩ := nodup_cons.mp hnodup
    rw [foldl_cons, ih hself hnodup]
    have hentry : (pool.linkChild hash child).linkedEntry hash children =
        pool.linkedEntry hash (child :: children) := by
      funext x
      unfold linkedEntry linkChild updateChild updateParent modify
      by_cases hx : x = hash
      · subst hx
        simp [hne]
      by_cases hchild : x = child
      · subst hchild
        simp [hx, hnot]
      · simp [hx, hchild]
    rw [hentry]
    rfl

theorem linkedEntry_static (x : Uint256) :
    (pool.linkedEntry hash children x).static = (pool.entry x).static := by
  unfold linkedEntry
  split
  · rfl
  split <;> rfl

/-- Linking changes no totals. -/
theorem linkedEntry_totals (x : Uint256) :
    (pool.linkedEntry hash children x).withAncestors = (pool.entry x).withAncestors ∧
    (pool.linkedEntry hash children x).withDescendants = (pool.entry x).withDescendants ∧
    (pool.linkedEntry hash children x).saturated = (pool.entry x).saturated := by
  unfold linkedEntry
  split
  · exact ⟨rfl, rfl, rfl⟩
  split <;> exact ⟨rfl, rfl, rfl⟩

theorem Exact.linked {counts : Uint256 → Uint256 → Prop} (h : pool.Exact env counts)
    (hassert : pool.Unsaturated → pool.NoAssert) :
    let after : CTxMemPool := { pool with entry := pool.linkedEntry hash children }
    after.Exact env counts ∧ (after.Unsaturated → after.NoAssert) := by
  intro after
  obtain ⟨hancestors, hrest⟩ := forall_and.mp (@linkedEntry_totals pool hash children)
  obtain ⟨hdescendants, hflag⟩ := forall_and.mp hrest
  have hweight : after.weight env = pool.weight env := weight_congr linkedEntry_static
  have hnodes : after.nodes = pool.nodes := rfl
  have hflags : after.Unsaturated = pool.Unsaturated := by
    unfold Unsaturated CTxMemPoolEntry.Unsaturated
    simp only [after, hancestors, hdescendants, hflag]
  have hsound : after.Sound = pool.Sound := by
    unfold Sound
    rw [hflags]
  refine ⟨⟨?_, ?_, ?_⟩, fun hafter => ?_⟩
  · simpa only [hsound, hnodes, hweight, after, hancestors] using h.ancestors
  · simpa only [hsound, hnodes, hweight, after, hdescendants] using h.descendants
  · simpa only [after, hdescendants] using h.sigOps
  · have hbefore := hassert (hflags ▸ hafter)
    refine ⟨hbefore.1, ?_⟩
    simpa only [CTxMemPoolEntry.NoAssert, after, hancestors, hdescendants] using hbefore.2

/-- The entries as they are linked when the children of a transaction were linked to it. -/
theorem Links.linkChildren (h : pool.Links) {linked : Uint256 → Uint256 → Prop}
    (hacyclic : ∀ it, ¬ TransGen linked it it) (hmem : hash ∈ pool.txids) (hself : hash ∉ children)
    (hchildren : ∀ child ∈ children, child ∈ pool.txids)
    (hlinked : ∀ parent child, linked parent child ↔ pool.Linked parent child ∨
      parent = hash ∧ child ∈ children) :
    let after : CTxMemPool := { pool with entry := pool.linkedEntry hash children }
    after.Links ∧ ∀ parent child, after.Linked parent child ↔ linked parent child := by
  intro after
  have hparents : ∀ x, (after.entry x).m_parents =
      if x ∈ children then (pool.entry x).m_parents.insert hash else (pool.entry x).m_parents := by
    intro x
    show (pool.linkedEntry hash children x).m_parents = _
    unfold linkedEntry
    by_cases hx : x = hash
    · subst hx
      rw [if_pos rfl, if_neg hself]
    rw [if_neg hx]
    split <;> rfl
  have hset := foldl_insert_spec children (h.children_nodup hash hmem)
  have hkids : ∀ x, x ≠ hash → (after.entry x).m_children = (pool.entry x).m_children := by
    intro x hx
    show (pool.linkedEntry hash children x).m_children = _
    unfold linkedEntry
    rw [if_neg hx]
    split <;> rfl
  have hkidsSelf : (after.entry hash).m_children =
      children.foldl (fun set => set.insert) (pool.entry hash).m_children := by
    show (pool.linkedEntry hash children hash).m_children = _
    unfold linkedEntry
    rw [if_pos rfl]
  have hiff : ∀ parent child, after.Linked parent child ↔ linked parent child := by
    intro parent child
    rw [hlinked]
    unfold Linked
    rw [hparents]
    split
    · next hchild =>
      rw [mem_insert_iff, and_iff_left hchild, or_comm]
      have hthere := hchildren child hchild
      exact ⟨fun hboth => hboth.2.imp_left fun hold => ⟨hthere, hold⟩, fun hor =>
        ⟨hthere, hor.imp_left And.right⟩⟩
    · next hchild => exact (or_iff_left fun hboth => hchild hboth.2).symm
  refine ⟨⟨h.nodup, ?_, ?_, ?_, ?_, ?_⟩, hiff⟩
  · intro child hchild parent hparent
    rcases (hlinked parent child).mp ((hiff parent child).mp ⟨hchild, hparent⟩) with hold | ⟨rfl, -⟩
    · exact (h.linked_mem hold).1
    · exact hmem
  · intro child hchild
    rw [hparents]
    split
    · exact (h.parents_nodup child hchild).insert
    · exact h.parents_nodup child hchild
  · intro parent hparent
    by_cases heq : parent = hash
    · rw [heq, hkidsSelf]
      exact hset.1
    · rw [hkids parent heq]
      exact h.children_nodup parent hparent
  · intro parent hparent child
    rw [hiff, hlinked]
    by_cases heq : parent = hash
    · rw [heq, hkidsSelf, hset.2, h.children_iff hash hmem]
      exact or_congr_right (and_iff_right rfl).symm
    · rw [hkids parent heq, h.children_iff parent hparent]
      exact (or_iff_left fun hboth => heq hboth.1).symm
  · intro it hpath
    exact hacyclic it (.mono (fun parent child hstep =>
      (hiff parent child).mp hstep) it it hpath)

/-- Paths through the sets of children. -/
theorem Links.transGen_children_iff (h : pool.Links) {first last : Uint256}
    (hfirst : first ∈ pool.txids) :
    TransGen (fun node succ => succ ∈ (pool.entry node).m_children) first last ↔
      TransGen pool.Linked first last := by
  constructor
  · intro hpath
    induction hpath with
    | single hstep => exact .single ((h.children_iff first hfirst _).mp hstep)
    | tail _ hstep ih => exact ih.tail ((h.children_iff _ (h.path_mem ih).2 _).mp hstep)
  intro hpath
  refine .mono (fun parent child hstep => ?_) first last hpath
  exact (h.children_iff parent (h.linked_mem hstep).1 child).mpr hstep

end Link

/-! ## Counting one transaction for its descendants -/

section Count

variable {env : MempoolEnv} {pool after : CTxMemPool} {hash : Uint256} {descendants : List Uint256}

/-- What counting a transaction for its descendants does to the entries. -/
def countedEntry (env : MempoolEnv) (pool : CTxMemPool) (hash : Uint256)
    (descendants : List Uint256) (x : Uint256) : CTxMemPoolEntry :=
  if x = hash then
    { pool.entry x with withDescendants := (pool.entry x).withDescendants.update fun q =>
        if q = .sigOps then 0 else (descendants.map fun d => (pool.entry d).quantity env q).sum }
  else if x ∈ descendants then CTxMemPoolEntry.countAncestor env 1 (pool.entry hash) (pool.entry x)
  else pool.entry x

/-- The part of `UpdateForDescendants` that changes entries. -/
theorem updateForDescendants_pool (hnodup : descendants.Nodup) (hself : hash ∉ descendants) :
    ((pool.modifyAll descendants fun e => e.updateAncestorState ((pool.entry hash).getTxSize env)
        (pool.entry hash).m_modified_fee 1 (pool.entry hash).sigOpCost).modify hash fun e =>
      e.updateDescendantState (descendants.map fun d => (pool.entry d).quantity env .size).sum
        (descendants.map fun d => (pool.entry d).quantity env .fees).sum
        (descendants.map fun d => (pool.entry d).quantity env .count).sum) =
      { pool with entry := countedEntry env pool hash descendants } := by
  have hchange : (fun e : CTxMemPoolEntry => e.updateAncestorState
      ((pool.entry hash).getTxSize env) (pool.entry hash).m_modified_fee 1
      (pool.entry hash).sigOpCost) = .countAncestor env 1 (pool.entry hash) := by
    funext e
    rw [← updateAncestorState_eq, Int.one_mul, Int.one_mul, Int.one_mul]
  rw [hchange, modifyAll_eq hnodup]
  unfold modify
  have hentry : update (fun it => if it ∈ descendants then
        .countAncestor env 1 (pool.entry hash) (pool.entry it) else pool.entry it) hash
      ((pool.entry hash).updateDescendantState (descendants.map fun d => (pool.entry d).quantity
        env .size).sum (descendants.map fun d => (pool.entry d).quantity env .fees).sum
        (descendants.map fun d => (pool.entry d).quantity env .count).sum) =
      countedEntry env pool hash descendants := by
    funext x
    unfold countedEntry
    by_cases hx : x = hash
    · subst hx
      rw [update_self, if_pos rfl]
      unfold updateDescendantState
      congr 2
      funext q
      cases q <;> rfl
    · rw [update_of_ne hx, if_neg hx]
  dsimp only
  rw [if_neg hself, hentry]

section Counted

variable (hafter : after = { pool with entry := countedEntry env pool hash descendants })

include hafter

theorem counted_self : after.entry hash =
    { pool.entry hash with withDescendants := (pool.entry hash).withDescendants.update fun q =>
        if q = .sigOps then 0 else (descendants.map fun d => (pool.entry d).quantity env q).sum } :=
        by
  rw [hafter]
  exact if_pos rfl

theorem counted_other {x : Uint256} (hx : x ≠ hash) : after.entry x =
    { pool.entry x with withAncestors := if x ∈ descendants
        then (pool.entry x).withAncestors.update fun q => 1 * (pool.entry hash).quantity env q
        else (pool.entry x).withAncestors } := by
  rw [hafter]
  refine (if_neg hx).trans ?_
  split <;> rfl

theorem counted_same (x : Uint256) : (after.entry x).static = (pool.entry x).static ∧
    ((after.entry x).m_parents = (pool.entry x).m_parents ∧
      (after.entry x).m_children = (pool.entry x).m_children) := by
  by_cases hx : x = hash
  · rw [hx, counted_self hafter]
    exact ⟨rfl, rfl, rfl⟩
  rw [counted_other hafter hx]
  exact ⟨rfl, rfl, rfl⟩

theorem unsaturated_of_counted (h : after.Unsaturated) : pool.Unsaturated := by
  have htxids : after.txids = pool.txids := by rw [hafter]
  refine ⟨?_, fun x hx => ?_⟩
  · have hflag := h.1
    rw [hafter] at hflag
    exact hflag
  have hflags := h.2 x (htxids ▸ hx)
  by_cases heq : x = hash
  · rw [heq] at hflags ⊢
    rw [counted_self hafter] at hflags
    exact ⟨hflags.1, PackageState.saturated_update hflags.2.1, hflags.2.2⟩
  rw [counted_other hafter heq] at hflags
  exact ⟨PackageState.saturated_ite_update hflags.1, hflags.2⟩

variable {counts : Uint256 → Uint256 → Prop}

/-- A transaction that was not counted for some of its descendants is counted for them. -/
theorem Exact.counted {counts' : Uint256 → Uint256 → Prop} (h : pool.Exact env counts)
    (hmem : hash ∈ pool.txids) (hnodup : descendants.Nodup) (hself : hash ∉ descendants)
    (hdescendants : ∀ d ∈ descendants, d ∈ pool.txids) (hnew : ∀ d ∈ descendants, ¬ counts hash d)
    (hcounts : ∀ a d, counts' a d ↔ counts a d ∨ a = hash ∧ d ∈ descendants) :
    after.Exact env counts' := by
  have htxids : after.txids = pool.txids := by rw [hafter]
  have hnodes := nodes_congr htxids
  have hweight : after.weight env = pool.weight env :=
    weight_congr fun x => (counted_same hafter x).1
  have hsound : ∀ q, after.Sound q → pool.Sound q := fun q h heq =>
    unsaturated_of_counted hafter (h heq)
  refine ⟨?_, ?_, ?_⟩
  · intro x hx q hafterSound
    have hpool := hsound q hafterSound
    rw [htxids] at hx
    have hflag := fun heq => ((hafterSound heq).2 x (htxids ▸ hx)).1
    rw [hnodes, hweight]
    by_cases hd : x ∈ descendants
    · have hne : x ≠ hash := ne_of_mem_of_not_mem hd hself
      rw [counted_other hafter hne, if_pos hd] at hflag ⊢
      have hextra : ∀ a ∈ pool.nodes, counts' a x ↔ counts a x ∨ a ∈ ({hash} : Finset Uint256) := by
        intro a _
        rw [hcounts, and_iff_left hd, Finset.mem_singleton]
      rw [relTotal_add {hash} (Finset.singleton_subset_iff.mpr (mem_nodes.mpr hmem)) (by
        intro a ha
        rw [Finset.mem_singleton.mp ha]
        exact hnew x hd) hextra, Finset.sum_singleton, ← h.ancestors x hx q hpool]
      refine (PackageState.get_update hflag).trans ?_
      rw [Int.one_mul]
      rfl
    · have hsame : (after.entry x).withAncestors = (pool.entry x).withAncestors := by
        by_cases heq : x = hash
        · rw [heq, counted_self hafter]
        · rw [counted_other hafter heq, if_neg hd]
      rw [hsame, h.ancestors x hx q hpool]
      refine relTotal_congr (fun a _ => ?_) rfl fun _ _ => rfl
      rw [hcounts]
      exact (or_iff_left fun hboth => hd hboth.2).symm
  · intro x hx q hq hafterSound
    have hpool := hsound q hafterSound
    rw [htxids] at hx
    have hflag := fun heq => ((hafterSound heq).2 x (htxids ▸ hx)).2.1
    rw [hnodes, hweight]
    by_cases heq : x = hash
    · subst heq
      rw [counted_self hafter] at hflag ⊢
      have hextra : ∀ a ∈ pool.nodes, flip counts' a x ↔ flip counts a x ∨
          a ∈ descendants.toFinset := by
        intro a _
        show counts' x a ↔ counts x a ∨ _
        rw [hcounts, and_iff_right rfl, mem_toFinset]
      rw [relTotal_add descendants.toFinset (fun d hd =>
          mem_nodes.mpr (hdescendants d (mem_toFinset.mp hd)))
        (fun d hd => hnew d (mem_toFinset.mp hd)) hextra, ← h.descendants x hx q hq hpool,
        sum_toFinset _ hnodup]
      refine (PackageState.get_update hflag).trans ?_
      rw [if_neg hq]
      rfl
    · have hsame : (after.entry x).withDescendants = (pool.entry x).withDescendants := by
        rw [counted_other hafter heq]
      rw [hsame, h.descendants x hx q hq hpool]
      refine relTotal_congr (fun a _ => ?_) rfl fun _ _ => rfl
      show counts x a ↔ counts' x a
      rw [hcounts]
      exact (or_iff_left fun hboth => heq hboth.1).symm
  · intro x hx
    rw [htxids] at hx
    by_cases heq : x = hash
    · rw [heq, counted_self hafter]
      exact (Int.add_zero _).trans (h.sigOps hash hmem)
    rw [counted_other hafter heq]
    exact h.sigOps x hx

theorem NoAssert.counted (h : pool.NoAssert) (hexact : after.Exact env counts)
    (hflags : after.Unsaturated) : after.NoAssert := by
  have htxids : after.txids = pool.txids := by rw [hafter]
  refine ⟨by rw [hafter]; exact h.1, fun x hx => ?_⟩
  have hancestors := hexact.positive_ancestors hx
  have hdescendants := hexact.positive_descendants hx
  have hflag := hflags.2 x hx
  rw [htxids] at hx
  by_cases heq : x = hash
  · rw [heq] at hx hdescendants hflag ⊢
    rw [counted_self hafter] at hdescendants hflag ⊢
    exact ⟨(h.2 hash hx).1,
      PackageState.assertFailed_update (h.2 hash hx).2 hflag.2.1 hdescendants⟩
  rw [counted_other hafter heq] at hancestors hflag ⊢
  exact ⟨PackageState.assertFailed_ite_update (h.2 x hx).1 hflag.1 hancestors, (h.2 x hx).2⟩

end Counted

end Count

/-! ## Going through the transactions -/

section Process

variable {env : MempoolEnv} {pool : CTxMemPool} {readded done : List Uint256} {state : ReorgUpdate}

/-- What holds when some of the transactions that came back were gone through: these are
linked and counted, and the cache has what descends from them. -/
structure Processing (env : MempoolEnv) (pool : CTxMemPool) (readded done : List Uint256)
    (state : ReorgUpdate) : Prop where
  keeps : Keeps CTxMemPoolEntry.static pool state.pool
  links : state.pool.Links
  linked : ∀ parent child, state.pool.Linked parent child ↔
    pool.LinkedAfter readded done parent child
  exact : state.pool.Exact env (pool.Counted readded done)
  noAssert : state.pool.Unsaturated → state.pool.NoAssert
  cached : ∀ it ∈ done, ∀ other, other ∈ state.cachedDescendants it ↔
    TransGen pool.Spends it other ∧ other ∉ readded
  uncached : ∀ it, it ∉ done → state.cachedDescendants it = []

theorem InOrder.processing_nil (h : InOrder env readded pool) :
    Processing env pool readded [] { pool := pool } := by
  refine ⟨.refl _ pool, h.kept.links, ?_, ?_, h.kept.noAssert,
    nofun, fun _ _ => rfl⟩
  · intro parent child
    rw [h.linkedAfter_nil]
  · rw [← h.counted_nil]
    exact h.kept.exact

theorem Processing.spends (h : Processing env pool readded done state) :
    state.pool.Spends = pool.Spends := by
  funext parent child
  unfold Spends
  rw [h.keeps.txids, tx_of_static (h.keeps.2 child)]

theorem Processing.books (h : Processing env pool readded done state) (hbooks : pool.Books env) :
    state.pool.Books env := by
  refine hbooks.of_same h.keeps.txids ?_ ?_ ?_ fun x => ?_
  · rw [h.keeps.1]
  · rw [h.keeps.1]
  · rw [h.keeps.1]
  · exact ⟨tx_of_static (h.keeps.2 x), nFee_of_static (h.keeps.2 x),
      sigOpCost_of_static (h.keeps.2 x)⟩

variable {hash : Uint256} {linked : CTxMemPool}

/-- The entries that spend from a transaction are found in `mapNextTx`. -/
theorem Books.mem_spenders (h : pool.Books env) (hmem : hash ∈ pool.txids) (child : Uint256) :
    child ∈ ((pool.mapNextTx.filter fun pair => pair.1.hash = hash).map Prod.snd).dedup ↔
      pool.Spends hash child := by
  rw [mem_dedup, mem_map]
  constructor
  · rintro ⟨⟨prevout, it⟩, hpair, rfl⟩
    obtain ⟨hpair, hhash⟩ := mem_filter.mp hpair
    obtain ⟨hit, txin, htxin, rfl⟩ := (h.nextTx prevout it).mp hpair
    exact ⟨hmem, hit, txin, htxin, of_decide_eq_true hhash⟩
  rintro ⟨-, hchild, txin, htxin, hhash⟩
  refine ⟨(txin.prevout, child), mem_filter.mpr ⟨?_, decide_eq_true hhash⟩, rfl⟩
  exact (h.nextTx _ _).mpr ⟨hchild, txin, htxin, rfl⟩

/-- What a relation reaches when one more transaction was gone through. -/
theorem reaches_cons (r : Uint256 → Uint256 → Prop) (a d : Uint256) :
    r a d ∧ (a ∈ readded → d ∉ readded → a ∈ hash :: done) ↔
      r a d ∧ (a ∈ readded → d ∉ readded → a ∈ done) ∨ a = hash ∧ r hash d ∧ d ∉ readded := by
  constructor
  · rintro ⟨hreaches, hdone⟩
    by_cases hboth : a = hash ∧ d ∉ readded
    · exact .inr ⟨hboth.1, hboth.1 ▸ hreaches, hboth.2⟩
    · refine .inl ⟨hreaches, fun ha hd => ?_⟩
      exact (mem_cons.mp (hdone ha hd)).resolve_left fun heq => hboth ⟨heq, hd⟩
  rintro (⟨hreaches, hdone⟩ | ⟨rfl, hreaches, -⟩)
  · exact ⟨hreaches, fun ha hd => mem_cons_of_mem _ (hdone ha hd)⟩
  · exact ⟨hreaches, fun _ _ => mem_cons_self⟩

/-- A transaction that is no longer in the mempool changes nothing. -/
theorem Processing.skip (h : Processing env pool readded done state)
    (hmem : hash ∉ pool.txids) (hnot : hash ∉ done) :
    Processing env pool readded (hash :: done) state := by
  have hnone : ∀ {last}, ¬ TransGen pool.Spends hash last :=
    fun hpath => hmem (path_mem_of_spends hpath).1
  have hlinked : pool.LinkedAfter readded (hash :: done) = pool.LinkedAfter readded done := by
    funext parent child
    apply propext
    refine (reaches_cons pool.Spends parent child).trans (or_iff_left ?_)
    exact fun hboth => hnone (.single hboth.2.1)
  have hcounted : pool.Counted readded (hash :: done) = pool.Counted readded done := by
    funext first last
    apply propext
    refine (reaches_cons (TransGen pool.Spends) first last).trans (or_iff_left ?_)
    exact fun hboth => hnone hboth.2.1
  refine ⟨h.keeps, h.links, ?_, ?_, h.noAssert, ?_, ?_⟩
  · rw [hlinked]
    exact h.linked
  · rw [hcounted]
    exact h.exact
  · intro it hit other
    rcases mem_cons.mp hit with rfl | hit
    · rw [h.uncached it hnot]
      exact ⟨fun hother => absurd hother not_mem_nil, fun hboth => absurd hboth.1 hnone⟩
    · exact h.cached it hit other
  · intro it hit
    exact h.uncached it fun hin => hit (mem_cons_of_mem _ hin)

/-- The children that a transaction is linked to, of those that did not come back. -/
def newChildren (pool : CTxMemPool) (readded : List Uint256) (hash : Uint256) : List Uint256 :=
  ((pool.mapNextTx.filter fun pair => pair.1.hash = hash).map Prod.snd).dedup.filter (· ∉ readded)

section

variable (h : Processing env pool readded done state)

include h

section

variable (hpool : InOrder env readded pool) (hmem : hash ∈ pool.txids)

include hpool hmem

/-- A transaction is linked to its children. -/
theorem Processing.link (hreadded : hash ∈ readded) :
    let linked : CTxMemPool := { state.pool with
      entry := state.pool.linkedEntry hash (state.pool.newChildren readded hash) }
    linked.Links ∧ ∀ parent child, linked.Linked parent child ↔
      pool.LinkedAfter readded (hash :: done) parent child := by
  have hbooks := h.books hpool.kept.books
  have hmemState : hash ∈ state.pool.txids := h.keeps.txids ▸ hmem
  have hchildren : ∀ child, child ∈ state.pool.newChildren readded hash ↔
      pool.Spends hash child ∧ child ∉ readded := by
    intro child
    unfold newChildren
    rw [mem_filter, decide_eq_true_eq, hbooks.mem_spenders hmemState, h.spends]
  refine h.links.linkChildren ?_ hmemState ?_ ?_ ?_
  · intro it hpath
    exact hpool.spends_acyclic it (.mono (fun _ _ => .left) it it hpath)
  · exact fun hin => ((hchildren hash).mp hin).2 hreadded
  · intro child hchild
    rw [h.keeps.txids]
    exact ((hchildren child).mp hchild).1.2.1
  · intro parent child
    rw [h.linked, hchildren]
    exact reaches_cons pool.Spends parent child

/-- The body of the loop, when the transaction is in the mempool. -/
theorem Processing.body (hreadded : hash ∈ readded) :
    updateFromBlockTx env readded state hash = updateForDescendants env { state with
      pool := { state.pool with
        entry := state.pool.linkedEntry hash (state.pool.newChildren readded hash) } }
          hash readded := by
  have hbooks := h.books hpool.kept.books
  have hmemState : hash ∈ state.pool.txids := h.keeps.txids ▸ hmem
  have hnone : (((state.pool.mapNextTx.filter fun pair => pair.1.hash = hash).map
      Prod.snd).dedup.any fun it => it ∉ state.pool.txids) = false := by
    rw [any_eq_false]
    intro it hit
    have hthere := ((hbooks.mem_spenders hmemState it).mp hit).2.1
    simpa using hthere
  have hself : hash ∉ state.pool.newChildren readded hash := fun hin =>
    absurd hreadded (of_decide_eq_true (mem_filter.mp hin).2)
  have hnodup : (state.pool.newChildren readded hash).Nodup := (nodup_dedup _).filter _
  unfold updateFromBlockTx
  dsimp only
  rw [if_neg (not_not_intro hmemState), hnone, Bool.or_false]
  congr 2
  exact foldl_linkChild hself hnodup

section

variable (hsub : ∀ it ∈ done, it ∈ readded) (hclosed : pool.DoneClosed readded (hash :: done))
  (hlinks : linked.Links) (hlinked : ∀ parent child, linked.Linked parent child ↔
    pool.LinkedAfter readded (hash :: done) parent child)

include hsub hclosed hlinks hlinked

/-- The search with the cache finds what descends from a transaction and did not come
back. -/
theorem Processing.descendants (htxids : linked.txids = pool.txids) :
    let found :=
      (linked.descendantsLoop state.cachedDescendants (linked.entry hash).m_children).filter
      (· ∉ readded)
    found.Nodup ∧ ∀ it, it ∈ found ↔ TransGen pool.Spends hash it ∧ it ∉ readded := by
  have hsame : linked.Linked = pool.LinkedAfter readded (hash :: done) :=
    funext fun parent => funext fun child => propext (hlinked parent child)
  have hpaths : ∀ first, first ∈ hash :: done → first ∈ pool.txids → ∀ last,
      (TransGen (fun node succ => succ ∈ (linked.entry node).m_children) first last ↔
        TransGen pool.Spends first last) := by
    intro first hfirst hthere last
    rw [hlinks.transGen_children_iff (htxids ▸ hthere), hsame]
    exact hpool.linkedAfter_paths hclosed fun _ => hfirst
  have hcached : ∀ node, state.cachedDescendants node ≠ [] → node ∈ done := by
    intro node hne
    by_contra hnot
    exact hne (h.uncached node hnot)
  have hcache : CacheRight (fun it => (linked.entry it).m_children) state.cachedDescendants
      linked.txids (· ∉ readded) := by
    refine ⟨?_, ?_, ?_, ?_⟩
    · exact fun node hne hnot => hnot (hsub node (hcached node hne))
    · intro node other hother
      have hdone := hcached node (ne_nil_of_mem hother)
      rw [htxids]
      exact (path_mem_of_spends ((h.cached node hdone other).mp hother).1).2
    · intro node other hother
      have hdone := hcached node (ne_nil_of_mem hother)
      have hpath := ((h.cached node hdone other).mp hother).1
      exact (hpaths node (mem_cons_of_mem _ hdone) (path_mem_of_spends hpath).1 other).mpr hpath
    · intro node hne other hkeep hpath
      have hdone := hcached node hne
      obtain ⟨some, hsome⟩ := exists_mem_of_ne_nil _ hne
      have hthere := (path_mem_of_spends ((h.cached node hdone some).mp hsome).1).1
      exact (h.cached node hdone other).mpr
        ⟨(hpaths node (mem_cons_of_mem _ hdone) hthere other).mp hpath, hkeep⟩
  have hmemLinked : hash ∈ linked.txids := htxids ▸ hmem
  obtain ⟨hnodup, -, hiff⟩ := mem_searchCached_iff hcache hlinks.children_mem hmemLinked
    (hlinks.children_nodup hash hmemLinked) (Nat.le_refl _)
  refine ⟨hnodup.filter _, fun it => ?_⟩
  rw [mem_filter, decide_eq_true_eq]
  refine and_congr_left fun hkeep => (hiff it hkeep).trans ?_
  exact hpaths hash mem_cons_self hmem it

/-- A transaction that was linked is counted. -/
theorem Processing.count (hreadded : hash ∈ readded) (hnot : hash ∉ done)
    (hkeeps : Keeps CTxMemPoolEntry.static pool linked)
    (hexact : linked.Exact env (pool.Counted readded done))
    (hnoAssert : linked.Unsaturated → linked.NoAssert) :
    Processing env pool readded (hash :: done)
      (updateForDescendants env { state with pool := linked } hash readded) := by
  have hmemLinked : hash ∈ linked.txids := hkeeps.txids ▸ hmem
  obtain ⟨hnodup, hfound⟩ := h.descendants hpool hmem hsub hclosed hlinks hlinked hkeeps.txids
  unfold updateForDescendants
  dsimp only
  generalize (linked.descendantsLoop state.cachedDescendants (linked.entry hash).m_children).filter
    (fun x => decide (x ∉ readded)) = found at hnodup hfound ⊢
  have hself : hash ∉ found := fun hin => ((hfound hash).mp hin).2 hreadded
  have hthere : ∀ d ∈ found, d ∈ linked.txids := fun d hd =>
    hkeeps.txids ▸ (path_mem_of_spends ((hfound d).mp hd).1).2
  rw [updateForDescendants_pool hnodup hself]
  generalize hafter :
    ({ linked with entry := countedEntry env linked hash found } : CTxMemPool) = after
  have hsame := counted_same hafter.symm
  have htxids : after.txids = linked.txids := by rw [← hafter]
  obtain ⟨hlinksAfter, hlinkedAfter⟩ := hlinks.of_same htxids fun x => (hsame x).2
  have hexactAfter : after.Exact env (pool.Counted readded (hash :: done)) := by
    refine hexact.counted hafter.symm hmemLinked hnodup hself hthere ?_ ?_
    · intro d hd hcounted
      exact hnot (hcounted.2 hreadded ((hfound d).mp hd).2)
    intro a d
    rw [hfound]
    exact reaches_cons (TransGen pool.Spends) a d
  refine ⟨⟨?_, ?_⟩, hlinksAfter, ?_, hexactAfter, ?_, ?_, ?_⟩
  · rw [← hafter, hkeeps.1]
  · exact fun x => (hsame x).1.trans (hkeeps.2 x)
  · intro parent child
    rw [hlinkedAfter]
    exact hlinked parent child
  · intro hflags
    exact (hnoAssert (unsaturated_of_counted hafter.symm hflags)).counted hafter.symm hexactAfter
      hflags
  · intro it hit other
    dsimp only
    by_cases heq : it = hash
    · rw [heq, update_self, h.uncached hash hnot, mem_union_iff, hfound]
      exact or_iff_left not_mem_nil
    · rw [update_of_ne heq]
      exact h.cached it ((mem_cons.mp hit).resolve_left heq) other
  · intro it hit
    rw [mem_cons, not_or] at hit
    dsimp only
    rw [update_of_ne hit.1]
    exact h.uncached it hit.2

end

end

end

/-- One more transaction is gone through. -/
theorem Processing.step (h : Processing env pool readded done state)
    (hpool : InOrder env readded pool) {hash : Uint256} (hreadded : hash ∈ readded)
    (hnot : hash ∉ done) (hsub : ∀ it ∈ done, it ∈ readded)
    (hclosed : pool.DoneClosed readded (hash :: done)) :
    Processing env pool readded (hash :: done) (updateFromBlockTx env readded state hash) := by
  by_cases hmem : hash ∈ pool.txids
  · obtain ⟨hlinks, hlinked⟩ := h.link hpool hmem hreadded
    rw [h.body hpool hmem hreadded]
    obtain ⟨hexact, hnoAssert⟩ := h.exact.linked h.noAssert
    refine h.count hpool hmem hsub hclosed hlinks hlinked hreadded hnot ⟨?_, fun x => ?_⟩
      hexact hnoAssert
    · rw [h.keeps.1]
    · exact (linkedEntry_static x).trans (h.keeps.2 x)
  · have hskip : updateFromBlockTx env readded state hash = state :=
      if_pos fun hin => hmem (h.keeps.txids ▸ hin)
    rw [hskip]
    exact h.skip hmem hnot

/-- The transactions that came back last are gone through first. What came back before spends from
nothing that was gone through. -/
theorem InOrder.processing (h : InOrder env readded pool) {before : List Uint256}
    (hsplit : before ++ done = readded) : Processing env pool readded done
      (done.foldr (fun hash state => updateFromBlockTx env readded state hash)
        { pool := pool }) := by
  induction done generalizing before with
  | nil => exact h.processing_nil
  | cons hash done ih =>
    have hnodup := h.nodup
    have horder := h.order
    rw [← hsplit] at hnodup horder
    have hin : ∀ it ∈ hash :: done, it ∈ readded := fun it hit => hsplit ▸ mem_append_right _ hit
    refine (ih (hsplit ▸ (append_cons before hash done).symm)).step h (hin hash mem_cons_self)
      (nodup_cons.mp (nodup_append.mp hnodup).2.1).1
        (fun it hit => hin it (mem_cons_of_mem _ hit)) ?_
    intro parent hparent child hchild hspends
    rw [← hsplit, mem_append] at hchild
    exact hchild.resolve_left fun hbefore =>
      (pairwise_append.mp horder).2.2 child hbefore parent hparent hspends

/-- When all were gone through the mempool is in order without exception. -/
theorem Processing.inOrder (h : Processing env pool readded readded state)
    (hpool : InOrder env readded pool) : InOrder env [] state.pool := by
  have hlinked : state.pool.Linked = pool.Spends := by
    funext parent child
    apply propext
    rw [h.linked]
    exact and_iff_left fun hparent _ => hparent
  have hcounted : pool.Counted readded readded = TransGen pool.Spends := by
    funext first last
    apply propext
    exact and_iff_left fun hfirst _ => hfirst
  refine ⟨⟨h.links, h.books hpool.kept.books, ?_, h.noAssert⟩, ?_, ?_, nodup_nil, .nil⟩
  · rw [hlinked, ← hcounted]
    exact h.exact
  · intro parent child
    rw [hlinked, h.spends]
    exact (and_iff_left fun hboth => absurd hboth.1 not_mem_nil).symm
  · exact fun _ _ _ hchild => absurd hchild not_mem_nil

/-- `UpdateTransactionsFromBlock` puts the mempool in order again. -/
theorem InOrder.updateTransactionsFromBlock (h : InOrder env readded pool) :
    InOrder env [] (CTxMemPool.updateTransactionsFromBlock env pool readded) := by
  have hstart := (h.processing (nil_append readded)).inOrder h
  unfold CTxMemPool.updateTransactionsFromBlock
  rw [foldl_reverse]
  generalize readded.foldr _ _ = state at hstart ⊢
  refine foldlRecOn state.descendants_to_remove _ (motive := InOrder env []) hstart ?_
  intro current hcurrent txid _
  split
  · exact (hcurrent.removeRecursive _).1
  · exact hcurrent

end Process

end CTxMemPool

end BtcSharp
