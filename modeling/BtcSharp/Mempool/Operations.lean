/-
# Calls on a mempool in order

What each call on the mempool preserves, but for the one that ends a reorganisation. A
transaction that comes back from a block may be spent by entries that are there already,
and these are not linked to it when it is added; so what is preserved is stated for a list
of such transactions, which is empty outside of reorganisations.
-/

import BtcSharp.Math.AssocList
import BtcSharp.Mempool.Addition

namespace BtcSharp

open CTxMemPoolEntry List Math Relation

namespace CTxMemPool

/-- The entry `child` spends from the entry `parent`. -/
def Spends (pool : CTxMemPool) (parent child : Uint256) : Prop :=
  parent ∈ pool.txids ∧ child ∈ pool.txids ∧ (pool.entry child).tx.SpendsFrom parent

/-- A mempool in order, where transactions that came back from blocks are linked among
themselves, in the order in which they came, but not to other entries that spend from
them. -/
structure InOrder (env : MempoolEnv) (readded : List Uint256) (pool : CTxMemPool) : Prop where
  kept : pool.Kept env (TransGen pool.Linked)
  linked : ∀ parent child, pool.Linked parent child ↔
    pool.Spends parent child ∧ ¬ (parent ∈ readded ∧ child ∉ readded)
  closed : ∀ parent child, pool.Spends parent child → child ∈ readded → parent ∈ readded
  nodup : readded.Nodup
  order : readded.Pairwise fun first second => ¬ pool.Spends second first

/-- Entries were removed, and those that are left are the same transactions. -/
structure Shrunk (pool after : CTxMemPool) : Prop where
  txids : ∀ it ∈ after.txids, it ∈ pool.txids
  static : ∀ it ∈ after.txids, (after.entry it).static = (pool.entry it).static

/-- Entries were removed, and an entry that is left has its parents, but for some that were
confirmed. -/
structure Left (gone : List Uint256) (pool after : CTxMemPool) :
    Prop extends Shrunk pool after where
  linked : ∀ parent child, pool.Linked parent child → parent ∈ after.txids → child ∈ after.txids →
    after.Linked parent child
  parents : ∀ parent child, pool.Linked parent child → child ∈ after.txids →
    parent ∈ after.txids ∨ parent ∈ gone

section Calls

variable {env : MempoolEnv} {pool after : CTxMemPool} {readded its gone : List Uint256}
  {entry : CTxMemPoolEntry}

/-- Outside of reorganisations the entries are linked to what they spend from. -/
theorem InOrder.linked_eq (h : InOrder env [] pool) : pool.Linked = pool.Spends := by
  funext parent child
  apply propext
  rw [h.linked]
  exact and_iff_left fun hboth => absurd hboth.1 not_mem_nil

theorem path_mem_of_spends {first last : Uint256} (hpath : TransGen pool.Spends first last) :
    first ∈ pool.txids ∧ last ∈ pool.txids := by
  obtain ⟨_, hfirst, -⟩ := TransGen.head'_iff.mp hpath
  obtain ⟨_, -, hlast⟩ := TransGen.tail'_iff.mp hpath
  exact ⟨hfirst.1, hlast.2.1⟩

theorem Shrunk.refl (pool : CTxMemPool) : Shrunk pool pool := ⟨fun _ h => h, fun _ _ => rfl⟩

variable {last : CTxMemPool} {it : Uint256} {before : CTxMemPoolEntry → CTxMemPoolEntry → Bool}
  {known : Option (List Uint256)} {m_to_remove : List Uint256} {cached : Bool}

theorem Shrunk.trans (h : Shrunk pool after) (hlast : Shrunk after last) : Shrunk pool last :=
  ⟨fun it hit => h.txids it (hlast.txids it hit), fun it hit =>
    (hlast.static it hit).trans (h.static it (hlast.txids it hit))⟩

theorem Shrunk.tx (h : Shrunk pool after) (hit : it ∈ after.txids) :
    (after.entry it).tx = (pool.entry it).tx :=
  tx_of_static (h.static it hit)

theorem Shrunk.spends (h : Shrunk pool after) {parent child : Uint256}
    (hspends : after.Spends parent child) : pool.Spends parent child := by
  obtain ⟨hparent, hchild, hinput⟩ := hspends
  exact ⟨h.txids parent hparent, h.txids child hchild, h.tx hchild ▸ hinput⟩

theorem Removed.shrunk (h : Removed pool its after) : Shrunk pool after :=
  ⟨fun it hit => ((h.txids it).mp hit).1, fun it _ => h.static it⟩

theorem Removed.spends (h : Removed pool its after) (parent child : Uint256) :
    after.Spends parent child ↔ pool.Spends parent child ∧ parent ∉ its ∧ child ∉ its := by
  unfold Spends
  rw [h.txids, h.txids, tx_of_static (h.static child)]
  constructor
  · rintro ⟨⟨hparent, hparentNot⟩, ⟨hchild, hchildNot⟩, hinput⟩
    exact ⟨⟨hparent, hchild, hinput⟩, hparentNot, hchildNot⟩
  · rintro ⟨⟨hparent, hchild, hinput⟩, hparentNot, hchildNot⟩
    exact ⟨⟨hparent, hparentNot⟩, ⟨hchild, hchildNot⟩, hinput⟩

theorem Left.refl (pool : CTxMemPool) (hlinks : pool.Links) : Left [] pool pool :=
  ⟨.refl pool, fun _ _ hlinked _ _ => hlinked, fun _ _ hlinked _ =>
    .inl (hlinks.linked_mem hlinked).1⟩

theorem Left.weaken (h : Left [] pool after) : Left gone pool after :=
  ⟨h.toShrunk, h.linked, fun parent child hlinked hchild =>
    .inl ((h.parents parent child hlinked hchild).resolve_right not_mem_nil)⟩

theorem Left.trans {gone' : List Uint256} (h : Left gone pool after)
    (hlast : Left gone' after last) : Left (gone ++ gone') pool last := by
  refine ⟨h.toShrunk.trans hlast.toShrunk, fun parent child hlinked hparent hchild => ?_,
    fun parent child hlinked hchild => ?_⟩
  · exact hlast.linked parent child (h.linked parent child hlinked (hlast.txids parent hparent)
      (hlast.txids child hchild)) hparent hchild
  cases h.parents parent child hlinked (hlast.txids child hchild) with
  | inr hgone => exact .inr (mem_append_left _ hgone)
  | inl hparent =>
    have hstill := h.linked parent child hlinked hparent (hlast.txids child hchild)
    exact (hlast.parents parent child hstill hchild).imp_right (mem_append_right _)

theorem Removed.left (h : Removed pool its after) (hlinks : pool.Links)
    (hgone : ∀ parent child, pool.Linked parent child → parent ∈ its → child ∈ its ∨
      parent ∈ gone) : Left gone pool after := by
  refine ⟨h.shrunk, fun parent child hlinked hparent hchild => ?_,
    fun parent child hlinked hchild => ?_⟩
  · exact (h.linked parent child).mpr ⟨hlinked, ((h.txids parent).mp hparent).2,
      ((h.txids child).mp hchild).2⟩
  by_cases hparent : parent ∈ its
  · exact .inr ((hgone parent child hlinked hparent).resolve_left ((h.txids child).mp hchild).2)
  · exact .inl ((h.txids parent).mpr ⟨(hlinks.linked_mem hlinked).1, hparent⟩)

theorem Books.lookup_mem (h : pool.Books env) {prevout : COutPoint}
    (hlookup : pool.mapNextTx.lookup prevout = some it) : it ∈ pool.txids :=
  ((h.nextTx prevout it).mp (mem_of_lookup hlookup)).1

/-! ## Removal -/

/-- Entries leave a mempool that is in order afterwards. -/
def LeftInOrder (env : MempoolEnv) (readded : List Uint256) (pool after : CTxMemPool) : Prop :=
  InOrder env readded after ∧ Left [] pool after

section Removal

variable (h : InOrder env readded pool)
include h

/-- `RemoveStaged` on a mempool in order. -/
theorem InOrder.removeStaged {updateDescendants : Bool}
    (hremovable : pool.Removable its updateDescendants) :
    InOrder env readded (CTxMemPool.removeStaged env pool its updateDescendants) ∧
      Removed pool its (CTxMemPool.removeStaged env pool its updateDescendants) := by
  obtain ⟨hkept, hremoved⟩ := h.kept.removeStaged hremovable
  refine ⟨⟨hkept, fun parent child => ?_, ?_, h.nodup, ?_⟩, hremoved⟩
  · rw [hremoved.linked, hremoved.spends, h.linked]
    exact and_right_comm
  · exact fun parent child hspends => h.closed parent child (hremoved.shrunk.spends hspends)
  · exact h.order.imp fun hnot hspends => hnot (hremoved.shrunk.spends hspends)

/-- Entries with all their descendants can be removed. -/
theorem InOrder.removeDescendants (hits : ∀ it ∈ its, it ∈ pool.txids) :
      LeftInOrder env readded pool
      (CTxMemPool.removeStaged env pool (pool.calculateAllDescendants its) false) := by
  obtain ⟨hnodup, hclosed, hmem⟩ := h.kept.links.calculateAllDescendants hits
  have hremovable : pool.Removable (pool.calculateAllDescendants its) false := by
    refine ⟨hnodup, fun other hother => ?_, hclosed⟩
    obtain ⟨it, hit, hreach⟩ := (hmem other).mp hother
    rcases reflTransGen_iff_eq_or_transGen.mp hreach with rfl | hpath
    · exact hits _ hit
    · exact (h.kept.links.path_mem hpath).2
  obtain ⟨horder, hremoved⟩ := h.removeStaged hremovable
  refine ⟨horder, hremoved.left h.kept.links fun parent child hlinked hparent => .inl ?_⟩
  exact ClosedUnderChildren.path_mem hclosed hparent (.single hlinked)

theorem InOrder.removeRecursive (origTx : CTransaction) :
    LeftInOrder env readded pool (CTxMemPool.removeRecursive env pool origTx) := by
  unfold CTxMemPool.removeRecursive
  split
  · next hmem =>
    exact @InOrder.removeDescendants env pool readded [env.txid origTx] h fun it hit =>
      mem_singleton.mp hit ▸ hmem
  · have hchildren : ∀ it ∈ childrenOf env pool origTx, it ∈ pool.txids := by
      intro it hit
      obtain ⟨_, -, hlookup⟩ := mem_filterMap.mp (mem_dedup.mp hit)
      exact h.kept.books.lookup_mem hlookup
    have hnone : ((childrenOf env pool origTx).any fun it => it ∉ pool.txids) = false := by
      rw [any_eq_false]
      exact fun it hit => by simpa using hchildren it hit
    dsimp only
    rw [hnone, Bool.or_false]
    exact h.removeDescendants hchildren

/-- Prioritisation alone changes neither entries nor maps. -/
theorem InOrder.of_deltas {mapDeltas : Uint256 → Int} {saturated : Bool}
    (hflag : saturated = false → pool.saturated = false) :
    InOrder env readded { pool with mapDeltas := mapDeltas, saturated := saturated } := by
  obtain ⟨⟨hlinks, hbooks, hexact, hnoAssert⟩, hlinked, hclosed, hnodup, horder⟩ := h
  have hsound : ∀ q, Sound { pool with mapDeltas := mapDeltas, saturated := saturated } q →
    pool.Sound q :=
    fun q hsound heq => (hsound heq).imp_left hflag
  refine ⟨⟨{ hlinks with }, { hbooks with }, ⟨?_, ?_, hexact.sigOps⟩,
    fun hflags => hnoAssert (hflags.imp_left hflag)⟩, hlinked, hclosed, hnodup, horder⟩
  · exact fun it hit q hafter => hexact.ancestors it hit q (hsound q hafter)
  · exact fun it hit q hq hafter => hexact.descendants it hit q hq (hsound q hafter)

theorem InOrder.clearPrioritisation (hash : Uint256) :
    LeftInOrder env readded pool (pool.clearPrioritisation hash) :=
  ⟨h.of_deltas id, ⟨fun _ hit => hit, fun _ _ => rfl⟩, fun _ _ hlinked _ _ => hlinked,
    fun _ _ hlinked _ => .inl (h.kept.links.linked_mem hlinked).1⟩

theorem InOrder.removeConflicts (tx : CTransaction) :
    LeftInOrder env readded pool (CTxMemPool.removeConflicts env pool tx) := by
  refine foldlRecOn tx.vin _ (motive := LeftInOrder env readded pool)
    ⟨h, .refl pool h.kept.links⟩ ?_
  rintro current ⟨horder, hleft⟩ _ -
  dsimp only
  split
  · exact ⟨horder, hleft⟩
  split
  · obtain ⟨hcleared, hsame⟩ := horder.clearPrioritisation (env.txid (current.entry ‹_›).tx)
    obtain ⟨hremoved, hless⟩ := hcleared.removeRecursive (current.entry ‹_›).tx
    exact ⟨hremoved, (hleft.trans hsame).trans hless⟩
  · exact ⟨horder, hleft⟩

/-- The transactions of a block spend from earlier ones of the block, where they spend from
the mempool. -/
def TopologicallyOrdered (env : MempoolEnv) (pool : CTxMemPool) (vtx : List CTransaction) : Prop :=
  ∀ before tx rest, vtx = before ++ tx :: rest → ∀ parent, pool.Spends parent (env.txid tx) →
    parent ∈ before.map env.txid

/-- A transaction of a block leaves the mempool when none of its parents is there. -/
theorem InOrder.removeForBlockTx (tx : CTransaction) (hparents : ∀ parent,
    ¬ pool.Spends parent (env.txid tx)) :
    InOrder env readded (CTxMemPool.removeForBlockTx env pool tx) ∧
      Left [env.txid tx] pool (CTxMemPool.removeForBlockTx env pool tx) ∧
      env.txid tx ∉ (CTxMemPool.removeForBlockTx env pool tx).txids := by
  obtain ⟨current, hcurrent, horder, hleft, hgone⟩ : ∃ current,
      (if env.txid tx ∈ pool.txids then .removeStaged env pool [env.txid tx] true
        else pool) = current ∧ InOrder env readded current ∧ Left [env.txid tx] pool current ∧
        env.txid tx ∉ current.txids := by
    refine ⟨_, rfl, ?_⟩
    split
    · next hmem =>
      have hremovable : pool.Removable [env.txid tx] true := by
        refine ⟨nodup_singleton _, fun it hit => mem_singleton.mp hit ▸ hmem, ?_⟩
        intro it hit parent hlinked
        rw [mem_singleton.mp hit] at hlinked
        exact absurd ((h.linked parent _).mp hlinked).1 (hparents parent)
      obtain ⟨horder, hremoved⟩ := h.removeStaged hremovable
      exact ⟨horder, hremoved.left h.kept.links fun parent child _ => .inr,
        fun hthere => ((hremoved.txids _).mp hthere).2 (mem_singleton.mpr rfl)⟩
    · next hnot => exact ⟨h, (Left.refl pool h.kept.links).weaken, hnot⟩
  unfold CTxMemPool.removeForBlockTx
  rw [hcurrent]
  obtain ⟨hconflicts, hless⟩ := horder.removeConflicts tx
  obtain ⟨hcleared, hsame⟩ := hconflicts.clearPrioritisation (env.txid tx)
  have hall := hless.trans hsame
  exact ⟨hcleared, hleft.trans hall, fun hthere => hgone (hall.txids _ hthere)⟩

theorem InOrder.removeForBlock {vtx : List CTransaction}
    (hordered : TopologicallyOrdered env pool vtx) :
    InOrder env readded (CTxMemPool.removeForBlock env pool vtx) ∧
      Left (vtx.map env.txid) pool (CTxMemPool.removeForBlock env pool vtx) ∧
      ∀ id ∈ vtx.map env.txid, id ∉ (CTxMemPool.removeForBlock env pool vtx).txids := by
  induction vtx using reverseRecOn with
  | nil => exact ⟨h, .refl pool h.kept.links, nofun⟩
  | append_singleton before tx ih =>
    obtain ⟨horder, hleft, hgone⟩ := ih fun first other rest hsplit =>
      hordered first other (rest ++ [tx]) (by rw [hsplit, append_assoc]; rfl)
    have hparents : ∀ parent, ¬ (CTxMemPool.removeForBlock env pool before).Spends parent
        (env.txid tx) := by
      intro parent hspends
      exact hgone parent (hordered before tx [] rfl parent (hleft.toShrunk.spends hspends))
        hspends.1
    obtain ⟨hnext, hless, hself⟩ := horder.removeForBlockTx tx hparents
    unfold CTxMemPool.removeForBlock at *
    rw [foldl_append, map_append]
    refine ⟨hnext, hleft.trans hless, fun id hid => ?_⟩
    rcases mem_append.mp hid with hid | hid
    · exact fun hthere => hgone id hid (hless.txids id hthere)
    · rw [map_singleton, mem_singleton] at hid
      exact hid ▸ hself

theorem InOrder.expire (time : Int) :
    LeftInOrder env readded pool (CTxMemPool.expire env pool time) :=
  h.removeDescendants fun _ hit => (mem_filter.mp hit).1

end Removal

theorem firstByScore_mem (hfirst : pool.firstByScore before its = some it) : it ∈ its := by
  induction its with
  | nil => cases hfirst
  | cons head its ih =>
    unfold firstByScore at hfirst
    split at hfirst
    case h_1 => exact Option.some.inj hfirst ▸ mem_cons_self
    case h_2 other hother =>
      split at hfirst
      · exact mem_cons_of_mem _ (ih (hother.trans hfirst))
      · exact Option.some.inj hfirst ▸ mem_cons_self

theorem InOrder.trimToSize {usage : CTxMemPool → Nat} {sizelimit rounds : Nat} :
    ∀ {pool : CTxMemPool}, InOrder env readded pool →
      LeftInOrder env readded pool
        (CTxMemPool.trimToSize env usage before sizelimit rounds pool) := by
  induction rounds with
  | zero => exact fun {pool} h => ⟨h, .refl pool h.kept.links⟩
  | succ rounds ih =>
    intro pool h
    unfold CTxMemPool.trimToSize
    split
    · cases hfirst : pool.firstByScore before pool.txids with
      | none => exact ⟨h, .refl pool h.kept.links⟩
      | some it =>
        obtain ⟨horder, hfirst⟩ := @InOrder.removeDescendants env pool readded [it] h
          fun other hother => mem_singleton.mp hother ▸ firstByScore_mem hfirst
        obtain ⟨hrest, hlast⟩ := ih horder
        exact ⟨hrest, hfirst.trans hlast⟩
    · exact ⟨h, .refl pool h.kept.links⟩

/-! ## Additions -/

/-- What spends from what when an entry was added. -/
theorem Added.spends (h : Added env pool entry after) (haddable : Addable env pool entry)
    (parent child : Uint256) :
    after.Spends parent child ↔ pool.Spends parent child ∨
      (child = env.txid entry.tx ∧ parent ∈ pool.txids ∧ entry.tx.SpendsFrom parent) ∨
      (parent = env.txid entry.tx ∧ child ∈ pool.txids ∧
        (pool.entry child).tx.SpendsFrom (env.txid entry.tx)) := by
  unfold Spends
  rw [h.mem_txids, h.mem_txids]
  by_cases hchild : child = env.txid entry.tx
  · subst hchild
    rw [tx_of_static h.new]
    constructor
    · rintro ⟨hparent | rfl, -, hspends⟩
      · exact .inr (.inl ⟨rfl, hparent, hspends⟩)
      · exact absurd hspends haddable.noLoop
    rintro (⟨-, hold, -⟩ | ⟨-, hparent, hspends⟩ | ⟨-, hold, -⟩)
    · exact absurd hold haddable.new
    · exact ⟨.inl hparent, .inr rfl, hspends⟩
    · exact absurd hold haddable.new
  · rw [tx_of_static (h.static child hchild)]
    constructor
    · rintro ⟨hparent | rfl, hmem, hspends⟩
      · exact .inl ⟨hparent, hmem.resolve_right hchild, hspends⟩
      · exact .inr (.inr ⟨rfl, hmem.resolve_right hchild, hspends⟩)
    rintro (⟨hparent, hmem, hspends⟩ | ⟨heq, -⟩ | ⟨rfl, hmem, hspends⟩)
    · exact ⟨.inl hparent, .inl hmem, hspends⟩
    · exact absurd heq hchild
    · exact ⟨.inr rfl, .inl hmem, hspends⟩

/-- An entry is added from which no entry spends. -/
theorem InOrder.addEntry (h : InOrder env [] pool) (hfresh : entry.Fresh env)
    (haddable : Addable env pool entry)
    (hunspent : ∀ it ∈ pool.txids, ¬ (pool.entry it).tx.SpendsFrom (env.txid entry.tx))
    (hknown : ∀ ancestors ∈ known, pool.AncestorsOf entry ancestors) :
    InOrder env [] (CTxMemPool.addEntry env pool entry known) ∧
      Added env pool entry (CTxMemPool.addEntry env pool entry known) := by
  obtain ⟨hkept, hadded⟩ := h.kept.addEntry hfresh haddable hknown
  refine ⟨⟨hkept, fun parent child => ?_, fun _ _ _ hchild => absurd hchild not_mem_nil,
    nodup_nil, .nil⟩, hadded⟩
  have hfree : ∀ parent child, ¬ (parent ∈ ([] : List Uint256) ∧ child ∉ ([] : List Uint256)) :=
    fun parent child hboth => absurd hboth.1 not_mem_nil
  rw [hadded.linked, hadded.spends haddable, h.linked, and_iff_left (hfree parent child),
    and_iff_left (hfree parent child)]
  refine or_congr_right (or_iff_left ?_).symm
  rintro ⟨-, hchild, hspends⟩
  exact hunspent child hchild hspends

/-- A transaction that comes back from a block: what it spends from came back before, and
nothing that came back spends from it. -/
structure Readdable (env : MempoolEnv) (readded : List Uint256) (pool : CTxMemPool)
    (entry : CTxMemPoolEntry) : Prop where
  addable : Addable env pool entry
  new : env.txid entry.tx ∉ readded
  parents : ∀ parent ∈ pool.txids, entry.tx.SpendsFrom parent → parent ∈ readded
  order : ∀ it ∈ pool.txids, it ∈ readded → ¬ (pool.entry it).tx.SpendsFrom (env.txid entry.tx)

/-- A transaction that comes back is linked to nothing that spends from it. -/
theorem InOrder.readdEntry (h : InOrder env readded pool) (hfresh : entry.Fresh env)
    (hreaddable : Readdable env readded pool entry)
    (hknown : ∀ ancestors ∈ known, pool.AncestorsOf entry ancestors) :
    InOrder env (readded ++ [env.txid entry.tx]) (CTxMemPool.addEntry env pool entry known) := by
  have haddable := hreaddable.addable
  obtain ⟨hkept, hadded⟩ := h.kept.addEntry hfresh haddable hknown
  have hmem : ∀ it, it ∈ readded ++ [env.txid entry.tx] ↔ it ∈ readded ∨ it = env.txid entry.tx :=
    fun it => by rw [mem_append, mem_singleton]
  have hne := haddable.ne
  refine ⟨hkept, fun parent child => ?_, ?_, ?_, ?_⟩
  · rw [hadded.linked, hadded.spends haddable, h.linked, hmem, hmem]
    constructor
    · rintro (⟨hspends, hnot⟩ | ⟨rfl, hparent, hspends⟩)
      · refine ⟨.inl hspends, ?_⟩
        rintro ⟨hparent, hchild⟩
        exact hnot ⟨hparent.resolve_right (hne parent hspends.1), fun hin => hchild (.inl hin)⟩
      · exact ⟨.inr (.inl ⟨rfl, hparent, hspends⟩), fun hnot => hnot.2 (.inr rfl)⟩
    rintro ⟨hspends | hnew | ⟨rfl, hchild, hspends⟩, hnot⟩
    · refine .inl ⟨hspends, ?_⟩
      rintro ⟨hparent, hchild⟩
      exact hnot ⟨.inl hparent, fun hin =>
        hchild (hin.resolve_right (hne child hspends.2.1))⟩
    · exact .inr hnew
    refine absurd ⟨.inr rfl, ?_⟩ hnot
    rintro (hin | rfl)
    · exact hreaddable.order child hchild hin hspends
    · exact haddable.new hchild
  · intro parent child hspends hchild
    rw [hmem]
    rcases (hadded.spends haddable parent child).mp hspends with
      hold | ⟨-, hparent, hspends⟩ | ⟨rfl, -⟩
    · have hin := ((hmem child).mp hchild).resolve_right (hne child hold.2.1)
      exact .inl (h.closed parent child hold hin)
    · exact .inl (hreaddable.parents parent hparent hspends)
    · exact .inr rfl
  · rw [← concat_eq_append]
    exact h.nodup.concat hreaddable.new
  · rw [pairwise_append]
    refine ⟨?_, pairwise_singleton _ _, ?_⟩
    · refine h.order.imp_of_mem ?_
      intro first second hfirst hsecond hnot hspends
      rcases (hadded.spends haddable second first).mp hspends with
        hold | ⟨rfl, -⟩ | ⟨rfl, -⟩
      · exact hnot hold
      · exact hreaddable.new hfirst
      · exact hreaddable.new hsecond
    · intro first hfirst second hsecond hspends
      rw [mem_singleton.mp hsecond] at hspends
      rcases (hadded.spends haddable _ first).mp hspends with
        hold | ⟨rfl, -⟩ | ⟨-, hmem, hspends⟩
      · exact haddable.new hold.1
      · exact hreaddable.new hfirst
      · exact hreaddable.order first hmem hfirst hspends

/-- Transactions that can be added one after the other. They are new, they spend nothing
that is spent in the mempool or by another one, and nothing spends from one that comes
later. -/
structure Admissible (env : MempoolEnv) (pool : CTxMemPool) (txs : List CTransaction) : Prop where
  new : ∀ tx ∈ txs, env.txid tx ∉ pool.txids
  nodup : (txs.map env.txid).Nodup
  unspent : ∀ tx ∈ txs, ∀ txin ∈ tx.vin, txin.prevout ∉ pool.mapNextTx.map Prod.fst
  noConflict : txs.Pairwise fun first second =>
    ∀ txin ∈ second.vin, ∀ other ∈ first.vin, other.prevout ≠ txin.prevout
  noLoop : ∀ tx ∈ txs, ¬ tx.SpendsFrom (env.txid tx)
  order : txs.Pairwise fun first second => ¬ first.SpendsFrom (env.txid second)
  noSpender : ∀ tx ∈ txs, ∀ it ∈ pool.txids, ¬ (pool.entry it).tx.SpendsFrom (env.txid tx)

theorem Admissible.addable {txs : List CTransaction} (h : Admissible env pool (entry.tx :: txs)) :
    Addable env pool entry :=
  ⟨h.new _ mem_cons_self, h.unspent _ mem_cons_self, h.noLoop _ mem_cons_self⟩

/-- The transactions that follow can be added when the first one was. -/
theorem Admissible.tail {txs : List CTransaction} (h : Admissible env pool (entry.tx :: txs))
    (hadded : Added env pool entry after) (hbooks : after.Books env) (hbefore : pool.Books env) :
    Admissible env after txs := by
  obtain ⟨hnotin, hnodup⟩ := nodup_cons.mp h.nodup
  obtain ⟨hconflicts, hnoConflict⟩ := pairwise_cons.mp h.noConflict
  obtain ⟨hlater, horder⟩ := pairwise_cons.mp h.order
  have hne := h.addable.ne
  have hold : ∀ {tx}, tx ∈ txs → tx ∈ entry.tx :: txs := mem_cons_of_mem _
  refine ⟨?_, hnodup, ?_, hnoConflict, fun tx htx => h.noLoop tx (hold htx), horder, ?_⟩
  · intro tx htx hmem
    rcases (hadded.mem_txids _).mp hmem with hthere | heq
    · exact h.new tx (hold htx) hthere
    · exact hnotin (mem_map.mpr ⟨tx, htx, heq⟩)
  · intro tx htx txin htxin hkey
    obtain ⟨⟨_, it⟩, hpair, rfl⟩ := mem_map.mp hkey
    obtain ⟨hit, other, hother, hspent⟩ := (hbooks.nextTx _ it).mp hpair
    rcases (hadded.mem_txids it).mp hit with hthere | rfl
    · rw [tx_of_static (hadded.static it (hne it hthere))] at hother
      exact h.unspent tx (hold htx) txin htxin (mem_map.mpr
        ⟨_, (hbefore.nextTx _ it).mpr ⟨hthere, other, hother, hspent⟩, rfl⟩)
    · rw [tx_of_static hadded.new] at hother
      exact hconflicts tx htx txin htxin other hother hspent
  · intro tx htx it hit
    rcases (hadded.mem_txids it).mp hit with hthere | rfl
    · rw [tx_of_static (hadded.static it (hne it hthere))]
      exact h.noSpender tx (hold htx) it hthere
    · rw [tx_of_static hadded.new]
      exact hlater tx htx

theorem InOrder.addEntries {entries : List CTxMemPoolEntry} :
    ∀ {pool : CTxMemPool}, InOrder env [] pool → (∀ entry ∈ entries, entry.Fresh env) →
      Admissible env pool (entries.map (·.tx)) →
      InOrder env []
        (entries.foldl (fun pool entry => CTxMemPool.addEntry env pool entry none) pool) := by
  induction entries with
  | nil => exact fun h _ _ => h
  | cons entry entries ih =>
    intro pool h hfresh hadmissible
    obtain ⟨horder, hadded⟩ := h.addEntry (hfresh entry mem_cons_self) hadmissible.addable
      (hadmissible.noSpender _ mem_cons_self)
      fun ancestors (hknown : ancestors ∈ none) => absurd hknown (Option.not_mem_none _)
    exact ih horder (fun other hother => hfresh other (mem_cons_of_mem _ hother))
      (hadmissible.tail hadded horder.kept.books h.kept.books)

/-- Ancestors that were found before a removal are still the ancestors after it, unless one
of them was removed. -/
theorem InOrder.cachedAncestors (h : InOrder env readded pool)
    (hremovable : pool.Removable its false)
    {cached : Bool} (hcached : cached = true → ∀ it ∈ its, ¬ entry.tx.SpendsFrom it) :
    (CTxMemPool.removeStaged env pool its false).AncestorsOf entry
      (assumeCalculateMemPoolAncestors env (if cached then pool
        else CTxMemPool.removeStaged env pool its false) entry true) := by
  obtain ⟨horder, hremoved⟩ := h.removeStaged hremovable
  cases cached with
  | false => exact horder.kept.links.searchedAncestors entry
  | true =>
    have hfree := hcached rfl
    obtain ⟨hnodup, hmem⟩ := @Links.searchedAncestors env pool h.kept.links entry
    refine ⟨hnodup, fun other => (hmem other).trans ?_⟩
    have hreach : ∀ parent, parent ∉ its → (ReflTransGen pool.Linked other parent ↔
        ReflTransGen (CTxMemPool.removeStaged env pool its false).Linked other parent) := by
      intro parent hparent
      rw [reflTransGen_iff_eq_or_transGen, reflTransGen_iff_eq_or_transGen]
      refine or_congr_right ?_
      by_cases hother : other ∈ its
      · constructor
        · intro hpath
          exact absurd (ClosedUnderChildren.path_mem hremovable.2.2 hother hpath) hparent
        intro hpath
        have hthere := (horder.kept.links.path_mem hpath).1
        exact absurd hother ((hremoved.txids other).mp hthere).2
      · exact (hremoved.paths hremovable hother hparent).symm
    constructor
    · rintro ⟨parent, hparent, hspends, hpath⟩
      have hnot : parent ∉ its := fun hin => hfree parent hin hspends
      exact ⟨parent, (hremoved.txids parent).mpr ⟨hparent, hnot⟩, hspends,
        (hreach parent hnot).mp hpath⟩
    rintro ⟨parent, hparent, hspends, hpath⟩
    obtain ⟨hthere, hnot⟩ := (hremoved.txids parent).mp hparent
    exact ⟨parent, hthere, hspends, (hreach parent hnot).mpr hpath⟩

/-- A change set that may be applied: what it removes contains its children, its additions
can be added to what is left, and when the ancestors of the first one were found before the
removal, it does not spend from what is removed. -/
structure Applicable (env : MempoolEnv) (pool : CTxMemPool) (m_to_remove : List Uint256)
    (additions : List Addition) (cached : Bool) : Prop where
  removable : pool.Removable m_to_remove false
  admissible : Admissible env (removeStaged env pool m_to_remove false) (additions.map (·.tx))
  ancestors : cached = true → ∀ first ∈ additions.head?, ∀ it ∈ m_to_remove,
    ¬ first.tx.SpendsFrom it

theorem InOrder.apply (h : InOrder env [] pool) {additions : List Addition}
    (happlicable : Applicable env pool m_to_remove additions cached) :
    InOrder env [] (CTxMemPool.apply env pool m_to_remove additions cached) := by
  have hremovable := happlicable.removable
  have horder := (h.removeStaged hremovable).1
  have hadmissible := happlicable.admissible
  cases additions with
  | nil => exact horder
  | cons first rest =>
    have htxs : ((first :: rest).map (·.tx)) =
        (stageAddition env pool first).tx :: ((rest.map (stageAddition env pool)).map (·.tx)) := by
      rw [stageAddition_tx, List.map_map]
      exact congrArg _ (map_congr_left fun addition _ => (stageAddition_tx addition).symm)
    rw [htxs] at hadmissible
    have hancestors := @InOrder.cachedAncestors env pool [] m_to_remove
      (stageAddition env pool first) h hremovable cached (by
        intro hcached it hit
        rw [stageAddition_tx]
        exact happlicable.ancestors hcached first rfl it hit)
    obtain ⟨hfirst, hadded⟩ := horder.addEntry (stageAddition_fresh first) hadmissible.addable
      (hadmissible.noSpender _ mem_cons_self) fun ancestors hknown =>
        Option.mem_some.mp hknown ▸ hancestors
    refine hfirst.addEntries ?_ (hadmissible.tail hadded hfirst.kept.books horder.kept.books)
    intro entry hentry
    obtain ⟨addition, -, rfl⟩ := mem_map.mp hentry
    exact stageAddition_fresh addition

/-- A change set that brings back a transaction from a block. -/
structure Returnable (env : MempoolEnv) (readded : List Uint256) (pool : CTxMemPool)
    (m_to_remove : List Uint256) (addition : Addition) (cached : Bool) : Prop where
  removable : pool.Removable m_to_remove false
  readdable : Readdable env readded (removeStaged env pool m_to_remove false)
    (stageAddition env pool addition)
  ancestors : cached = true → ∀ it ∈ m_to_remove, ¬ addition.tx.SpendsFrom it

theorem InOrder.applyReadded (h : InOrder env readded pool) {addition : Addition}
    (hreturnable : Returnable env readded pool m_to_remove addition cached) :
    InOrder env (readded ++ [env.txid addition.tx])
      (CTxMemPool.apply env pool m_to_remove [addition] cached) := by
  have horder := (h.removeStaged hreturnable.removable).1
  have hancestors := @InOrder.cachedAncestors env pool readded m_to_remove
    (stageAddition env pool addition) h hreturnable.removable cached (by
      rw [stageAddition_tx]
      exact hreturnable.ancestors)
  rw [← @stageAddition_tx env pool addition]
  exact horder.readdEntry (stageAddition_fresh addition) hreturnable.readdable
    fun ancestors hknown => Option.mem_some.mp hknown ▸ hancestors

/-! ## Prioritisation -/

/-- Neither the graph nor the maps change when totals and modified fees do. -/
theorem Links.of_same (h : pool.Links) (htxids : after.txids = pool.txids)
    (hsame : ∀ it, (after.entry it).m_parents = (pool.entry it).m_parents ∧
      (after.entry it).m_children = (pool.entry it).m_children) :
    after.Links ∧ after.Linked = pool.Linked := by
  obtain ⟨hparents, hchildren⟩ := forall_and.mp hsame
  have hlinked : after.Linked = pool.Linked := by
    funext parent child
    unfold Linked
    rw [htxids, hparents]
  obtain ⟨hnodup, hmem, hparentsNodup, hchildrenNodup, hiff, hacyclic⟩ := h
  refine ⟨⟨?_, ?_, ?_, ?_, ?_, ?_⟩, hlinked⟩ <;>
    simp only [htxids, hparents, hchildren, hlinked] <;> assumption

theorem nodes_congr (htxids : after.txids = pool.txids) : after.nodes = pool.nodes :=
  congrArg toFinset htxids

theorem Books.of_same (h : pool.Books env) (htxids : after.txids = pool.txids)
    (hnextTx : after.mapNextTx = pool.mapNextTx) (hsize : after.totalTxSize = pool.totalTxSize)
    (hfee : after.m_total_fee = pool.m_total_fee)
    (hentry : ∀ it, (after.entry it).tx = (pool.entry it).tx ∧
      (after.entry it).nFee = (pool.entry it).nFee ∧
      (after.entry it).sigOpCost = (pool.entry it).sigOpCost) : after.Books env := by
  have hnodes := nodes_congr htxids
  obtain ⟨htx, hcosts⟩ := forall_and.mp hentry
  obtain ⟨hnFee, hsigOps⟩ := forall_and.mp hcosts
  refine ⟨?_, ?_, ?_, ?_, ?_⟩
  · simpa only [htxids, htx] using h.hash
  · simpa only [hnextTx, htxids, htx] using h.nextTx
  · simpa only [hnextTx] using h.nextTx_nodup
  · simpa only [hsize, hnodes, getTxSize, htx, hsigOps] using h.totalTxSize
  · simpa only [hfee, hnodes, hnFee] using h.totalFee

/-- What a change of the fee adds to a total. -/
def feeChange (nFeeDelta : Int) (q : Quantity) : Int := if q = .fees then nFeeDelta else 0

/-- What `PrioritiseTransaction` does to an entry. -/
def reprioritise (pool : CTxMemPool) (hash : Uint256) (nFeeDelta : Int)
    (ancestors descendants : List Uint256) (x : Uint256) : CTxMemPoolEntry :=
  if x = hash then (pool.entry hash).updateModifiedFee nFeeDelta
  else { pool.entry x with
    withAncestors := if x ∈ descendants then (pool.entry x).withAncestors.update
      (feeChange nFeeDelta)
      else (pool.entry x).withAncestors
    withDescendants := if x ∈ ancestors
      then (pool.entry x).withDescendants.update (feeChange nFeeDelta)
      else (pool.entry x).withDescendants }

/-- What `PrioritiseTransaction` does, in one step. -/
theorem Links.prioritise_eq (h : pool.Links) {hash : Uint256} (hmem : hash ∈ pool.txids)
    (nFeeDelta : Int) :
    ∃ ancestors descendants, (∀ it, it ∈ ancestors ↔ TransGen pool.Linked it hash) ∧
      (∀ it, it ∈ descendants ↔ TransGen pool.Linked hash it) ∧
      prioritiseTransaction env pool hash nFeeDelta =
        let delta := saturatingAdd (pool.mapDeltas hash) nFeeDelta
        { pool with
          entry := pool.reprioritise hash nFeeDelta ancestors descendants
          mapDeltas := Function.update pool.mapDeltas hash delta
          saturated := pool.saturated || decide (delta ≠ pool.mapDeltas hash + nFeeDelta) } := by
  unfold prioritiseTransaction
  dsimp only
  rw [if_pos hmem]
  generalize saturatingAdd (pool.mapDeltas hash) nFeeDelta = delta
  generalize hfirst : ({ pool with
      mapDeltas := Function.update pool.mapDeltas hash delta
      saturated := pool.saturated || decide (delta ≠ pool.mapDeltas hash + nFeeDelta) } :
        CTxMemPool).modify hash (fun e => e.updateModifiedFee nFeeDelta) = first
  have hself : first.entry hash = (pool.entry hash).updateModifiedFee nFeeDelta := by
    rw [← hfirst]
    exact Function.update_self _ _ _
  have hother : ∀ x, x ≠ hash → first.entry x = pool.entry x := by
    intro x hx
    rw [← hfirst]
    exact Function.update_of_ne hx _ _
  have hneighbours : ∀ x, (first.entry x).m_parents = (pool.entry x).m_parents ∧
      (first.entry x).m_children = (pool.entry x).m_children := by
    intro x
    by_cases hx : x = hash
    · rw [hx, hself]
      exact ⟨rfl, rfl⟩
    · rw [hother x hx]
      exact ⟨rfl, rfl⟩
  obtain ⟨hlinks, hlinked⟩ := h.of_same (by rw [← hfirst]; rfl) hneighbours
  have hmemFirst : hash ∈ first.txids := by
    rw [← hfirst]
    exact hmem
  obtain ⟨hnodup, hancestors⟩ := @Links.ancestors env first hlinks hash hmemFirst
  generalize assumeCalculateMemPoolAncestors env first (first.entry hash) false = ancestors at *
  have hsecond :=
  @modifyAll_eq first ancestors hnodup fun e => e.updateDescendantState 0 nFeeDelta 0
  generalize first.modifyAll ancestors
    (fun e => e.updateDescendantState 0 nFeeDelta 0) = second at *
  obtain ⟨hlinks₂, hlinked₂⟩ := @Links.of_same first second hlinks (by rw [hsecond]) (by
    intro x
    rw [hsecond]
    dsimp only
    split <;> exact ⟨rfl, rfl⟩)
  obtain ⟨hnodup₂, hdescendants⟩ := @Links.strict_descendants second hash hlinks₂ (by
    rw [hsecond]
    exact hmemFirst)
  rw [modifyAll_eq hnodup₂]
  generalize (second.calculateDescendants hash []).erase hash = descendants at *
  rw [hlinked₂, hlinked] at hdescendants
  rw [hlinked] at hancestors
  refine ⟨ancestors, descendants, hancestors, hdescendants, ?_⟩
  have hentry : (fun it => if it ∈ descendants then
        (second.entry it).updateAncestorState 0 nFeeDelta 0 0 else second.entry it) =
      pool.reprioritise hash nFeeDelta ancestors descendants := by
    funext x
    rw [hsecond]
    unfold reprioritise
    dsimp only
    by_cases hx : x = hash
    · subst hx
      rw [if_pos rfl, if_neg fun hin => h.acyclic x ((hdescendants x).mp hin),
        if_neg fun hin => h.acyclic x ((hancestors x).mp hin), hself]
    rw [hother x hx]
    split <;> split <;> rfl
  rw [hentry, hsecond, ← hfirst]
  rfl

section Reprioritised

variable {hash : Uint256} {nFeeDelta : Int} {ancestors descendants : List Uint256}
  (hentry : after.entry = pool.reprioritise hash nFeeDelta ancestors descendants)

include hentry

theorem reprioritised_self : after.entry hash = (pool.entry hash).updateModifiedFee nFeeDelta := by
  rw [hentry]
  exact if_pos rfl

theorem reprioritised_other (x : Uint256) (hx : x ≠ hash) : after.entry x = { pool.entry x with
    withAncestors := if x ∈ descendants then (pool.entry x).withAncestors.update
      (feeChange nFeeDelta)
      else (pool.entry x).withAncestors
    withDescendants := if x ∈ ancestors
      then (pool.entry x).withDescendants.update (feeChange nFeeDelta)
      else (pool.entry x).withDescendants } := by
  rw [hentry]
  exact if_neg hx

theorem reprioritised_same (x : Uint256) :
    ((after.entry x).tx = (pool.entry x).tx ∧ (after.entry x).nFee = (pool.entry x).nFee ∧
      (after.entry x).sigOpCost = (pool.entry x).sigOpCost) ∧
      (after.entry x).m_parents = (pool.entry x).m_parents ∧
      (after.entry x).m_children = (pool.entry x).m_children := by
  by_cases hx : x = hash
  · rw [hx, reprioritised_self hentry]
    exact ⟨⟨rfl, rfl, rfl⟩, rfl, rfl⟩
  · rw [reprioritised_other hentry x hx]
    exact ⟨⟨rfl, rfl, rfl⟩, rfl, rfl⟩

theorem unsaturated_of_reprioritised (htxids : after.txids = pool.txids)
    (hflag : after.saturated = false → pool.saturated = false) (h : after.Unsaturated) :
    pool.Unsaturated := by
  refine ⟨hflag h.1, fun x hx => ?_⟩
  have hflags := h.2 x (htxids ▸ hx)
  by_cases heq : x = hash
  · rw [heq, reprioritised_self hentry] at hflags
    rw [heq]
    exact (updateModifiedFee_exact hflags).1
  · rw [reprioritised_other hentry x heq] at hflags
    exact ⟨PackageState.saturated_ite_update hflags.1,
      PackageState.saturated_ite_update hflags.2.1, hflags.2.2⟩

variable {counts : Uint256 → Uint256 → Prop}

/-- A change of the fee reaches the totals of the entry, its ancestors and its descendants. -/
theorem Exact.reprioritised (h : pool.Exact env counts)
    (htxids : after.txids = pool.txids) (hflag : after.saturated = false → pool.saturated = false)
    (hmem : hash ∈ pool.txids) (hirrefl : ¬ counts hash hash)
    (hancestors : ∀ it, it ∈ ancestors ↔ counts it hash)
    (hdescendants : ∀ it, it ∈ descendants ↔ counts hash it) : after.Exact env counts := by
  classical
  have hnodes := nodes_congr htxids
  have hself := reprioritised_self hentry
  have hother := reprioritised_other hentry
  have hsound : ∀ q, after.Sound q → pool.Sound q := fun q h heq =>
    unsaturated_of_reprioritised hentry htxids hflag (h heq)
  have hfee := fun hunsaturated : after.Unsaturated =>
    updateModifiedFee_exact (hself ▸ hunsaturated.2 hash (htxids ▸ hmem))
  have hweight : ∀ q x, x ≠ hash → after.weight env q x = pool.weight env q x := by
    intro q x hx
    unfold weight
    rw [hother x hx]
    cases q <;> rfl
  have hweightSelf : ∀ q, after.Sound q →
      after.weight env q hash = pool.weight env q hash + feeChange nFeeDelta q := by
    intro q hafterSound
    unfold weight
    rw [hself]
    cases q with
    | count => rfl
    | size => exact (Int.add_zero _).symm
    | fees => exact (hfee (hafterSound rfl)).2.1
    | sigOps => exact (Int.add_zero _).symm
  have hupdate : ∀ state : PackageState, ∀ q (reached : Prop) [Decidable reached], (q = .fees →
        (if reached then state.update (feeChange nFeeDelta) else state).saturated = false) →
      (if reached then state.update (feeChange nFeeDelta) else state).get q =
        state.get q + if reached then feeChange nFeeDelta q else 0 := by
    intro state q reached _ hflag
    by_cases hreached : reached
    · rw [if_pos hreached] at hflag
      rw [if_pos hreached, if_pos hreached]
      exact PackageState.get_update hflag
    · rw [if_neg hreached, if_neg hreached, Int.add_zero]
  refine ⟨?_, ?_, ?_⟩
  · intro x hx q hafterSound
    rw [htxids] at hx
    rw [hnodes, relTotal_update (mem_nodes.mpr hmem) hirrefl
      (hweightSelf q hafterSound) (hweight q), ← h.ancestors x hx q (hsound q hafterSound)]
    by_cases heq : x = hash
    · rw [heq, hself, if_pos (Or.inl rfl)]
      cases q with
      | count | size => exact (Int.add_zero _).symm
      | fees => exact (hfee (hafterSound rfl)).2.2.1
      | sigOps => exact (Int.add_zero _).symm
    · have hflag := fun hq => ((hafterSound hq).2 x (htxids ▸ hx)).1
      rw [hother x heq] at hflag ⊢
      rw [hupdate _ q _ hflag]
      simp [heq, hdescendants]
  · intro x hx q hq hafterSound
    rw [htxids] at hx
    have hflip : ¬ flip counts hash hash := hirrefl
    rw [hnodes, relTotal_update (mem_nodes.mpr hmem) hflip (hweightSelf q hafterSound) (hweight q),
      ← h.descendants x hx q hq (hsound q hafterSound)]
    by_cases heq : x = hash
    · rw [heq, hself, if_pos (Or.inl rfl)]
      cases q with
      | count | size => exact (Int.add_zero _).symm
      | fees => exact (hfee (hafterSound rfl)).2.2.2
      | sigOps => exact absurd rfl hq
    · have hflag := fun hq => ((hafterSound hq).2 x (htxids ▸ hx)).2.1
      rw [hother x heq] at hflag ⊢
      rw [hupdate _ q _ hflag]
      simp [heq, hancestors, flip]
  · intro x hx
    rw [htxids] at hx
    by_cases heq : x = hash
    · rw [heq, hself]
      exact h.sigOps hash hmem
    rw [hother x heq]
    dsimp only
    split
    · exact (Int.add_zero _).trans (h.sigOps x hx)
    · exact h.sigOps x hx

theorem NoAssert.reprioritised (h : pool.NoAssert)
    (htxids : after.txids = pool.txids) (hflag : after.assertFailed = pool.assertFailed)
    (hexact : after.Exact env counts) (hflags : after.Unsaturated) : after.NoAssert := by
  refine ⟨hflag.trans h.1, fun x hx => ?_⟩
  have hancestors := hexact.positive_ancestors hx
  have hdescendants := hexact.positive_descendants hx
  have hentryFlags := hflags.2 x hx
  rw [htxids] at hx
  by_cases heq : x = hash
  · subst heq
    rw [reprioritised_self hentry]
    exact h.2 x hx
  rw [reprioritised_other hentry x heq] at hancestors hdescendants hentryFlags ⊢
  constructor
  · exact PackageState.assertFailed_ite_update (h.2 x hx).1 hentryFlags.1 hancestors
  · exact PackageState.assertFailed_ite_update (h.2 x hx).2 hentryFlags.2.1 hdescendants

end Reprioritised

theorem InOrder.prioritiseTransaction (h : InOrder env readded pool) (hash : Uint256)
    (nFeeDelta : Int) :
    InOrder env readded (CTxMemPool.prioritiseTransaction env pool hash nFeeDelta) := by
  by_cases hmem : hash ∈ pool.txids
  · obtain ⟨ancestors, descendants, hancestors, hdescendants, heq⟩ :=
      @Links.prioritise_eq env pool h.kept.links hash hmem nFeeDelta
    generalize CTxMemPool.prioritiseTransaction env pool hash nFeeDelta = after at heq
    have hentry : after.entry = pool.reprioritise hash nFeeDelta ancestors descendants := by
      rw [heq]
    have htxids : after.txids = pool.txids := by rw [heq]
    have hflag : after.saturated = false → pool.saturated = false := by
      rw [heq]
      exact fun hor => (Bool.or_eq_false_iff.mp hor).1
    have hsame := reprioritised_same hentry
    obtain ⟨hlinks, hlinked⟩ := h.kept.links.of_same htxids fun x => (hsame x).2
    have hbooks := h.kept.books.of_same htxids (by rw [heq]) (by rw [heq]) (by rw [heq])
      fun x => (hsame x).1
    have hspends : after.Spends = pool.Spends := by
      funext parent child
      unfold Spends
      rw [htxids, (hsame child).1.1]
    have hexact : after.Exact env (TransGen after.Linked) := by
      rw [hlinked]
      exact h.kept.exact.reprioritised hentry htxids hflag hmem (h.kept.links.acyclic hash)
        hancestors hdescendants
    have hnoAssert : after.Unsaturated → after.NoAssert := by
      intro hflags
      have hbefore := unsaturated_of_reprioritised hentry htxids hflag hflags
      exact (h.kept.noAssert hbefore).reprioritised hentry htxids (by rw [heq]) hexact hflags
    refine ⟨⟨hlinks, hbooks, hexact, hnoAssert⟩, ?_, ?_, h.nodup, ?_⟩
    · rw [hlinked, hspends]
      exact h.linked
    · rw [hspends]
      exact h.closed
    · rw [hspends]
      exact h.order
  · unfold CTxMemPool.prioritiseTransaction
    rw [if_neg hmem]
    exact h.of_deltas fun hor => (Bool.or_eq_false_iff.mp hor).1

end Calls

end CTxMemPool

end BtcSharp
