/-
# Limits for new transactions

The limits decide which new transactions get in. For one transaction the search for its
ancestors decides it, in whatever order the search goes. For a package the check takes all
its transactions and their ancestors together, which is more than enough: every entry is
within the limits after each addition. A transaction without ancestors in the mempool is not
compared with the limits on ancestors, although it counts among them.
-/

import BtcSharp.Validation.ChainLimits

namespace BtcSharp

open List Math Relation

namespace CTxMemPool

/-- An entry with its ancestors, and with its descendants, is within the limits. -/
structure WithinAt (env : MempoolEnv) (pool : CTxMemPool) (it : Uint256) : Prop where
  count : countFits (ancestorTotal env pool .count it) env.limits.ancestor_count = true ∧
    countFits (descendantTotal env pool .count it) env.limits.descendant_count = true
  size : ancestorTotal env pool .size it ≤ env.limits.ancestor_size_vbytes ∧
    descendantTotal env pool .size it ≤ env.limits.descendant_size_vbytes

/-- The sizes of entries that are to be added. -/
def totalSize (env : MempoolEnv) (pool : CTxMemPool) (additions : List Addition) : Int :=
  (additions.map fun a => ((stageAddition env pool a).getTxSize env : Int)).sum

/-- What the limits ask of a new entry: with its ancestors it is within the limits, and so is
each ancestor with its descendants and the entry. -/
structure EntryWithin (env : MempoolEnv) (pool : CTxMemPool) (limits : MemPoolLimits)
    (entry_size : Int) (ancestors : List Uint256) : Prop where
  count : (ancestors.length : Int) + 1 ≤ limits.ancestor_count
  size : entry_size + sizeOfAll env pool ancestors ≤ limits.ancestor_size_vbytes
  descendants : ∀ it ∈ ancestors,
    (pool.entry it).withDescendants.count + 1 ≤ limits.descendant_count ∧
      (pool.entry it).withDescendants.size + entry_size ≤ limits.descendant_size_vbytes

/-- The limits on counts keep their value as unsigned 64-bit numbers. -/
def UnsignedCounts (limits : MemPoolLimits) : Prop :=
  (0 ≤ limits.ancestor_count ∧ limits.ancestor_count < 2 ^ 64) ∧
    0 ≤ limits.descendant_count ∧ limits.descendant_count < 2 ^ 64

variable {env : MempoolEnv} {pool after next : CTxMemPool} {additions more : List Addition}
  {package : List CTransaction} {it : Uint256} {cached : Bool}

theorem Admissible.applied (h : Admissible env pool (additions.map (·.tx)))
    (hnodup : pool.txids.Nodup) (k : Nat) (cached : Bool) :
    Applied env pool [] (additions.take k) (apply env pool [] (additions.take k) cached) := by
  have hdistinct := h.nodup
  rw [List.map_map] at hdistinct
  refine apply_applied hnodup (hdistinct.sublist ((take_sublist k _).map _)) (fun a ha => ?_) cached
  exact h.new a.tx (mem_map_of_mem (mem_of_mem_take ha))

/-- Further additions leave the old entries, and those that were added first, as they are. -/
theorem Applied.shrunk (h : Applied env pool [] additions after)
    (hmore : Applied env pool [] more next)
    (hsub : ∀ a ∈ additions, a ∈ more) : Shrunk next after := by
  constructor
  · intro it hit
    rw [hmore.mem]
    exact ((h.mem it).mp hit).imp_right fun hnew => map_subset _ hsub hnew
  · intro it hit
    rcases (h.mem it).mp hit with hold | hnew
    · exact (h.old it hold.1 hold.2).trans (hmore.old it hold.1 hold.2).symm
    · obtain ⟨a, ha, rfl⟩ := mem_map.mp hnew
      exact (h.new a ha).trans (hmore.new a (hsub a ha)).symm

theorem Applied.weightOfAll_size (h : Applied env pool [] additions after)
    (hperm : package.Perm (additions.map (·.tx))) :
    weightOfAll env after .size (package.map env.txid) = totalSize env pool additions := by
  rw [weightOfAll, ((hperm.map env.txid).map _).sum_eq, List.map_map, List.map_map]
  refine congrArg sum (map_congr_left fun a ha => ?_)
  exact congrArg Nat.cast (CTxMemPoolEntry.getTxSize_of_static (h.new a ha) env)

/-- A package that is within the limits with all its ancestors keeps every entry within them. -/
theorem package_within (h : InOrder env [] pool)
    (hadmissible : Admissible env pool (additions.map (·.tx)))
    (hperm : package.Perm (additions.map (·.tx)))
    (hok : pool.checkPackageLimits env package (totalSize env pool additions) = true) {k : Nat}
    (hit : it ∈ (apply env pool [] (additions.take k) cached).txids)
    (hold : it ∈ pool.txids → WithinAt env pool it) :
    WithinAt env (apply env pool [] (additions.take k) cached) it := by
  have happlied : Applied env pool [] additions (apply env pool [] additions cached) := by
    have hall := hadmissible.applied h.kept.links.nodup additions.length cached
    rwa [take_length] at hall
  have hacyclic : ∀ it, ¬ TransGen (apply env pool [] additions cached).Spends it it := by
    have hafter := @InOrder.apply env pool [] cached h additions ⟨⟨nodup_nil, nofun,
      nofun⟩, hadmissible, fun _ _ _ _ hit => absurd hit not_mem_nil⟩
    rw [← hafter.linked_eq]
    exact hafter.kept.links.acyclic
  have hgrafted := happlied.grafted hperm (fun tx htx => hadmissible.new tx (hperm.mem_iff.mp htx))
    (fun tx htx => hadmissible.noLoop tx (hperm.mem_iff.mp htx))
    fun tx htx => hadmissible.noSpender tx (hperm.mem_iff.mp htx)
  have hshrunk :=
    (hadmissible.applied h.kept.links.nodup k cached).shrunk happlied fun a => mem_of_mem_take
  obtain ⟨ancestors, hnodup, hmem, hcount, hsize⟩ :=
    h.room_package hok (happlied.weightOfAll_size hperm)
  have hnew : NewAncestors env pool [] package ancestors := by
    refine ⟨(hperm.map _).nodup_iff.mpr hadmissible.nodup, hnodup, hmem,
      fun it hit => ⟨?_, not_mem_nil⟩⟩
    obtain ⟨tx, -, hancestor⟩ := (hmem it).mp hit
    exact h.ancestor_mem hancestor
  obtain ⟨hcountAbove, hcountBelow⟩ := hgrafted.bounded (by decide) hnew hacyclic hcount
    (fun hthere => (hold hthere).count.imp of_decide_eq_true of_decide_eq_true)
      (hshrunk.txids it hit)
  obtain ⟨hsizeAbove, hsizeBelow⟩ := hgrafted.bounded (by decide) hnew hacyclic hsize
    (fun hthere => (hold hthere).size) (hshrunk.txids it hit)
  have hle := fun {q} => @Shrunk.totals_le env _ _ q it hshrunk
  exact ⟨⟨decide_eq_true (Int.le_trans (hle (by decide) hit).1 hcountAbove),
      decide_eq_true (Int.le_trans (hle (by decide) hit).2 hcountBelow)⟩,
    Int.le_trans (hle (by decide) hit).1 hsizeAbove,
      Int.le_trans (hle (by decide) hit).2 hsizeBelow⟩

section Decision

variable {limits : MemPoolLimits} {entry_size : Int} {found : List Uint256}
  {outcome : Except LimitError (List Uint256)}

theorem countFits_iff {count limit : Int} (hlimit : 0 ≤ limit ∧ limit < 2 ^ 64) :
    countFits count limit = true ↔ count ≤ limit := by
  rw [countFits, decide_eq_true_eq, Int.emod_eq_of_lt hlimit.1 hlimit.2]

/-- What the search decides is what the limits ask for, except that an entry without ancestors
is let through. -/
theorem fits_iff (hcounts : UnsignedCounts limits) : Fits env pool limits entry_size 1 found ↔
    found = [] ∨ EntryWithin env pool limits entry_size found := by
  by_cases hnone : found = []
  · refine iff_of_true ⟨?_, fun hne => absurd hnone hne, fun hne => absurd hnone hne⟩ (.inl hnone)
    exact fun it hit => absurd (hnone ▸ hit) not_mem_nil
  rw [or_iff_right hnone]
  have hdescendants : ∀ it, countFits ((pool.entry it).withDescendants.count + (1 : Nat))
      limits.descendant_count = true ↔
        (pool.entry it).withDescendants.count + 1 ≤ limits.descendant_count :=
    fun it => countFits_iff hcounts.2
  constructor
  · intro h
    refine ⟨(countFits_iff hcounts.1).mp (h.count hnone), h.size hnone, fun it hit => ?_⟩
    exact ⟨(hdescendants it).mp (h.descendants it hit).2, (h.descendants it hit).1⟩
  · intro h
    refine ⟨fun it hit => ?_, fun _ => h.size, fun _ => (countFits_iff hcounts.1).mpr h.count⟩
    exact ⟨(h.descendants it hit).2, (hdescendants it).mpr (h.descendants it hit).1⟩

/-- A search for ancestors does what the limits ask for exactly if an entry without ancestors
is within the limits on ancestors by itself. -/
theorem Decides.within_iff (h : Decides (Fits env pool limits entry_size 1 found) found outcome)
    (hcounts : UnsignedCounts limits) :
    Decides (EntryWithin env pool limits entry_size found) found outcome ↔
      (found = [] → 1 ≤ limits.ancestor_count ∧ entry_size ≤ limits.ancestor_size_vbytes) := by
  have halone : found = [] → (EntryWithin env pool limits entry_size found ↔
      1 ≤ limits.ancestor_count ∧ entry_size ≤ limits.ancestor_size_vbytes) := by
    rintro rfl
    refine ⟨fun hwithin => ⟨hwithin.count, ?_⟩, fun hboth => ⟨hboth.1, ?_, nofun⟩⟩
    · simpa [sizeOfAll] using hwithin.size
    · simpa [sizeOfAll] using hboth.2
  rw [fits_iff hcounts] at h
  cases h with
  | ok hfits hperm =>
    constructor
    · rintro (⟨hwithin, -⟩ | -) hnone
      exact (halone hnone).mp hwithin
    · exact fun hok => .ok (hfits.elim (fun hnone => (halone hnone).mpr (hok hnone)) id) hperm
  | error hnot =>
    rw [not_or] at hnot
    exact iff_of_true (.error hnot.2) fun hnone => absurd hnone hnot.1

end Decision

end CTxMemPool

namespace MempoolRun

open CTxMemPool

end MempoolRun

end BtcSharp
