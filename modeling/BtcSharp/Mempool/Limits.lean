/-
# Limits on ancestors and descendants

The search for ancestors within limits decides whether new transactions fit in with their
ancestors: it finds all of them if the transactions with their ancestors are within the
limits and each ancestor can take them in as descendants, and it fails otherwise. The order
in which the ancestors are taken does not matter.
-/

import BtcSharp.Mempool.Links

namespace BtcSharp

open List Math Relation

namespace CTxMemPool

/-- `CalculateMemPoolAncestors` with a search for parents, in some order. -/
def calculateMemPoolAncestorsBy (env : MempoolEnv) (order : List Uint256 → List Uint256)
    (pool : CTxMemPool) (entry : CTxMemPoolEntry) (limits : MemPoolLimits) :
    Except LimitError (List Uint256) := do
  let staged_ancestors ← searchParents pool (some limits) 1 entry.tx.vin []
  ancestorsLoopBy env order pool (entry.getTxSize env) 1 (some limits) pool.txids.length
    staged_ancestors [] (entry.getTxSize env)

variable {env : MempoolEnv} {pool : CTxMemPool} {limits : MemPoolLimits} {entry_size : Int}
  {entry_count : Nat} {order : List Uint256 → List Uint256} {found ancestors : List Uint256}
  {vin : List CTxIn} {fuel : Nat}

/-- The size of some entries together. -/
def sizeOfAll (env : MempoolEnv) (pool : CTxMemPool) (its : List Uint256) : Int :=
  (its.map fun it => ((pool.entry it).getTxSize env : Int)).sum

/-- New transactions of some size and number fit in with their ancestors. -/
structure Fits (env : MempoolEnv) (pool : CTxMemPool) (limits : MemPoolLimits) (entry_size : Int)
    (entry_count : Nat) (ancestors : List Uint256) : Prop where
  descendants : ∀ it ∈ ancestors,
    (pool.entry it).withDescendants.size + entry_size ≤ limits.descendant_size_vbytes ∧
      countFits ((pool.entry it).withDescendants.count + entry_count) limits.descendant_count = true
  size : ancestors ≠ [] → entry_size + sizeOfAll env pool ancestors ≤ limits.ancestor_size_vbytes
  count : ancestors ≠ [] → countFits (ancestors.length + entry_count) limits.ancestor_count = true

theorem countFits_mono {count count' limit : Int} (h : countFits count limit = true)
    (hle : count' ≤ count) : countFits count' limit = true :=
  decide_eq_true (Int.le_trans hle (of_decide_eq_true h))

/-- A count that fits is within a limit that is not negative. -/
theorem countFits_le {count limit : Int} (hlimit : 0 ≤ limit) (h : countFits count limit = true) :
    count ≤ limit := by
  have hle : count ≤ limit % 2 ^ 64 := of_decide_eq_true h
  omega

theorem sizeOfAll_le {its found : List Uint256} (h : its.Subperm found) :
    sizeOfAll env pool its ≤ sizeOfAll env pool found := by
  obtain ⟨_, hperm, hsub⟩ := h
  unfold sizeOfAll
  rw [← (hperm.map _).sum_eq]
  refine (hsub.map _).sum_le_sum fun size hsize => ?_
  obtain ⟨_, -, rfl⟩ := mem_map.mp hsize
  exact Int.natCast_nonneg _

theorem Fits.perm (h : Fits env pool limits entry_size entry_count found)
    (hperm : ancestors.Perm found) : Fits env pool limits entry_size entry_count ancestors where
  descendants := fun it hit => h.descendants it (hperm.mem_iff.mp hit)
  size := fun hne => Int.le_trans (Int.add_le_add_left (sizeOfAll_le hperm.subperm) _)
    (h.size fun hnil => hne (hnil ▸ hperm).eq_nil)
  count := fun hne => hperm.length_eq ▸ h.count fun hnil => hne (hnil ▸ hperm).eq_nil

/-! ## Decisions -/

/-- A search that finds some entries if a condition holds, and fails if not. -/
inductive Decides (fits : Prop) (found : List Uint256) : Except LimitError (List Uint256) → Prop
  | ok {ancestors : List Uint256} (hfits : fits) (hperm : ancestors.Perm found) :
    Decides fits found (.ok ancestors)
  | error {err : LimitError} (hnot : ¬ fits) : Decides fits found (.error err)

section Decides

variable {fits : Prop} {found : List Uint256}

theorem Decides.of_isOk {outcome : Except LimitError (List Uint256)}
    (h : Decides fits found outcome) (hok : outcome.isOk = true) : fits := by
  cases h with
  | ok hfits => exact hfits
  | error => cases hok

/-- A check of what the condition needs. -/
theorem Decides.check {within : MemPoolLimits → Bool} {err : MemPoolLimits → LimitError}
    {rest : Unit → Except LimitError (List Uint256)} (hneeds : fits → within limits = true)
    (hrest : within limits = true → Decides fits found (rest ())) :
    Decides fits found (checkLimit (some limits) within err >>= rest) := by
  by_cases hwithin : within limits = true
  · have hcheck : checkLimit (some limits) within err = .ok () := if_pos hwithin
    rw [hcheck]
    exact hrest hwithin
  · have hcheck : checkLimit (some limits) within err = .error (err limits) := if_neg hwithin
    rw [hcheck]
    exact .error fun hfits => hwithin (hneeds hfits)

variable {rest : List Uint256 → Except LimitError (List Uint256)}

/-- All parents can be staged if their number fits. -/
theorem Decides.stageParents {parents : List Uint256} : ∀ {staged : List Uint256},
    (fits → countFits ((stageNew ancestors staged parents).length + ancestors.length + entry_count)
      limits.ancestor_count = true) →
    ((countFits (staged.length + ancestors.length + entry_count) limits.ancestor_count = true →
        countFits ((stageNew ancestors staged parents).length + ancestors.length + entry_count)
          limits.ancestor_count = true) →
      Decides fits found (rest (stageNew ancestors staged parents))) →
    Decides fits found
      (CTxMemPool.stageParents (some limits) entry_count ancestors parents staged >>= rest) := by
  induction parents with
  | nil => exact fun _ hrest => hrest id
  | cons parent parents ih =>
    intro staged hneeds hrest
    have hlength :=
      @length_le_stageNew _ (if parent ∈ ancestors then staged else staged.insert parent) _
      ancestors parents
    rw [CTxMemPool.stageParents, bind_assoc]
    refine .check (fun hfits => countFits_mono (hneeds hfits) ?_) fun hcount =>
      ih hneeds fun hlater => hrest fun _ => hlater hcount
    exact Int.add_le_add_right (Int.add_le_add_right (Int.ofNat_le.mpr hlength) _) _

/-- All parents can be looked up if their number fits. -/
theorem Decides.searchParents {count : Nat} : ∀ {staged result : List Uint256},
    staged.Nodup → searchParents pool none count vin staged = .ok result →
    (fits → result ≠ [] → countFits (result.length + entry_count) limits.ancestor_count = true) →
    (((staged ≠ [] → countFits (staged.length + entry_count) limits.ancestor_count = true) →
        result ≠ [] → countFits (result.length + entry_count) limits.ancestor_count = true) →
      Decides fits found (rest result)) →
    Decides fits found (searchParents pool (some limits) entry_count vin staged >>= rest) := by
  induction vin with
  | nil =>
    intro staged result _ h _ hrest
    cases h
    exact hrest id
  | cons input vin ih =>
    intro staged result hnodup h hneeds hrest
    unfold CTxMemPool.searchParents at h ⊢
    split
    · next hmem =>
      rw [if_pos hmem] at h
      obtain ⟨⟨⟩, -, h⟩ := except_bind_ok h
      have hsub := hnodup.insert.subperm fun it hit => ((searchParents_ok h).2 it).mpr (.inl hit)
      have hne : result ≠ [] := fun hnil => not_mem_nil (hnil ▸ hsub.subset mem_insert_self)
      rw [bind_assoc]
      refine .check (fun hfits => countFits_mono (hneeds hfits hne) ?_) fun hcount =>
        ih hnodup.insert h hneeds fun hlater => hrest fun _ => hlater fun _ => hcount
      exact Int.add_le_add_right (Int.ofNat_le.mpr hsub.length_le) _
    · next hmem =>
      rw [if_neg hmem] at h
      exact ih hnodup h hneeds hrest

end Decides

/-! ## The search -/

/-- What the loop has checked of the ancestors that it has found. -/
structure FitsSoFar (env : MempoolEnv) (pool : CTxMemPool) (limits : MemPoolLimits)
    (entry_size : Int)
    (entry_count : Nat) (staged ancestors : List Uint256) (totalSize : Int) : Prop where
  descendants : ∀ it ∈ ancestors,
    (pool.entry it).withDescendants.size + entry_size ≤ limits.descendant_size_vbytes ∧
      countFits ((pool.entry it).withDescendants.count + entry_count) limits.descendant_count = true
  total : entry_size + sizeOfAll env pool ancestors ≤ totalSize
  size : ancestors ≠ [] → totalSize ≤ limits.ancestor_size_vbytes
  count : countFits (staged.length + ancestors.length + entry_count) limits.ancestor_count = true

theorem FitsSoFar.decides {found ancestors : List Uint256} {totalSize : Int}
    (h : FitsSoFar env pool limits entry_size entry_count [] ancestors totalSize)
      (hperm : ancestors.Perm found) :
    Decides (Fits env pool limits entry_size entry_count found) found (.ok ancestors) := by
  refine .ok (.perm ⟨h.descendants, fun hne => ?_, fun _ => ?_⟩ hperm.symm) hperm
  · exact Int.le_trans h.total (h.size hne)
  · exact countFits_mono h.count (by simp)

/-- The loop decides whether what it finds fits. -/
theorem ancestorsLoopBy_decides (horder : ∀ its, (order its).Perm its)
    (h : pool.Links) (hfound : found.Nodup) :
    ∀ {staged ancestors : List Uint256} {totalSize : Int},
      SearchInv (fun it => order (pool.entry it).m_parents) pool.txids staged ancestors →
      (∀ it, it ∈ found ↔ it ∈ ancestors ∨ ∃ start ∈ staged,
        ReflTransGen (fun child parent => parent ∈ order (pool.entry child).m_parents) start it) →
      pool.txids.length ≤ fuel + ancestors.length →
      totalSize ≤ entry_size + sizeOfAll env pool ancestors →
      FitsSoFar env pool limits entry_size entry_count staged ancestors totalSize →
      Decides (Fits env pool limits entry_size entry_count found) found
        (ancestorsLoopBy env order pool entry_size entry_count (some limits) fuel staged ancestors
          totalSize) := by
  induction fuel with
  | zero =>
    intro staged ancestors totalSize hinv hreach hfuel _ hfits
    obtain rfl := hinv.stage_eq_nil (by omega)
    exact hfits.decides (hinv.found_perm hfound hreach)
  | succ fuel ih =>
    intro staged ancestors totalSize hinv hreach hfuel htotal hfits
    unfold ancestorsLoopBy
    have hperm := horder staged
    cases hstaged : order staged with
    | nil =>
      rw [hstaged] at hperm
      obtain rfl := hperm.nil_eq
      exact hfits.decides (hinv.found_perm hfound hreach)
    | cons stageit rest =>
      rw [hstaged] at hperm
      replace hinv := hinv.perm hperm
      simp only [← hperm.mem_iff] at hreach
      have hcount := hperm.length_eq ▸ hfits.count
      have hnot := hinv.disjoint stageit mem_cons_self
      have hstep := hinv.step (h.order_mem horder)
      have hreach' := fun it => (hreach it).trans (hinv.reach_step (h.order_mem horder)).symm
      have hin : stageit ∈ found := (hreach' stageit).mpr (.inl mem_insert_self)
      have hsize : sizeOfAll env pool (ancestors.insert stageit) =
          sizeOfAll env pool ancestors + (pool.entry stageit).getTxSize env := by
        rw [insert_of_not_mem hnot, Int.add_comm]
        rfl
      refine .check (fun hall => decide_eq_true (hall.descendants stageit hin).1) fun hbelow =>
        .check (fun hall => (hall.descendants stageit hin).2) fun hbelowCount =>
        .check (fun hall => decide_eq_true ?_) fun habove =>
        .stageParents (fun hall => ?_) fun hgrown =>
        ih hstep hreach' ?_ ?_ ⟨fun it hit => ?_, ?_, fun _ => of_decide_eq_true habove, hgrown ?_⟩
      · have hsub := hstep.visited_nodup.subperm fun it hit => (hreach' it).mpr (.inl hit)
        have hle := @sizeOfAll_le env pool _ _ hsub
        have hlimit := hall.size (ne_nil_of_mem hin)
        omega
      · have hsub :
            (stageNew (ancestors.insert stageit) rest (order (pool.entry stageit).m_parents) ++
            ancestors.insert stageit).Subperm found := by
          refine (nodup_append'.mpr ⟨hstep.stage_nodup, hstep.visited_nodup,
            hstep.disjoint⟩).subperm fun it hit => ?_
          exact (hreach' it).mpr ((mem_append.mp hit).symm.imp_right fun hit => ⟨it, hit, .refl⟩)
        have hle := hsub.length_le
        rw [length_append] at hle
        exact countFits_mono (hall.count (ne_nil_of_mem hin)) (by omega)
      · rw [insert_of_not_mem hnot, length_cons]
        omega
      · omega
      · rcases mem_insert_iff.mp hit with rfl | hold
        · exact ⟨of_decide_eq_true hbelow, hbelowCount⟩
        · exact hfits.descendants it hold
      · have hle := hfits.total
        omega
      · rw [insert_of_not_mem hnot, length_cons]
        refine countFits_mono hcount ?_
        rw [length_cons]
        omega

theorem calculateMemPoolAncestors_eq {entry : CTxMemPoolEntry} :
    calculateMemPoolAncestors env pool entry (some limits) true =
      calculateMemPoolAncestorsBy env id pool entry limits := rfl

/-- The search for the ancestors of new transactions decides whether they fit in. -/
theorem Links.decides (h : pool.Links) (vin : List CTxIn) :
    ∃ found : List Uint256, found.Nodup ∧ (∀ it, it ∈ found ↔ ∃ parent ∈ pool.txids,
        (∃ txin ∈ vin, txin.prevout.hash = parent) ∧ ReflTransGen pool.Linked it parent) ∧
      ∀ {order : List Uint256 → List Uint256} {limits : MemPoolLimits} {entry_size : Int}
        {entry_count : Nat}, (∀ its, (order its).Perm its) →
        Decides (Fits env pool limits entry_size entry_count found) found
          (searchParents pool (some limits) entry_count vin [] >>= fun staged =>
            ancestorsLoopBy env order pool entry_size entry_count (some limits) pool.txids.length
              staged [] entry_size) := by
  obtain ⟨staged, hstaged⟩ := @searchParents_none pool 1 vin []
  obtain ⟨hnodup, hiff⟩ := h.search_searched hstaged
  refine ⟨_, hnodup, hiff, fun {order limits entry_size entry_count} horder => ?_⟩
  obtain ⟨hstagedNodup, hmem⟩ := searchParents_ok hstaged
  simp only [not_mem_nil, false_or] at hmem
  have hreach :
      ∀ it, it ∈ search (fun it => (pool.entry it).m_parents) pool.txids.length staged [] ↔
      it ∈ ([] : List Uint256) ∨ ∃ start ∈ staged,
        ReflTransGen (fun child parent => parent ∈ order (pool.entry child).m_parents)
          start it := by
    intro it
    rw [hiff, or_iff_right not_mem_nil]
    refine exists_congr fun parent => ?_
    rw [hmem, ← and_assoc]
    exact and_congr_right fun hparent => (h.order_reach horder hparent.1).symm
  refine .searchParents nodup_nil hstaged (fun hfits hne => ?_) fun hcount => ?_
  · have hsub := (hstagedNodup nodup_nil).subperm fun it hit =>
      (hreach it).mpr (.inr ⟨it, hit, .refl⟩)
    refine countFits_mono (hfits.count ?_) (by have := hsub.length_le; omega)
    exact fun hnil => hne (subperm_nil.mp (hnil ▸ hsub))
  cases staged with
  | nil =>
    have hnil : ∀ fuel, ancestorsLoopBy env order pool entry_size entry_count (some limits) fuel []
        [] entry_size = .ok [] := by
      intro fuel
      cases fuel with
      | zero => rfl
      | succ fuel => rw [ancestorsLoopBy, (horder []).eq_nil]
    rw [hnil, search_nil]
    exact .ok ⟨fun _ hit => absurd hit not_mem_nil, absurd rfl, absurd rfl⟩ .nil
  | cons first rest =>
    refine ancestorsLoopBy_decides horder h hnodup
      (searchInv_parents (hstagedNodup nodup_nil) ?_) hreach
      (Nat.le_add_right _ _) (Int.le_of_eq (Int.add_zero _).symm)
      ⟨fun _ hit => absurd hit not_mem_nil, Int.le_of_eq (Int.add_zero _), absurd rfl,
        hcount (absurd rfl) (cons_ne_nil _ _)⟩
    exact fun it hit => ((hmem it).mp hit).1

end CTxMemPool

end BtcSharp
